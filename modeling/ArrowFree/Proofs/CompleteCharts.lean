import ArrowFree.Proofs.Charts
import Mathlib.Data.List.Nodup
import Mathlib.Data.List.Perm.Subperm
import Mathlib.Data.List.ProdSigma

/-!
# Completeness of the chart parser

The grammar starts no production with a symbol that can be empty (`NoEmptyStart`), gives empty
productions no priority, and ranks a symbol above what alone can make it up (`Orderly`). A column of a
chart is closed if no item can be moved on: what waits for the token before it, for a symbol that is
complete in it or for a symbol that can be empty has been moved on, with at least the score that this
adds, and what is waited for may begin (`ClosedAt`).

1. In a chart of closed columns an item goes through whatever its symbols derive, and gains the score
   of the derivation (`goes_on`, `goes_through`), by induction on the derivation; and where a sentence
   goes on, some item waits for its next token (`waits`).
2. The columns that the parser makes are closed: the walk that predicts (`predict_spec`) and the loop that
   completes (`complete_spec`) end because everything is done, and not because they run out of fuel. A
   symbol is completed when all its rivals are known, because each step completes what comes soonest and
   what it adds comes later (`Completing.step`).
3. So every sentence has a derivation that the parser returns (`parse_of_accepts`).
-/

namespace ArrowFree.Grammar

open List

variable {κ τ ν α : Type} {s : Symbol τ ν} {ts us : List κ} {G : Grammar κ τ ν α} {r : Rule τ ν α}
  {i k fuel : Nat} {it w : Item κ τ ν α} {rest : List (Symbol τ ν)} {n : ν}

/-! ## Grammars -/

section

variable [DecidableEq ν] {G : Grammar κ τ ν α}

/-- No production begins with a nonterminal that has an empty production. -/
def NoEmptyStart (G : Grammar κ τ ν α) : Prop :=
  ∀ p ∈ G.productions, ∀ n, p.body.head? = some (.nonterminal n) → G.empty? n = none

/-- All symbols have empty productions. -/
def Skippable (G : Grammar κ τ ν α) (ss : List (Symbol τ ν)) : Prop :=
  ∀ s ∈ ss, ∃ n, s = .nonterminal n ∧ (G.empty? n).isSome

/-- A grammar whose symbols can be completed in the order of their ranks. -/
structure Orderly (G : Grammar κ τ ν α) : Prop where
  noEmptyStart : G.NoEmptyStart
  priority_empty : ∀ p ∈ G.productions, p.body = [] → p.priority = 0
  rank_lt : ∀ p ∈ G.productions, ∀ n rest, p.body = .nonterminal n :: rest → G.Skippable rest →
    G.rank n < G.rank p.head

mutual

/-- What derives no tokens has an empty production of its own. -/
theorem empty?_of_derives (hG : G.NoEmptyStart) {s : Symbol τ ν} {d : Derivation κ τ ν α}
    {ts : List κ} (hts : ts = []) : G.Derives s d ts → ∃ n, s = .nonterminal n ∧ (G.empty? n).isSome
  | .leaf t => nomatch hts
  | .branch (p := p) hp hds => by
    refine ⟨p.head, rfl, ?_⟩
    cases hbody : p.body with
    | nil => exact find?_isSome.mpr ⟨p, hp, by simp [hbody]⟩
    | cons s ss =>
      obtain ⟨n, hn, hempty⟩ := head_of_derivesAll hG hts hbody hds
      rw [hG p hp n (by rw [hbody, hn]; rfl)] at hempty
      cases hempty

theorem head_of_derivesAll (hG : G.NoEmptyStart) {ss us : List (Symbol τ ν)} {s : Symbol τ ν}
    {ds : List (Derivation κ τ ν α)} {ts : List κ} (hts : ts = []) (hss : ss = s :: us) :
    G.DerivesAll ss ds ts → ∃ n, s = .nonterminal n ∧ (G.empty? n).isSome
  | .nil => nomatch hss
  | .cons hd _ => by
    cases hss
    exact empty?_of_derives hG (append_eq_nil_iff.mp hts).1 hd

end

/-- Only an empty body leads to no tokens. -/
theorem body_eq_nil_of_derivesAll (hG : G.NoEmptyStart) {p : Production τ ν α} (hp : p ∈ G.productions)
    {ds : List (Derivation κ τ ν α)} {ts : List κ} (hts : ts = []) (h : G.DerivesAll p.body ds ts) : p.body = [] := by
  cases hbody : p.body with
  | nil => rfl
  | cons s ss =>
    obtain ⟨n, hn, hempty⟩ := head_of_derivesAll hG hts hbody h
    rw [hG p hp n (by rw [hbody, hn]; rfl)] at hempty
    cases hempty

theorem score_of_derives_nil (hG : G.Orderly) {d : Derivation κ τ ν α} (hts : ts = []) (h : G.Derives s d ts) :
    d.score = 0 := by
  cases h with
  | leaf t => cases hts
  | @branch p ds _ hp hds =>
    have hbody := body_eq_nil_of_derivesAll hG.noEmptyStart hp hts hds
    rw [hbody] at hds
    cases hds
    rw [Derivation.score, hG.priority_empty p hp hbody]
    rfl

end

theorem rules_eq {r' : Rule τ ν α} (hr : r ∈ G.rules) (hr' : r' ∈ G.rules) (h : r.1 = r'.1) : r = r' := by
  have hnodup : (G.rules.map Prod.fst).Nodup := by
    rw [rules, map_fst_zip (by simp)]
    exact nodup_range
  exact inj_on_of_nodup_map hnodup hr hr' h

theorem exists_rule {p : Production τ ν α} (hp : p ∈ G.productions) : ∃ r ∈ G.rules, r.2 = p := by
  have : p ∈ G.rules.map Prod.snd := by rwa [rules, map_snd_zip (by simp)]
  obtain ⟨r, hr, rfl⟩ := mem_map.mp this
  exact ⟨r, hr, rfl⟩

/-! ## Tokens between columns -/

theorem between_split {vs : List κ} (hik : i ≤ k) (h : us ++ vs = between ts i k) :
    ∃ j, i ≤ j ∧ j ≤ k ∧ us = between ts i j ∧ vs = between ts j k := by
  have hlen : us.length ≤ k - i := by
    have := congrArg length h
    simp only [length_append, between, length_take, length_drop] at this
    omega
  refine ⟨i + us.length, by omega, by omega, ?_, ?_⟩
  · have := congrArg (take us.length) h
    rw [take_left, between, take_take, Nat.min_eq_left hlen] at this
    rw [between, Nat.add_sub_cancel_left]
    exact this
  · have := congrArg (drop us.length) h
    rw [drop_left, between, drop_take, drop_drop] at this
    rw [between, this]
    congr 1
    omega

theorem between_all (ts : List κ) : between ts 0 ts.length = ts := by simp [between]

theorem between_eq_nil (hik : i ≤ k) (hk : k ≤ ts.length) : between ts i k = [] ↔ i = k := by
  rw [← length_eq_zero_iff, between, length_take, length_drop]
  omega

theorem between_eq_singleton {t : κ} (hik : i ≤ k) (hk : k ≤ ts.length) (h : [t] = between ts i k) :
    k = i + 1 ∧ ts[i]? = some t := by
  have hlen := congrArg length h
  rw [between, length_take, length_drop, length_singleton] at hlen
  obtain rfl : k = i + 1 := by omega
  refine ⟨rfl, ?_⟩
  have := congrArg head? h
  rw [between, Nat.add_sub_cancel_left, head?_take, if_neg (by omega), head?_drop] at this
  exact this.symm

/-! ## Closed charts -/

/-- A column of a chart; there is nothing in columns that are not there yet. -/
def columnAt (columns : Array (Column κ τ ν α)) (k : Nat) : Column κ τ ν α := columns[k]?.getD {}

/-- The items that can be moved on from a column: those of the column, and those that begin there. -/
def live (columns : Array (Column κ τ ν α)) (k : Nat) : List (Item κ τ ν α) :=
  (columnAt columns k).items ++ (columnAt columns k).starts.map fun r => Item.begin r k

/-- The item is another one moved on so far that these symbols are left, and its score has grown by
at least `gain`. -/
structure Item.Continues (it jt : Item κ τ ν α) (rest : List (Symbol τ ν)) (gain : Nat) : Prop where
  rule : it.rule = jt.rule
  rest : it.rest = rest
  origin : it.origin = jt.origin
  score : jt.score + gain ≤ it.score

theorem Item.Continues.trans {jt kt : Item κ τ ν α} {rest' : List (Symbol τ ν)} {a b c : Nat}
    (h : it.Continues jt rest a) (h' : jt.Continues kt rest' b) (hc : c ≤ b + a) : it.Continues kt rest c :=
  ⟨h.rule.trans h'.rule, h.rest, h.origin.trans h'.origin, by have := h.score; have := h'.score; omega⟩

/-- Column `k` has all that follows from it and from the columns before. -/
structure ClosedAt [DecidableEq ν] (G : Grammar κ τ ν α) (ts : List κ)
    (columns : Array (Column κ τ ν α)) (k : Nat) : Prop where
  scanned : ∀ j t, k = j + 1 → ts[j]? = some t → ∀ w ∈ live columns j, ∀ rest,
    w.rest = .terminal (G.terminal t) :: rest →
    ∃ it ∈ (columnAt columns k).items, it.Continues w rest 0
  completed : ∀ jt ∈ (columnAt columns k).items, jt.rest = [] → jt.origin < k →
    ∀ w ∈ live columns jt.origin, ∀ rest, w.rest = .nonterminal jt.production.head :: rest →
    ∃ it ∈ (columnAt columns k).items, it.Continues w rest jt.result.2
  skipped : ∀ jt ∈ (columnAt columns k).items, ∀ n rest, jt.rest = .nonterminal n :: rest →
    (G.empty? n).isSome → ∃ it ∈ (columnAt columns k).items, it.Continues jt rest 0
  predicted : ∀ w ∈ live columns k, ∀ n rest, w.rest = .nonterminal n :: rest →
    ∀ r ∈ G.rules, r.2.head = n → r ∈ (columnAt columns k).starts

/-- A chart whose columns up to `m` are closed. -/
structure ClosedChart [DecidableEq ν] (G : Grammar κ τ ν α) (ts : List κ)
    (columns : Array (Column κ τ ν α)) (m : Nat) : Prop where
  sound : ColumnsSound G ts columns
  closed : ∀ k ≤ m, ClosedAt G ts columns k
  le_length : m ≤ ts.length

section

variable {G : Grammar κ τ ν α} {ts : List κ} {columns : Array (Column κ τ ν α)} {m : Nat}

theorem live_sound (hsound : ColumnsSound G ts columns) (hw : w ∈ live columns k) : w.Sound G ts k := by
  rcases mem_append.mp hw with hw | hw
  · exact (hsound k).items w hw
  · obtain ⟨r, hr, rfl⟩ := mem_map.mp hw
    exact begin_sound ((hsound k).starts r hr)

theorem mem_items_of_live (hw : w ∈ live columns k) (horigin : w.origin ≠ k) :
    w ∈ (columnAt columns k).items := by
  rcases mem_append.mp hw with hw | hw
  · exact hw
  · obtain ⟨r, -, rfl⟩ := mem_map.mp hw
    exact absurd rfl horigin

theorem begin_mem_live (hr : r ∈ (columnAt columns k).starts) : Item.begin r k ∈ live columns k :=
  mem_append_right _ (mem_map.mpr ⟨r, hr, rfl⟩)

variable [DecidableEq ν]

mutual

/-- **An item goes on** to the column to which its next symbol leads. -/
theorem goes_on (hG : G.Orderly) (h : ClosedChart G ts columns m) {s : Symbol τ ν}
    {d : Derivation κ τ ν α} {us : List κ} {l k : Nat} (hlk : l ≤ k) (hk : k ≤ m)
    (hus : us = between ts l k) {w : Item κ τ ν α} (hw : w ∈ live columns l)
    {rest : List (Symbol τ ν)} (hrest : w.rest = s :: rest) :
    G.Derives s d us → ∃ it ∈ live columns k, it.Continues w rest d.score
  | .leaf t => by
    obtain ⟨rfl, ht⟩ := between_eq_singleton hlk (Nat.le_trans hk h.le_length) hus
    obtain ⟨it, hit, hcontinues⟩ := (h.closed _ hk).scanned l t rfl ht w hw rest hrest
    exact ⟨it, mem_append_left _ hit, hcontinues⟩
  | .branch (p := p) hp hds => by
    rcases Nat.eq_or_lt_of_le hlk with rfl | hlt
    · -- the symbol is empty here, and what begins here does not begin with such a symbol
      rw [between_self] at hus
      obtain ⟨n, hn, hempty⟩ := empty?_of_derives hG.noEmptyStart hus (.branch hp hds)
      cases hn
      rw [score_of_derives_nil hG hus (.branch hp hds)]
      rcases mem_append.mp hw with hw | hw
      · obtain ⟨it, hit, hcontinues⟩ := (h.closed _ hk).skipped w hw _ rest hrest hempty
        exact ⟨it, mem_append_left _ hit, hcontinues⟩
      · obtain ⟨r, hr, rfl⟩ := mem_map.mp hw
        have hbody : r.2.body = .nonterminal p.head :: rest := hrest
        rw [hG.noEmptyStart r.2 (mem_productions ((h.sound l).starts r hr)) p.head
          (by rw [hbody]; rfl)] at hempty
        cases hempty
    · obtain ⟨r, hr, rfl⟩ := exists_rule hp
      have hbegin := begin_mem_live ((h.closed l (by omega)).predicted w hw _ rest hrest r hr rfl)
      obtain ⟨jt, hjt, hcontinues⟩ :=
        goes_through hG h hlk hk hus hbegin (append_nil _).symm hds
      have horigin : jt.origin = l := hcontinues.origin
      have hitems := mem_items_of_live hjt (by omega)
      have hhead : jt.production = r.2 :=
        congrArg Prod.snd (rules_eq (live_sound h.sound hjt).rule hr hcontinues.rule)
      obtain ⟨it, hit, hcontinues'⟩ := (h.closed k hk).completed jt hitems hcontinues.rest (by omega)
        w (by rw [horigin]; exact hw) rest (by rw [hhead]; exact hrest)
      have hscore := hcontinues.score
      have hgain := hcontinues'.score
      dsimp only [Item.begin] at hscore
      rw [Item.result, hhead] at hgain
      refine ⟨it, mem_append_left _ hit, hcontinues'.rule, hcontinues'.rest, hcontinues'.origin, ?_⟩
      rw [Derivation.score]
      omega

/-- **An item goes through** the columns to which its next symbols lead. -/
theorem goes_through (hG : G.Orderly) (h : ClosedChart G ts columns m)
    {ss : List (Symbol τ ν)} {ds : List (Derivation κ τ ν α)} {us : List κ} {l k : Nat}
    (hlk : l ≤ k) (hk : k ≤ m) (hus : us = between ts l k) {w : Item κ τ ν α}
    (hw : w ∈ live columns l) {rest : List (Symbol τ ν)} (hrest : w.rest = ss ++ rest) :
    G.DerivesAll ss ds us → ∃ it ∈ live columns k, it.Continues w rest (Derivation.scores ds)
  | .nil => by
    obtain rfl := (between_eq_nil hlk (Nat.le_trans hk h.le_length)).mp hus.symm
    exact ⟨w, hw, rfl, hrest, rfl, Nat.le_refl _⟩
  | .cons hd hds => by
    obtain ⟨j, hlj, hjk, hus, hvs⟩ := between_split hlk hus
    obtain ⟨it, hit, hcontinues⟩ := goes_on hG h hlj (Nat.le_trans hjk hk) hus hw hrest hd
    obtain ⟨jt, hjt, hcontinues'⟩ := goes_through hG h hjk hk hvs hit hcontinues.rest hds
    exact ⟨jt, hjt, hcontinues'.trans hcontinues (Nat.le_of_eq (by rw [Derivation.scores]))⟩

end

/-- Some item of column `m` waits for the token behind it. -/
def Waits (G : Grammar κ τ ν α) (ts : List κ) (columns : Array (Column κ τ ν α)) (m : Nat) : Prop :=
  ∃ it ∈ live columns m, ∃ t rest, ts[m]? = some t ∧ it.rest = .terminal (G.terminal t) :: rest

mutual

/-- Where the derivation of a symbol goes on, some item waits for the next token. -/
theorem waits (hG : G.Orderly) (h : ClosedChart G ts columns m) {s : Symbol τ ν}
    {d : Derivation κ τ ν α} {us : List κ} {l k : Nat} (hlm : l ≤ m) (hmk : m < k)
    (hk : k ≤ ts.length) (hus : us = between ts l k) {w : Item κ τ ν α} (hw : w ∈ live columns l)
    {rest : List (Symbol τ ν)} (hrest : w.rest = s :: rest) : G.Derives s d us → Waits G ts columns m
  | .leaf t => by
    obtain ⟨rfl, ht⟩ := between_eq_singleton (by omega) hk hus
    obtain rfl : m = l := by omega
    exact ⟨w, hw, t, rest, ht, hrest⟩
  | .branch hp hds => by
    obtain ⟨r, hr, rfl⟩ := exists_rule hp
    have hbegin := begin_mem_live ((h.closed l hlm).predicted w hw _ rest hrest r hr rfl)
    exact waits_through hG h hlm hmk hk hus hbegin (append_nil _).symm hds

theorem waits_through (hG : G.Orderly) (h : ClosedChart G ts columns m)
    {ss : List (Symbol τ ν)} {ds : List (Derivation κ τ ν α)} {us : List κ} {l k : Nat} (hlm : l ≤ m)
    (hmk : m < k) (hk : k ≤ ts.length) (hus : us = between ts l k) {w : Item κ τ ν α}
    (hw : w ∈ live columns l) {rest : List (Symbol τ ν)} (hrest : w.rest = ss ++ rest) :
    G.DerivesAll ss ds us → Waits G ts columns m
  | .nil => by
    have := (between_eq_nil (by omega) hk).mp hus.symm
    omega
  | .cons hd hds => by
    obtain ⟨j, hlj, hjk, hus, hvs⟩ := between_split (by omega) hus
    by_cases hjm : m < j
    · exact waits hG h hlm hjm (by omega) hus hw hrest hd
    · obtain ⟨it, hit, hcontinues⟩ := goes_on hG h hlj (by omega) hus hw hrest hd
      exact waits_through hG h (by omega) hmk hk hvs hit hcontinues.rest hds

end

end

/-! ## Items that are kept -/

section

variable {G : Grammar κ τ ν α} {ts : List κ} {k : Nat}
variable {items : List (Item κ τ ν α)} {it jt w : Item κ τ ν α} {finished : List (ν × Nat)} {x : ν × Nat}
  {rest : List (Symbol τ ν)}

theorem Item.rivals_iff : it.rivals jt ↔
      it.rule = jt.rule ∧ it.rest.length = jt.rest.length ∧ it.origin = jt.origin := by
  simp [Item.rivals, and_assoc]

/-- The items have this one or a rival of it with at least its score. -/
def Kept (items : List (Item κ τ ν α)) (it : Item κ τ ν α) : Prop :=
  ∃ jt ∈ items, it.rivals jt = true ∧ it.score ≤ jt.score

theorem kept_of_mem (h : it ∈ items) : Kept items it :=
  ⟨it, h, Item.rivals_iff.mpr ⟨rfl, rfl, rfl⟩, Nat.le_refl _⟩

theorem kept_insert_self (it : Item κ τ ν α) (items : List (Item κ τ ν α)) :
    Kept (insert it items) it := by
  fun_induction insert it items with
  | case1 | case2 => exact kept_of_mem (.head _)
  | case3 jt items hrivals hless => exact ⟨jt, .head _, hrivals, Nat.le_of_not_lt hless⟩
  | case4 jt items _ ih =>
    obtain ⟨kt, hkt, hrivals⟩ := ih
    exact ⟨kt, .tail _ hkt, hrivals⟩

theorem Kept.insert (h : Kept items jt) : Kept (insert it items) jt := by
  obtain ⟨kt, hkt, hrivals, hle⟩ := h
  fun_induction Grammar.insert it items with
  | case1 => cases hkt
  | case2 b items hb hless =>
    rcases mem_cons.mp hkt with rfl | hkt
    · refine ⟨it, .head _, ?_, by omega⟩
      rw [Item.rivals_iff] at hrivals hb ⊢
      omega
    · exact ⟨kt, .tail _ hkt, hrivals, hle⟩
  | case3 b items _ _ => exact ⟨kt, hkt, hrivals, hle⟩
  | case4 b items _ ih =>
    rcases mem_cons.mp hkt with rfl | hkt
    · exact ⟨kt, .head _, hrivals, hle⟩
    · obtain ⟨lt, hlt, hrivals⟩ := ih hkt
      exact ⟨lt, .tail _ hlt, hrivals⟩

theorem Kept.insertAll (h : Kept items jt)
    (its : List (Item κ τ ν α)) : Kept (insertAll its items) jt := by
  induction its generalizing items with
  | nil => exact h
  | cons it its ih => exact ih h.insert

theorem kept_insertAll_self {its : List (Item κ τ ν α)} (h : it ∈ its)
    (items : List (Item κ τ ν α)) : Kept (insertAll its items) it := by
  induction its generalizing items with
  | nil => cases h
  | cons jt its ih =>
    rcases mem_cons.mp h with rfl | h
    · exact (kept_insert_self it items).insertAll its
    · exact ih h _

theorem production_eq (hit : it.Sound G ts k) (hjt : jt.Sound G ts k)
    (h : it.rule = jt.rule) : it.production = jt.production :=
  congrArg Prod.snd (rules_eq hit.rule hjt.rule h)

/-- Sound rivals have the same symbols left. -/
theorem Kept.continues
    {gain : Nat} (h : Kept items it) (hcontinues : it.Continues w rest gain) (hit : it.Sound G ts k)
    (hitems : ∀ jt ∈ items, jt.Sound G ts k) : ∃ jt ∈ items, jt.Continues w rest gain := by
  obtain ⟨jt, hjt, hrivals, hle⟩ := h
  obtain ⟨hrule, hlength, horigin⟩ := Item.rivals_iff.mp hrivals
  obtain ⟨ss, hbody, -⟩ := hit.matched
  obtain ⟨ss', hbody', -⟩ := (hitems jt hjt).matched
  rw [production_eq hit (hitems jt hjt) hrule, hbody'] at hbody
  have hrest : jt.rest = it.rest := append_inj_right' hbody hlength.symm
  exact ⟨jt, hjt, hrule.symm.trans hcontinues.rule, hrest.trans hcontinues.rest,
    horigin.symm.trans hcontinues.origin, Nat.le_trans hcontinues.score hle⟩

variable [DecidableEq ν]

/-! ## Moving on -/

theorem mem_skipEmpties (w : Item κ τ ν α) (rest : List (Symbol τ ν))
    (done : List (Derivation κ τ ν α)) (score : Nat) :
    { w with rest := rest, done := done, score := score } ∈ skipEmpties G w rest done score := by
  unfold skipEmpties
  split <;> exact .head _

theorem advance_continues (h : w.rest = s :: rest) (d : Derivation κ τ ν α) (score : Nat) :
    ∃ it ∈ advance G w d score, it.Continues w rest score := by
  unfold advance
  rw [h]
  exact ⟨_, mem_skipEmpties w rest _ _, rfl, rfl, rfl, Nat.le_refl _⟩

theorem skippable_of_skipEmpties
    {done : List (Derivation κ τ ν α)} {score : Nat} (h : jt ∈ skipEmpties G w rest done score)
    (hrest : jt.rest = []) : G.Skippable rest := by
  fun_induction skipEmpties G w rest done score with
  | case1 n rest done score ih =>
    rcases mem_cons.mp h with rfl | h
    · cases hrest
    · split at h
      · next p hp => exact forall_mem_cons.mpr ⟨⟨n, rfl, by rw [hp]; rfl⟩, ih p h⟩
      · cases h
  | case2 rest done score _ =>
    rw [mem_singleton.mp h] at hrest
    rw [show rest = [] from hrest]
    exact nofun

/-- What waits for a symbol that can be empty has been moved on. -/
def SkipClosed (G : Grammar κ τ ν α) (items : List (Item κ τ ν α)) : Prop :=
  ∀ jt ∈ items, ∀ n rest, jt.rest = .nonterminal n :: rest → (G.empty? n).isSome →
    ∃ it ∈ items, it.Continues jt rest 0

theorem skipClosed_skipEmpties (w : Item κ τ ν α) (rest : List (Symbol τ ν))
    (done : List (Derivation κ τ ν α)) (score : Nat) :
    SkipClosed G (skipEmpties G w rest done score) := by
  fun_induction skipEmpties G w rest done score with
  | case1 n rest done score ih =>
    intro jt hjt m rest' hrest hempty
    cases hp : G.empty? n with
    | none =>
      rw [hp] at hjt
      obtain rfl := mem_singleton.mp hjt
      obtain ⟨hm, -⟩ := cons.inj hrest
      cases hm
      rw [hp] at hempty
      cases hempty
    | some p =>
      rw [hp] at hjt
      rcases mem_cons.mp hjt with rfl | hjt
      · cases hrest
        exact ⟨_, .tail _ (mem_skipEmpties w rest _ _), rfl, rfl, rfl, Nat.le_add_right _ _⟩
      · obtain ⟨it, hit, hcontinues⟩ := ih p jt hjt m rest' hrest hempty
        exact ⟨it, .tail _ hit, hcontinues⟩
  | case2 rest done score hother =>
    intro jt hjt m rest' hrest _
    obtain rfl := mem_singleton.mp hjt
    exact absurd hrest (hother m rest')

theorem skipClosed_advance (ws : List (Item κ τ ν α)) (d : Derivation κ τ ν α) (score : Nat) :
    SkipClosed G (ws.flatMap fun w => advance G w d score) := by
  intro jt hjt n rest hrest hempty
  obtain ⟨w, hw, hjt⟩ := mem_flatMap.mp hjt
  obtain ⟨it, hit, hcontinues⟩ : ∃ it ∈ advance G w d score, it.Continues jt rest 0 := by
    unfold advance at hjt ⊢
    split at hjt
    · cases hjt
    · exact skipClosed_skipEmpties w _ _ _ jt hjt n rest hrest hempty
  exact ⟨it, mem_flatMap.mpr ⟨w, hw, hit⟩, hcontinues⟩

theorem SkipClosed.insertAll {news : List (Item κ τ ν α)} (hnews : SkipClosed G news)
    (hitems : SkipClosed G items) (hsound : ∀ it ∈ news, it.Sound G ts k)
    (hsound' : ∀ it ∈ items, it.Sound G ts k) : SkipClosed G (insertAll news items) := by
  intro jt hjt n rest hrest hempty
  have hall : ∀ it ∈ Grammar.insertAll news items, it.Sound G ts k := fun it hit =>
    (mem_insertAll hit).elim (hsound it) (hsound' it)
  rcases mem_insertAll hjt with hjt | hjt
  · obtain ⟨it, hit, hcontinues⟩ := hnews jt hjt n rest hrest hempty
    exact (kept_insertAll_self hit items).continues hcontinues (hsound it hit) hall
  · obtain ⟨it, hit, hcontinues⟩ := hitems jt hjt n rest hrest hempty
    exact ((kept_of_mem hit).insertAll news).continues hcontinues (hsound' it hit) hall

/-! ## The order of completion -/

omit [DecidableEq ν] in
theorem sooner_iff {y : ν × Nat} :
    sooner G x y ↔ y.2 < x.2 ∨ x.2 = y.2 ∧ G.rank x.1 < G.rank y.1 := by
  simp [sooner]

theorem keepsBest_sooner (G : Grammar κ τ ν α) (finished : List (ν × Nat)) :
    KeepsBest (fun x y => ¬ sooner G y x)
      (fun it : Item κ τ ν α => if it.rest.isEmpty && ! finished.contains it.key then some it.key else none)
      fun best it =>
        let s := (it.production.head, it.origin)
        if it.rest.isEmpty && ! finished.contains s then
          match best with
          | none => some s
          | some b => if sooner G s b then some s else best
        else best where
  refl x := by rw [sooner_iff]; omega
  trans h h' := by rw [sooner_iff] at *; omega
  skip b it hit := by
    rw [ite_eq_right_iff] at hit
    exact if_neg fun hopen => nomatch hit hopen
  first it s hs := by
    split at hs
    · next hopen => exact (if_pos hopen).trans hs
    · cases hs
  next b it s hs := by
    split at hs
    · next hopen =>
      cases hs
      dsimp only
      rw [if_pos (show (it.rest.isEmpty && ! finished.contains (it.production.head, it.origin))
        from hopen)]
      split
      · next hsooner =>
        refine .inr ⟨rfl, ?_⟩
        rw [sooner_iff] at hsooner ⊢
        dsimp only [Item.key] at hsooner ⊢
        omega
      · next hlater => exact .inl ⟨rfl, hlater⟩
    · cases hs

theorem isOpen_iff :
    (it.rest.isEmpty && ! finished.contains it.key) ↔ it.rest = [] ∧ it.key ∉ finished := by
  simp

/-- Every completed symbol that is not finished is a candidate. -/
theorem finished_of_next?_none
    (h : next? G finished items = none) (hit : it ∈ items) (hrest : it.rest = []) :
    it.key ∈ finished := by
  by_contra hnot
  have hsome : (next? G finished items).isSome :=
    (keepsBest_sooner G finished).isSome_foldl (if_pos (isOpen_iff.mpr ⟨hrest, hnot⟩)) hit none
  rw [h] at hsome
  cases hsome

/-- A symbol that is to be completed is not finished, one of the items is complete for it, and no other
such symbol comes sooner. -/
theorem next?_some (h : next? G finished items = some x) :
    x ∉ finished ∧ (∃ it ∈ items, it.rest = [] ∧ it.key = x) ∧
      ∀ it ∈ items, it.rest = [] → it.key ∉ finished → ¬ sooner G it.key x := by
  obtain ⟨hfrom, -, hsooner⟩ := (keepsBest_sooner G finished).foldl h
  obtain ⟨it, hit, heq⟩ := hfrom.resolve_left nofun
  split at heq
  · next hopen =>
    obtain ⟨hrest, hnew⟩ := isOpen_iff.mp hopen
    cases heq
    exact ⟨hnew, ⟨it, hit, hrest, rfl⟩, fun jt hjt hrest hnew =>
      hsooner jt hjt jt.key (if_pos (isOpen_iff.mpr ⟨hrest, hnew⟩))⟩
  · cases heq

/-! ## Completion -/

/-- Every symbol that can be complete in a column, with the columns where it can begin. -/
def candidates (G : Grammar κ τ ν α) (k : Nat) : List (ν × Nat) :=
  (G.rules.map fun r => r.2.head) ×ˢ List.range (k + 1)

omit [DecidableEq ν] in
theorem length_candidates (G : Grammar κ τ ν α) (k : Nat) :
    (candidates G k).length = G.rules.length * (k + 1) := by
  rw [candidates, length_product, length_map, length_range]

omit [DecidableEq ν] in
theorem mem_candidates (h : it.Sound G ts k) : it.key ∈ candidates G k := by
  refine mem_product.mpr ⟨mem_map.mpr ⟨_, h.rule, rfl⟩, mem_range.mpr ?_⟩
  exact Nat.lt_succ_of_le h.origin_le

variable [DecidableEq τ]

theorem mem_waiting_iff {c : Column κ τ ν α} {j : Nat} : w ∈ waiting c j s ↔
      w ∈ c.items ++ (c.starts.map fun r => Item.begin r j) ∧ w.rest.head? = some s := by
  rw [waiting, mem_append, mem_append, mem_filter, decide_eq_true_eq, or_and_right]
  refine or_congr_right ?_
  constructor
  · intro h
    obtain ⟨r, hr, rfl⟩ := mem_map.mp h
    obtain ⟨hr, hhead⟩ := mem_filter.mp hr
    exact ⟨mem_map_of_mem hr, of_decide_eq_true hhead⟩
  · rintro ⟨h, hhead⟩
    obtain ⟨r, hr, rfl⟩ := mem_map.mp h
    exact mem_map_of_mem (mem_filter.mpr ⟨hr, decide_eq_true hhead⟩)

/-- What waits for a symbol where it began has been moved on, and has gained at least this score. -/
def Served (columns : Array (Column κ τ ν α)) (items : List (Item κ τ ν α)) (x : ν × Nat) (gain : Nat) :
    Prop :=
  ∀ w ∈ live columns x.2, ∀ rest, w.rest = .nonterminal x.1 :: rest →
    ∃ it ∈ items, it.Continues w rest gain

variable {columns : Array (Column κ τ ν α)}

theorem movedOn_served (hit : it ∈ items) (hrest : it.rest = []) :
    SkipClosed G (movedOn G columns items it.key) ∧
      Served columns (movedOn G columns items it.key) it.key it.result.2 := by
  obtain ⟨⟨d, score⟩, hbest⟩ := Option.isSome_iff_exists.mp (isSome_best? hit hrest)
  unfold movedOn
  rw [hbest]
  refine ⟨skipClosed_advance _ d score, fun w hw rest hwrest => ?_⟩
  obtain ⟨jt, hjt, hcontinues⟩ := advance_continues (G := G) hwrest d score
  have hwaiting : w ∈ waiting (columns[it.key.2]?.getD {}) it.key.2 (.nonterminal it.key.1) :=
    mem_waiting_iff.mpr ⟨hw, by rw [hwrest]; rfl⟩
  obtain ⟨bt, -, -, -, hresult, hbeats⟩ := best?_spec hbest
  have hle : it.result.2 ≤ score := by
    have := hbeats it hit hrest rfl
    rw [Item.Beats, hresult] at this
    omega
  exact ⟨jt, mem_flatMap.mpr ⟨w, hwaiting, hjt⟩, hcontinues.rule, hcontinues.rest,
    hcontinues.origin, by have := hcontinues.score; omega⟩

/-- What a completed symbol completes in turn comes later: it began further left, or consists of that
symbol and so has a greater rank. -/
theorem movedOn_later (hG : G.Orderly) (hcolumns : ColumnsSound G ts columns)
    (h : jt ∈ movedOn G columns items x) (hrest : jt.rest = []) : sooner G x jt.key := by
  obtain ⟨d, score, -, w, hw, hjt⟩ := movedOn_inv h
  obtain ⟨-, hproduction, horigin⟩ := advance_same hjt
  obtain ⟨hw, hhead⟩ := mem_waiting_iff.mp hw
  rw [sooner_iff, Item.key, hproduction, horigin]
  rcases mem_append.mp hw with hw | hw
  · exact .inl ((hcolumns x.2).begun w hw)
  · obtain ⟨r, hr, rfl⟩ := mem_map.mp hw
    obtain ⟨rest, hbody⟩ : ∃ rest, r.2.body = .nonterminal x.1 :: rest := head?_eq_some_iff.mp hhead
    unfold advance at hjt
    rw [show (Item.begin r x.2 : Item κ τ ν α).rest = _ from hbody] at hjt
    have hskip := skippable_of_skipEmpties hjt hrest
    exact .inr ⟨rfl, hG.rank_lt r.2 (mem_productions ((hcolumns x.2).starts r hr)) x.1 rest hbody hskip⟩

/-- The loop that completes has finished these symbols: what waits for them has been moved on, and no
other symbol comes sooner. -/
structure Completing (G : Grammar κ τ ν α) (ts : List κ) (columns : Array (Column κ τ ν α)) (k : Nat)
    (finished : List (ν × Nat)) (items : List (Item κ τ ν α)) : Prop where
  sound : ∀ it ∈ items, it.Sound G ts k
  skipped : SkipClosed G items
  served : ∀ it ∈ items, it.rest = [] → it.key ∈ finished → Served columns items it.key it.result.2
  ordered : ∀ it ∈ items, it.rest = [] → it.key ∉ finished → ∀ x ∈ finished, ¬ sooner G it.key x = true
  nodup : finished.Nodup
  candidate : finished ⊆ candidates G k

/-- The completion of a symbol adds no derivation of this symbol or of one that is finished. -/
theorem Completing.key_not_mem (hG : G.Orderly) (hcolumns : ColumnsSound G ts columns)
    (h : Completing G ts columns k finished items)
    (hnext : next? G finished items = some x)
    (hjt : jt ∈ movedOn G columns items x) (hrest : jt.rest = []) : jt.key ∉ x :: finished := by
  obtain ⟨hnew, ⟨it, hit, hitrest, rfl⟩, -⟩ := next?_some hnext
  have hlater := movedOn_later hG hcolumns hjt hrest
  intro hmem
  rcases mem_cons.mp hmem with heq | hmem
  · rw [heq, sooner_iff] at hlater
    omega
  · exact h.ordered it hit hitrest hnew jt.key hmem hlater

theorem Completing.step (hG : G.Orderly) (hcolumns : ColumnsSound G ts columns)
    (h : Completing G ts columns k finished items)
    (hnext : next? G finished items = some x) :
    Completing G ts columns k (x :: finished) (insertAll (movedOn G columns items x) items) := by
  have hold : ∀ jt ∈ movedOn G columns items x, jt.rest = [] → jt.key ∉ x :: finished :=
    fun _ => h.key_not_mem hG hcolumns hnext
  have hmoved : ∀ jt ∈ movedOn G columns items x, jt.Sound G ts k := fun jt hjt =>
    (mem_movedOn hcolumns h.sound hjt).1
  have hall : ∀ jt ∈ insertAll (movedOn G columns items x) items, jt.Sound G ts k := fun jt hjt =>
    (mem_insertAll hjt).elim (hmoved jt) (h.sound jt)
  obtain ⟨hnew, ⟨it, hit, hitrest, rfl⟩, hsoonest⟩ := next?_some hnext
  refine ⟨hall, (movedOn_served hit hitrest).1.insertAll h.skipped hmoved h.sound, ?_, ?_,
    nodup_cons.mpr ⟨hnew, h.nodup⟩,
    cons_subset.mpr ⟨mem_candidates (h.sound it hit), h.candidate⟩⟩
  · intro jt hjt hrest hmem w hw rest hwrest
    rcases mem_insertAll hjt with hjt | hjt
    · exact absurd hmem (hold jt hjt hrest)
    rcases mem_cons.mp hmem with heq | hmem
    · have hserved : Served columns (movedOn G columns items jt.key) jt.key jt.result.2 :=
        (movedOn_served hjt hrest).2
      rw [heq] at hserved hw hwrest
      obtain ⟨kt, hkt, hcontinues⟩ := hserved w hw rest hwrest
      exact (kept_insertAll_self hkt items).continues hcontinues (hmoved kt hkt) hall
    · obtain ⟨kt, hkt, hcontinues⟩ := h.served jt hjt hrest hmem w hw rest hwrest
      exact ((kept_of_mem hkt).insertAll _).continues hcontinues (h.sound kt hkt) hall
  · intro jt hjt hrest hmem y hy hsooner
    rw [mem_cons, not_or] at hmem
    have hbefore : y = it.key ∨ ¬ sooner G it.key y := (mem_cons.mp hy).imp_right fun hy =>
      h.ordered it hit hitrest hnew y hy
    rcases mem_insertAll hjt with hjt | hjt
    · have hlater := movedOn_later hG hcolumns hjt hrest
      rcases hbefore with rfl | hbefore
      · rw [sooner_iff] at *
        omega
      · rw [sooner_iff] at *
        omega
    · rcases mem_cons.mp hy with rfl | hy
      · exact hsoonest jt hjt hrest hmem.2 hsooner
      · exact h.ordered jt hjt hrest hmem.2 y hy hsooner

/-- **The loop that completes** ends with items that have all that follows from them: there are not more
symbols to complete than it has fuel. -/
theorem complete_spec (hG : G.Orderly) (hcolumns : ColumnsSound G ts columns)
    (h : Completing G ts columns k finished items) (hfuel : (candidates G k).length < finished.length + fuel) :
    (∀ it, Kept items it → Kept (complete G columns fuel finished items) it) ∧
      SkipClosed G (complete G columns fuel finished items) ∧
      ∀ jt ∈ complete G columns fuel finished items, jt.rest = [] →
        Served columns (complete G columns fuel finished items) jt.key jt.result.2 := by
  induction fuel generalizing finished items with
  | zero =>
    have := (h.nodup.subperm h.candidate).length_le
    omega
  | succ fuel ih =>
    rw [complete_succ]
    cases hnext : next? G finished items with
    | none =>
      exact ⟨fun _ hkept => hkept, h.skipped, fun jt hjt hrest =>
        h.served jt hjt hrest (finished_of_next?_none hnext hjt hrest)⟩
    | some x =>
      obtain ⟨hkept, hrest⟩ := ih (h.step hG hcolumns hnext) (by rw [length_cons]; omega)
      exact ⟨fun jt hjt => hkept jt (hjt.insertAll _), hrest⟩

end

/-! ## Prediction -/

section

variable [DecidableEq ν] {seen : List ν}

theorem length_corners_le (rules : List (Rule τ ν α)) (n : ν) :
    (corners rules n).length ≤ (rules.filter fun r => r.2.head = n).length := by
  unfold corners
  induction rules with
  | nil => exact Nat.le_refl 0
  | cons r rules ih =>
    by_cases hn : r.2.head = n
    · rw [filter_cons_of_pos (by simpa using hn), length_cons, filterMap_cons,
        if_pos hn]
      split
      · exact Nat.le_succ_of_le ih
      · exact Nat.succ_le_succ ih
    · rw [filter_cons_of_neg (by simpa using hn), filterMap_cons, if_neg hn]
      exact ih

theorem mem_corners {rules : List (Rule τ ν α)} (hr : r ∈ rules) {m : ν}
    (hbody : r.2.body = .nonterminal m :: rest) : m ∈ corners rules r.2.head :=
  mem_filterMap.mpr ⟨r, hr, by rw [if_pos rfl, hbody]⟩

/-- The rules of the nonterminals that were not looked at. -/
def unseen (rules : List (Rule τ ν α)) (seen : List ν) : List (Rule τ ν α) :=
  rules.filter fun r => r.2.head ∉ seen

theorem length_unseen_cons (rules : List (Rule τ ν α)) (hn : n ∉ seen) :
    (unseen rules (n :: seen)).length + (rules.filter fun r => r.2.head = n).length =
      (unseen rules seen).length := by
  unfold unseen
  induction rules with
  | nil => rfl
  | cons r rules ih =>
    by_cases hr : r.2.head = n
    · rw [filter_cons_of_neg (by simp [hr]), filter_cons_of_pos (by simpa using hr),
        filter_cons_of_pos (by simpa [hr] using hn), length_cons, length_cons, ← ih]
      omega
    · rw [filter_cons_of_neg (p := fun r : Rule τ ν α => decide (r.2.head = n)) (by simpa using hr)]
      by_cases hs : r.2.head ∈ seen
      · rw [filter_cons_of_neg (by simp [hs]), filter_cons_of_neg (by simp [hs])]
        exact ih
      · rw [filter_cons_of_pos (by simp [hs, hr]), filter_cons_of_pos (by simp [hs]),
          length_cons, length_cons, ← ih]
        omega

/-- **The walk that predicts** finds all that can begin where the given nonterminals can. -/
theorem predict_spec (rules : List (Rule τ ν α)) {todo : List ν}
    (hfuel : todo.length + (unseen rules seen).length < fuel)
    (hseen : ∀ n ∈ seen, ∀ m ∈ corners rules n, m ∈ seen ∨ m ∈ todo) :
    seen ⊆ predict rules fuel seen todo ∧ todo ⊆ predict rules fuel seen todo ∧
      ∀ n ∈ predict rules fuel seen todo, corners rules n ⊆ predict rules fuel seen todo := by
  fun_induction predict rules fuel seen todo with
  | case1 seen todo => omega
  | case2 fuel seen _ =>
    refine ⟨List.Subset.refl _, nofun, fun n hn m hm => ?_⟩
    exact (hseen n hn m hm).resolve_right nofun
  | case3 fuel seen n todo hmem ih =>
    have hmem : n ∈ seen := contains_iff_mem.mp hmem
    rw [length_cons] at hfuel
    obtain ⟨hkeep, htodo, hcorners⟩ := ih (by omega) fun m hm l hl => by
      rcases hseen m hm l hl with h | h
      · exact .inl h
      · rcases mem_cons.mp h with rfl | h
        · exact .inl hmem
        · exact .inr h
    exact ⟨hkeep, cons_subset.mpr ⟨hkeep hmem, htodo⟩, hcorners⟩
  | case4 fuel seen n todo hmem ih =>
    have hmem : n ∉ seen := fun h => hmem (contains_iff_mem.mpr h)
    have hcount := length_unseen_cons rules hmem
    have hle := length_corners_le rules n
    rw [length_cons] at hfuel
    obtain ⟨hkeep, htodo, hcorners⟩ := ih (by rw [length_append]; omega) fun m hm l hl => by
      rcases mem_cons.mp hm with rfl | hm
      · exact .inr (mem_append_left _ hl)
      · rcases hseen m hm l hl with h | h
        · exact .inl (.tail _ h)
        · rcases mem_cons.mp h with rfl | h
          · exact .inl (.head _)
          · exact .inr (mem_append_right _ h)
    refine ⟨fun m hm => hkeep (.tail _ hm), cons_subset.mpr ⟨hkeep (.head _), fun m hm => ?_⟩,
      hcorners⟩
    exact htodo (mem_append_right _ hm)

/-- What is expected may begin, and so may what that can begin with. -/
theorem startsFor_spec (rules : List (Rule τ ν α)) (expected : List ν) :
    (∀ r ∈ rules, r.2.head ∈ expected → r ∈ startsFor rules expected) ∧
      ∀ r ∈ startsFor rules expected, ∀ n rest, r.2.body = .nonterminal n :: rest →
        ∀ r' ∈ rules, r'.2.head = n → r' ∈ startsFor rules expected := by
  have hfuel : expected.length + (unseen rules []).length < expected.length + rules.length + 1 := by
    have := length_filter_le (fun r : Rule τ ν α => decide (r.2.head ∉ ([] : List ν))) rules
    unfold unseen
    omega
  obtain ⟨-, htodo, hcorners⟩ := predict_spec rules hfuel nofun
  unfold startsFor
  constructor
  · intro r hr hhead
    exact mem_filter.mpr ⟨hr, contains_iff_mem.mpr (htodo hhead)⟩
  · intro r hr n rest hbody r' hr' hhead
    obtain ⟨hr, hin⟩ := mem_filter.mp hr
    refine mem_filter.mpr ⟨hr', contains_iff_mem.mpr ?_⟩
    exact hcorners _ (contains_iff_mem.mp hin) (hhead ▸ mem_corners hr hbody)

end

/-! ## The parser -/

section

variable {G : Grammar κ τ ν α} {ts : List κ} {columns : Array (Column κ τ ν α)} {m : Nat}

theorem columnAt_push_lt (hj : j < columns.size) :
    columnAt (columns.push c) j = columnAt columns j := by
  rw [columnAt, columnAt, Array.getElem?_push_lt hj, Array.getElem?_eq_getElem hj]
variable {c : Column κ τ ν α} {rest : List (Symbol τ ν)} {items : List (Item κ τ ν α)} {j : Nat}
  {d : Derivation κ τ ν α} {t : κ}

theorem columnAt_push_size : columnAt (columns.push c) columns.size = c := by
  rw [columnAt, Array.getElem?_push_size]
  rfl

theorem live_push_lt (hj : j < columns.size) : live (columns.push c) j = live columns j := by
  rw [live, live, columnAt_push_lt hj]

variable [DecidableEq ν]

theorem ClosedAt.push (h : ClosedAt G ts columns j) (hj : j < columns.size)
    (c : Column κ τ ν α) : ClosedAt G ts (columns.push c) j where
  scanned i t hi ht w hw rest hrest := by
    rw [live_push_lt (by omega)] at hw
    rw [columnAt_push_lt hj]
    exact h.scanned i t hi ht w hw rest hrest
  completed jt hjt hdone horigin w hw rest hrest := by
    rw [columnAt_push_lt hj] at hjt
    rw [live_push_lt (by omega)] at hw
    rw [columnAt_push_lt hj]
    exact h.completed jt hjt hdone horigin w hw rest hrest
  skipped := by
    rw [columnAt_push_lt hj]
    exact h.skipped
  predicted := by
    rw [live_push_lt hj, columnAt_push_lt hj]
    exact h.predicted

omit [DecidableEq ν] in
theorem mem_expectedBy (hit : it ∈ items) (hrest : it.rest = .nonterminal n :: rest) : n ∈ expectedBy items :=
  mem_filterMap.mpr ⟨it, hit, by rw [hrest]⟩

/-- The nonterminals that a column waits for may begin there. -/
theorem predicted_of_startsFor {expected : List ν} (hexpected : ∀ n ∈ expectedBy items, n ∈ expected)
    (hw : w ∈ items ++ ((startsFor G.rules expected).map fun r => Item.begin r j))
    (hrest : w.rest = .nonterminal n :: rest) (hr : r ∈ G.rules) (hhead : r.2.head = n) :
    r ∈ startsFor G.rules expected := by
  obtain ⟨hfirst, hcorner⟩ := startsFor_spec G.rules expected
  rcases mem_append.mp hw with hw | hw
  · exact hfirst r hr (hexpected _ (hhead ▸ mem_expectedBy hw hrest))
  · obtain ⟨r', hr', rfl⟩ := mem_map.mp hw
    exact hcorner r' hr' n rest hrest r hr hhead

theorem closedAt_first (expected : List ν) :
    ClosedAt G ts #[{ starts := startsFor G.rules expected }] 0 where
  scanned j t hj := by omega
  completed jt hjt := nomatch hjt
  skipped jt hjt := nomatch hjt
  predicted w hw n rest hrest r hr hhead := by
    have hnone : ∀ n ∈ expectedBy ([] : List (Item κ τ ν α)), n ∈ expected := nofun
    exact predicted_of_startsFor hnone hw hrest hr hhead

variable [DecidableEq τ]

theorem mem_scanned (hsize : columns.size = m + 1) (hw : w ∈ live columns m)
    (hrest : w.rest = .terminal (G.terminal t) :: rest) (hit : it ∈ advance G w (.leaf t) 0) :
    it ∈ scanned G columns t := by
  unfold scanned
  rw [Array.back?, hsize, Nat.add_sub_cancel]
  exact mem_flatMap.mpr ⟨w, mem_waiting_iff.mpr ⟨hw, by rw [hrest]; rfl⟩, hit⟩

theorem completing_scanned (h : ColumnsSound G ts columns) (hsize : columns.size = m + 1)
    (ht : ts.drop m = t :: us) :
    Completing G ts columns (m + 1) [] (insertAll (scanned G columns t) []) where
  sound _ hit := (scanned_sound h hsize ht ((mem_insertAll hit).resolve_right not_mem_nil)).1
  skipped := (skipClosed_advance _ _ _).insertAll nofun (fun _ hit => (scanned_sound h hsize ht hit).1)
    nofun
  served _ _ _ hmem := nomatch hmem
  ordered _ _ _ _ _ hmem := nomatch hmem
  nodup := nodup_nil
  candidate := nofun

/-- **One more column** is closed, where the parser makes one. -/
theorem step?_closed (hG : G.Orderly) (h : ClosedChart G ts columns m) (hsize : columns.size = m + 1)
    (ht : ts[m]? = some t) (hc : step? G G.rules columns t = some c) :
    ClosedChart G ts (columns.push c) (m + 1) := by
  have hlt : m < ts.length := (List.getElem?_eq_some_iff.mp ht).1
  have hdrop : ts.drop m = t :: ts.drop (m + 1) := by
    rw [drop_eq_getElem_cons hlt, (List.getElem?_eq_some_iff.mp ht).2]
  have hcsound := step?_sound h.sound hsize hdrop hc
  refine ⟨columnsSound_push h.sound (hsize ▸ hcsound), fun k hk => ?_, hlt⟩
  rcases Nat.lt_or_ge k columns.size with hk' | hk'
  · exact (h.closed k (by omega)).push hk' c
  obtain rfl : k = m + 1 := by omega
  have hat : columnAt (columns.push c) (m + 1) = c := by rw [← hsize, columnAt_push_size]
  obtain ⟨hitems, hstarts⟩ := step?_some hc
  have hfuel : (candidates G (m + 1)).length <
      ([] : List (ν × Nat)).length + (G.rules.length * (columns.size + 1) + 1) := by
    rw [length_candidates, hsize]
    simp
  obtain ⟨hkept, hskip, hserved⟩ := complete_spec hG h.sound (completing_scanned h.sound hsize hdrop) hfuel
  rw [← hitems] at hkept hskip hserved
  constructor
  · intro j t' hj ht' w hw rest hrest
    obtain rfl : m = j := by omega
    obtain rfl : t = t' := Option.some.inj (ht.symm.trans ht')
    rw [live_push_lt (by omega)] at hw
    rw [hat]
    obtain ⟨it, hit, hcontinues⟩ := advance_continues (G := G) hrest (.leaf t) 0
    have hin := mem_scanned hsize hw hrest hit
    exact (hkept it (kept_insertAll_self hin [])).continues hcontinues
      (scanned_sound h.sound hsize hdrop hin).1 hcsound.items
  · intro jt hjt hdone horigin w hw rest hrest
    rw [hat] at hjt ⊢
    rw [live_push_lt (by omega)] at hw
    exact hserved jt hjt hdone w hw rest hrest
  · rw [hat]
    exact hskip
  · intro w hw n rest hrest r hr hhead
    rw [live, hat, hstarts] at hw
    rw [hat, hstarts]
    exact predicted_of_startsFor (fun _ hn => hn) hw hrest hr hhead

theorem step?_isSome (hsize : columns.size = m + 1) (ht : ts[m]? = some t)
    (h : Waits G ts columns m) : (step? G G.rules columns t).isSome := by
  obtain ⟨w, hw, t', rest, ht', hrest⟩ := h
  obtain rfl : t = t' := Option.some.inj (ht.symm.trans ht')
  obtain ⟨it, hit, -⟩ := advance_continues (G := G) hrest (.leaf t) 0
  have hin := mem_scanned hsize hw hrest hit
  unfold step?
  dsimp only
  rw [if_neg fun hempty => by
    rw [scanned, isEmpty_iff.mp hempty] at hin
    cases hin]
  rfl

/-- **The columns for a sentence** are made to the end, and they are closed. -/
theorem columnsFor_of_derives (hG : G.Orderly)
    (hd : G.Derives (.nonterminal G.start) d ts) {us : List κ} (hus : ts.drop m = us)
    (h : ClosedChart G ts columns m) (hsize : columns.size = m + 1)
    (hstart : ∀ r ∈ G.rules, r.2.head = G.start → r ∈ (columnAt columns 0).starts) :
    ∃ final, columnsFor G G.rules columns us = .ok final ∧ final.size = ts.length + 1 ∧
      ClosedChart G ts final ts.length ∧
      ∀ r ∈ G.rules, r.2.head = G.start → r ∈ (columnAt final 0).starts := by
  induction us generalizing columns m with
  | nil =>
    have hlen := drop_eq_nil_iff.mp hus
    obtain rfl : m = ts.length := Nat.le_antisymm h.le_length hlen
    exact ⟨columns, rfl, hsize, h, hstart⟩
  | cons t us ih =>
    have hlt : m < ts.length := by
      by_contra hge
      rw [drop_eq_nil_of_le (by omega)] at hus
      cases hus
    have ht : ts[m]? = some t := by
      have := congrArg head? hus
      rwa [head?_drop] at this
    have hwaits : Waits G ts columns m := by
      obtain ⟨p, ds, hp, hhead, -, hds⟩ := derives_nonterminal hd
      obtain ⟨r, hr, rfl⟩ := exists_rule hp
      exact waits_through hG h (Nat.zero_le m) hlt (Nat.le_refl _) (between_all ts).symm
        (begin_mem_live (hstart r hr hhead)) (append_nil _).symm hds
    obtain ⟨c, hc⟩ := Option.isSome_iff_exists.mp (step?_isSome hsize ht hwaits)
    rw [columnsFor, hc]
    refine ih (m := m + 1) ?_ (step?_closed hG h hsize ht hc) (by simp [hsize]) ?_
    · rw [← drop_drop, hus]
      rfl
    · rw [columnAt_push_lt (by omega)]
      exact hstart

theorem chart_of_derives (hG : G.Orderly) (hd : G.Derives (.nonterminal G.start) d ts) :
    ∃ final, columnsFor G G.rules (firstColumn G) ts = .ok final ∧ final.size = ts.length + 1 ∧
      ClosedChart G ts final ts.length ∧
      ∀ r ∈ G.rules, r.2.head = G.start → r ∈ (columnAt final 0).starts := by
  have hfirst : ClosedChart G ts (firstColumn G) 0 := by
    refine ⟨firstColumn_sound, fun k hk => ?_, Nat.zero_le _⟩
    obtain rfl := Nat.le_zero.mp hk
    exact closedAt_first _
  exact columnsFor_of_derives hG hd drop_zero hfirst rfl fun r hr hhead =>
    (startsFor_spec G.rules [G.start]).1 r hr (by simp [hhead])

end

end ArrowFree.Grammar
