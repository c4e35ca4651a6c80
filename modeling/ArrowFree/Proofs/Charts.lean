import Mathlib.Tactic.Common
import ArrowFree.Grammar.Chart

/-!
# Soundness of the chart parser

An item of a chart stands for derivations of the symbols that it has matched, over the tokens from
the column where it began to the column that holds it, and its score is the sum of their priorities.
Every item that the parser makes is sound in this sense (`Item.Sound`), because the items that follow
from sound ones by matching one more symbol are (`advance_sound`). So a derivation that the parser
returns derives the tokens from the start symbol (`derives_of_parse`).
-/

namespace ArrowFree

open List

namespace Derivation

variable {κ τ ν α : Type}

/-- The derivation is a part of another one. -/
inductive Within : Derivation κ τ ν α → Derivation κ τ ν α → Prop where
  | self (d : Derivation κ τ ν α) : Within d d
  | child {e d : Derivation κ τ ν α} {p : Production τ ν α} {ds : List (Derivation κ τ ν α)} :
      d ∈ ds → Within e d → Within e (.branch p ds)

mutual

/-- The sum of the priorities in a derivation. -/
def score : Derivation κ τ ν α → Nat
  | .leaf _ => 0
  | .branch p ds => scores ds + p.priority

/-- The sum of the priorities in some derivations. -/
def scores : List (Derivation κ τ ν α) → Nat
  | [] => 0
  | d :: ds => d.score + scores ds

end

theorem scores_append (ds es : List (Derivation κ τ ν α)) :
    scores (ds ++ es) = scores ds + scores es := by
  induction ds with
  | nil => exact (Nat.zero_add _).symm
  | cons d ds ih => rw [cons_append, scores, scores, ih, Nat.add_assoc]

theorem scores_reverse (ds : List (Derivation κ τ ν α)) : scores ds.reverse = scores ds := by
  induction ds with
  | nil => rfl
  | cons d ds ih =>
    rw [reverse_cons, scores_append, ih, scores, scores, scores]
    omega

end Derivation

namespace Grammar

variable {κ τ ν α : Type}
variable {ds : List (Derivation κ τ ν α)} {d : Derivation κ τ ν α} {ss : List (Symbol τ ν)}
  {items : List (Item κ τ ν α)} {G : Grammar κ τ ν α} {ts us : List κ} {s : Symbol τ ν} {j k : Nat}
  {t : κ} {jt : Item κ τ ν α}

/-! ## Derivations -/

theorem derives_terminal {a : τ} (h : G.Derives (.terminal a) d ts) :
    ∃ t, G.terminal t = a ∧ d = .leaf t ∧ ts = [t] := by
  generalize hs : Symbol.terminal a = s at h
  cases h with
  | leaf t => exact ⟨t, (Symbol.terminal.inj hs).symm, rfl, rfl⟩
  | branch _ _ => cases hs

theorem derives_nonterminal {n : ν} (h : G.Derives (.nonterminal n) d ts) :
    ∃ p ds, p ∈ G.productions ∧ p.head = n ∧
      d = .branch p ds ∧ G.DerivesAll p.body ds ts := by
  generalize hs : Symbol.nonterminal n = s at h
  cases h with
  | leaf t => cases hs
  | branch hp hds => exact ⟨_, _, hp, (Symbol.nonterminal.inj hs).symm, rfl, hds⟩

theorem derivesAll_append {us : List (Symbol τ ν)} {es : List (Derivation κ τ ν α)} {vs : List κ}
    (h : G.DerivesAll ss ds ts) (h' : G.DerivesAll us es vs) :
    G.DerivesAll (ss ++ us) (ds ++ es) (ts ++ vs) := by
  induction ss generalizing ds ts with
  | nil =>
    cases h
    exact h'
  | cons s ss ih =>
    cases h with
    | cons hd hds =>
      rw [append_assoc]
      exact .cons hd (ih hds)

theorem derivesAll_concat (h : G.DerivesAll ss ds ts) (hd : G.Derives s d us) :
    G.DerivesAll (ss ++ [s]) (ds ++ [d]) (ts ++ us) := by
  have hone : G.DerivesAll [s] [d] us := by simpa using DerivesAll.cons hd .nil
  exact derivesAll_append h hone

theorem derivesAll_split {us : List (Symbol τ ν)} (h : G.DerivesAll (ss ++ us) ds ts) :
    ∃ ds₁ ds₂ ts₁ ts₂, ds = ds₁ ++ ds₂ ∧ ts = ts₁ ++ ts₂ ∧ G.DerivesAll ss ds₁ ts₁ ∧
      G.DerivesAll us ds₂ ts₂ := by
  induction ss generalizing ds ts with
  | nil => exact ⟨[], ds, [], ts, rfl, rfl, .nil, h⟩
  | cons s ss ih =>
    cases h with
    | cons hd hds =>
      obtain ⟨ds₁, ds₂, ts₁, ts₂, rfl, rfl, h₁, h₂⟩ := ih hds
      exact ⟨_ :: ds₁, ds₂, _ ++ ts₁, ts₂, rfl, (append_assoc ..).symm, .cons hd h₁, h₂⟩

/-! ## Tokens between columns -/

/-- The tokens from one column to another. -/
def between (ts : List κ) (i k : Nat) : List κ := (ts.drop i).take (k - i)

theorem between_self (ts : List κ) (k : Nat) : between ts k k = [] := by
  rw [between, Nat.sub_self, take_zero]

theorem between_append {i : Nat} (hij : i ≤ j) (hjk : j ≤ k) :
    between ts i j ++ between ts j k = between ts i k := by
  rw [between, between, between, show k - i = (j - i) + (k - j) by omega, take_add,
    drop_drop, show i + (j - i) = j by omega]

theorem between_succ (h : ts.drop k = t :: us) : between ts k (k + 1) = [t] := by
  rw [between, h, Nat.add_sub_cancel_left]
  rfl

/-! ## Sound items -/

/-- An item of column `k` has matched the first symbols of its production between the column where
it began and this one. -/
structure Item.Sound (G : Grammar κ τ ν α) (ts : List κ) (k : Nat) (it : Item κ τ ν α) : Prop where
  rule : (it.rule, it.production) ∈ G.rules
  origin_le : it.origin ≤ k
  matched : ∃ ss, it.production.body = ss ++ it.rest ∧
    G.DerivesAll ss it.done.reverse (between ts it.origin k)
  score : it.score = Derivation.scores it.done

/-- All items of a column are sound and began before it, and what may begin there are rules of the
grammar. -/
structure Column.Sound (G : Grammar κ τ ν α) (ts : List κ) (k : Nat) (c : Column κ τ ν α) : Prop where
  items : ∀ it ∈ c.items, it.Sound G ts k
  begun : ∀ it ∈ c.items, it.origin < k
  starts : ∀ r ∈ c.starts, r ∈ G.rules

/-- The columns up to some place among the tokens are sound. -/
def ColumnsSound (G : Grammar κ τ ν α) (ts : List κ) (columns : Array (Column κ τ ν α)) : Prop :=
  ∀ k, Column.Sound G ts k (columns[k]?.getD {})

variable {G : Grammar κ τ ν α} {ts : List κ} {k : Nat}

theorem mem_productions {r : Rule τ ν α} (h : r ∈ G.rules) : r.2 ∈ G.productions :=
  (of_mem_zip h).2

theorem begin_sound {r : Rule τ ν α} (h : r ∈ G.rules) :
    (Item.begin r k : Item κ τ ν α).Sound G ts k where
  rule := h
  origin_le := Nat.le_refl k
  matched := ⟨[], rfl, by rw [Item.begin, between_self]; exact .nil⟩
  score := rfl

/-- A step of a fold that keeps the best of the candidates that it has met. -/
structure KeepsBest {β γ : Type} (r : β → β → Prop) (g : γ → Option β) (f : Option β → γ → Option β) :
    Prop where
  refl : ∀ b, r b b
  trans : ∀ {a b c}, r a b → r b c → r a c
  skip : ∀ b x, g x = none → f b x = b
  first : ∀ x s, g x = some s → f none x = some s
  next : ∀ b x s, g x = some s → f (some b) x = some b ∧ r b s ∨ f (some b) x = some s ∧ r s b

namespace KeepsBest

variable {β γ : Type} {r : β → β → Prop} {g : γ → Option β} {f : Option β → γ → Option β}

theorem foldl (h : KeepsBest r g f) {xs : List γ} {b : Option β} {y : β}
    (hy : xs.foldl f b = some y) :
    (b = some y ∨ ∃ x ∈ xs, g x = some y) ∧ (∀ a, b = some a → r y a) ∧
      ∀ x ∈ xs, ∀ s, g x = some s → r y s := by
  induction xs generalizing b with
  | nil => exact ⟨.inl hy, fun a ha => Option.some.inj (ha.symm.trans hy) ▸ h.refl a, nofun⟩
  | cons x xs ih =>
    obtain ⟨hfrom, hbefore, hall⟩ := ih hy
    cases hg : g x with
    | none =>
      rw [h.skip b x hg] at hfrom hbefore
      grind
    | some s =>
      cases b with
      | none =>
        rw [h.first x s hg] at hfrom hbefore
        grind
      | some a =>
        rcases h.next a x s hg with ⟨hkeep, hr⟩ | ⟨hkeep, hr⟩
        · rw [hkeep] at hfrom hbefore
          have := h.trans (hbefore a rfl) hr
          grind
        · rw [hkeep] at hfrom hbefore
          have := h.trans (hbefore s rfl) hr
          grind

theorem isSome_foldl (h : KeepsBest r g f) {x : γ} {s : β} (hs : g x = some s) {xs : List γ}
    (hx : x ∈ xs) (b : Option β) : (xs.foldl f b).isSome := by
  have hkeep (b : Option β) (x : γ) (hb : b.isSome ∨ (g x).isSome) : (f b x).isSome := by
    cases hg : g x with
    | none => rw [h.skip b x hg]; simpa [hg] using hb
    | some s =>
      cases b with
      | none => rw [h.first x s hg]; rfl
      | some a => rcases h.next a x s hg with ⟨he, -⟩ | ⟨he, -⟩ <;> rw [he] <;> rfl
  have hrest : ∀ ys b, Option.isSome b → (List.foldl f b ys).isSome := by
    intro ys
    induction ys with
    | nil => exact fun _ hb => hb
    | cons y ys ih => exact fun b hb => ih _ (hkeep b y (.inl hb))
  obtain ⟨pre, post, rfl⟩ := append_of_mem hx
  rw [foldl_append, foldl_cons]
  exact hrest post _ (hkeep _ x (.inr (by rw [hs]; rfl)))

end KeepsBest

theorem mem_insert {it : Item κ τ ν α} (h : jt ∈ insert it items) : jt = it ∨ jt ∈ items := by
  fun_induction insert it items with
  | case1 => exact .inl (mem_singleton.mp h)
  | case2 b items _ _ => grind
  | case3 b items _ _ => exact .inr h
  | case4 b items _ ih => grind

theorem mem_insertAll {its : List (Item κ τ ν α)} (h : jt ∈ insertAll its items) : jt ∈ its ∨ jt ∈ items := by
  induction its generalizing items with
  | nil => exact .inr h
  | cons it its ih =>
    rcases ih h with h | h
    · exact .inl (.tail _ h)
    · rcases mem_insert h with rfl | h
      · exact .inl (.head _)
      · exact .inr h

theorem columnsSound_push {columns : Array (Column κ τ ν α)} {c : Column κ τ ν α}
    (h : ColumnsSound G ts columns) (hc : c.Sound G ts columns.size) :
    ColumnsSound G ts (columns.push c) := by
  intro k
  rw [Array.getElem?_push]
  split
  · next hk => exact hk ▸ hc
  · exact h k

section

variable [DecidableEq ν]
variable {columns : Array (Column κ τ ν α)} {it jt : Item κ τ ν α} {items : List (Item κ τ ν α)}
  {d : Derivation κ τ ν α} {score origin : Nat} {c : Column κ τ ν α} {done : List (Derivation κ τ ν α)} {x : ν × Nat}
  {us : List κ} {rest : List (Symbol τ ν)} {n : ν}

theorem empty?_spec {p : Production τ ν α} (h : G.empty? n = some p) :
    G.Derives (.nonterminal n) (.branch p []) [] := by
  have hp := find?_some h
  simp only [Bool.and_eq_true, decide_eq_true_eq, List.isEmpty_iff] at hp
  have hall : G.DerivesAll p.body [] [] := by rw [hp.2]; exact .nil
  exact hp.1 ▸ .branch (mem_of_find?_eq_some h) hall

theorem skipEmpties_sound
    (h : Item.Sound G ts k { it with rest := rest, done := done, score := score }) :
    ∀ jt ∈ skipEmpties G it rest done score, jt.Sound G ts k := by
  fun_induction skipEmpties G it rest done score with
  | case1 n rest done score ih =>
    refine forall_mem_cons.mpr ⟨h, ?_⟩
    split
    · next p hp =>
      obtain ⟨ss, hbody, hds⟩ := h.matched
      have hscore : score = Derivation.scores done := h.score
      refine ih p ⟨h.rule, h.origin_le, ⟨ss ++ [.nonterminal n], ?_, ?_⟩, ?_⟩
      · simpa using hbody
      · simpa using derivesAll_concat hds (empty?_spec hp)
      · simp only [Derivation.scores, Derivation.score]
        omega
    · exact nofun
  | case2 rest done score hrest => exact forall_mem_singleton.mpr h

/-- What follows from a sound item of column `j`, when its next symbol leads to the tokens between
`j` and `k`. -/
theorem advance_sound (h : it.Sound G ts j) (hjk : j ≤ k) (hs : it.rest.head? = some s)
    (hd : G.Derives s d (between ts j k)) (hscore : score = d.score) :
    ∀ jt ∈ advance G it d score, jt.Sound G ts k := by
  obtain ⟨ss, hbody, hds⟩ := h.matched
  unfold advance
  split
  · exact nofun
  · next rest hrest =>
    rw [hrest] at hs
    cases hs
    refine skipEmpties_sound ⟨h.rule, Nat.le_trans h.origin_le hjk, ⟨ss ++ [s], ?_, ?_⟩, ?_⟩
    · simpa [hrest] using hbody
    · have := derivesAll_concat hds hd
      rw [between_append h.origin_le hjk] at this
      simpa using this
    · simp only [Derivation.scores, h.score, hscore]
      omega

theorem skipEmpties_same (h : jt ∈ skipEmpties G it rest done score) :
    jt.rule = it.rule ∧ jt.production = it.production ∧ jt.origin = it.origin := by
  fun_induction skipEmpties G it rest done score with
  | case1 n rest done score ih =>
    rcases mem_cons.mp h with rfl | h
    · exact ⟨rfl, rfl, rfl⟩
    · split at h
      · exact ih _ h
      · cases h
  | case2 rest done score hrest =>
    rw [mem_singleton.mp h]
    exact ⟨rfl, rfl, rfl⟩

theorem advance_same (h : jt ∈ advance G it d score) :
    jt.rule = it.rule ∧ jt.production = it.production ∧ jt.origin = it.origin := by
  unfold advance at h
  split at h
  · cases h
  · exact skipEmpties_same h

/-- What a completed item completes, and where it began. -/
def Item.key (it : Item κ τ ν α) : ν × Nat := (it.production.head, it.origin)

/-- The item has the greater score, or the same score and a production that is not listed later. -/
def Item.Beats (it jt : Item κ τ ν α) : Prop :=
  jt.result.2 < it.result.2 ∨ jt.result.2 = it.result.2 ∧ it.rule ≤ jt.rule

omit [DecidableEq ν] in
theorem keepsBest_beats : KeepsBest Item.Beats some
    fun (best : Option (Item κ τ ν α)) (it : Item κ τ ν α) =>
      match best with
      | none => some it
      | some b =>
        if b.result.2 < it.result.2 || (b.result.2 = it.result.2 && it.rule < b.rule) then some it
        else best where
  refl _ := .inr ⟨rfl, Nat.le_refl _⟩
  trans h h' := by unfold Item.Beats at *; omega
  skip _ _ h := nomatch h
  first _ _ h := h
  next b x s hs := by
    cases hs
    dsimp only
    split
    · next hbetter =>
      simp only [Bool.or_eq_true, Bool.and_eq_true, decide_eq_true_eq] at hbetter
      exact .inr ⟨rfl, by unfold Item.Beats; omega⟩
    · next hworse =>
      simp only [Bool.or_eq_true, Bool.and_eq_true, decide_eq_true_eq] at hworse
      exact .inl ⟨rfl, by unfold Item.Beats; omega⟩

theorem isCompleted_iff : (it.rest.isEmpty && it.production.head = n && it.origin = origin) ↔
      it.rest = [] ∧ it.key = (n, origin) := by
  simp [Item.key, and_assoc]

theorem mem_completed :
    it ∈ (items.filter fun it => it.rest.isEmpty && it.production.head = n && it.origin = origin) ↔
      it ∈ items ∧ it.rest = [] ∧ it.key = (n, origin) := by
  rw [mem_filter, isCompleted_iff]

/-- The best derivation is that of a completed item that beats all others. -/
theorem best?_spec {y : Derivation κ τ ν α × Nat} (h : best? items x.1 x.2 = some y) :
    ∃ it ∈ items, it.rest = [] ∧ it.key = x ∧ it.result = y ∧
      ∀ jt ∈ items, jt.rest = [] → jt.key = x → it.Beats jt := by
  obtain ⟨it, hit, rfl⟩ := Option.map_eq_some_iff.mp h
  obtain ⟨hfrom, -, hbeats⟩ := keepsBest_beats.foldl hit
  obtain ⟨_, hmem, heq⟩ := hfrom.resolve_left nofun
  cases heq
  obtain ⟨hmem, hrest, hkey⟩ := mem_completed.mp hmem
  exact ⟨_, hmem, hrest, hkey, rfl, fun jt hjt hrest hkey =>
    hbeats jt (mem_completed.mpr ⟨hjt, hrest, hkey⟩) jt rfl⟩

theorem isSome_best? (hit : it ∈ items)
    (hrest : it.rest = []) : (best? items it.key.1 it.key.2).isSome := by
  unfold best?
  rw [Option.isSome_map]
  exact keepsBest_beats.isSome_foldl rfl (mem_completed.mpr ⟨hit, hrest, rfl⟩) none

omit [DecidableEq ν] in
theorem Item.Sound.result (h : it.Sound G ts k) (hrest : it.rest = []) :
    G.Derives (.nonterminal it.production.head) it.result.1 (between ts it.origin k) ∧
      it.result.2 = it.result.1.score := by
  obtain ⟨ss, hbody, hds⟩ := h.matched
  rw [hrest, append_nil] at hbody
  refine ⟨.branch (mem_productions h.rule) (hbody ▸ hds), ?_⟩
  rw [Item.result, Derivation.score, Derivation.scores_reverse, h.score]

/-- A symbol that is complete in a column leads to the tokens since the column where it began. -/
theorem best?_sound (hitems : ∀ it ∈ items, it.Sound G ts k) (h : best? items n origin = some (d, score)) :
    origin ≤ k ∧ G.Derives (.nonterminal n) d (between ts origin k) ∧ score = d.score := by
  obtain ⟨it, hit, hrest, hkey, hresult, -⟩ := best?_spec (x := (n, origin)) h
  obtain ⟨hderives, hscore⟩ := (hitems it hit).result hrest
  cases hkey
  rw [hresult] at hderives hscore
  exact ⟨(hitems it hit).origin_le, hderives, hscore⟩

theorem mem_startsFor {expected : List ν} {r : Rule τ ν α} (h : r ∈ startsFor G.rules expected) :
    r ∈ G.rules :=
  (mem_filter.mp h).1

variable [DecidableEq τ]

theorem mem_waiting (hc : c.Sound G ts k) (h : it ∈ waiting c k s) :
    it.Sound G ts k ∧ it.rest.head? = some s := by
  rcases mem_append.mp h with h | h
  · have := mem_filter.mp h
    exact ⟨hc.items it this.1, of_decide_eq_true this.2⟩
  · obtain ⟨r, hr, rfl⟩ := mem_map.mp h
    have := mem_filter.mp hr
    exact ⟨begin_sound (hc.starts r this.1), of_decide_eq_true this.2⟩

/-! ## The parser -/

/-- The items that follow from the completion of a symbol. -/
def movedOn (G : Grammar κ τ ν α) (columns : Array (Column κ τ ν α)) (items : List (Item κ τ ν α))
    (x : ν × Nat) : List (Item κ τ ν α) :=
  match best? items x.1 x.2 with
  | none => []
  | some (d, score) =>
    (waiting (columns[x.2]?.getD {}) x.2 (.nonterminal x.1)).flatMap fun it => advance G it d score

/-- The items that follow when one more token is read. -/
def scanned (G : Grammar κ τ ν α) (columns : Array (Column κ τ ν α)) (t : κ) : List (Item κ τ ν α) :=
  (waiting (columns.back?.getD {}) (columns.size - 1) (.terminal (G.terminal t))).flatMap fun it =>
    advance G it (.leaf t) 0

theorem complete_succ (columns : Array (Column κ τ ν α)) (fuel : Nat) (finished : List (ν × Nat))
    (items : List (Item κ τ ν α)) :
    complete G columns (fuel + 1) finished items =
      match next? G finished items with
      | none => items
      | some x =>
        complete G columns fuel (x :: finished) (insertAll (movedOn G columns items x) items) := by
  rw [complete]
  cases next? G finished items <;> rfl

theorem movedOn_inv (h : jt ∈ movedOn G columns items x) :
    ∃ d score, best? items x.1 x.2 = some (d, score) ∧
      ∃ w ∈ waiting (columns[x.2]?.getD {}) x.2 (.nonterminal x.1), jt ∈ advance G w d score := by
  unfold movedOn at h
  split at h
  · cases h
  · next d score hbest => exact ⟨d, score, hbest, mem_flatMap.mp h⟩

theorem mem_movedOn (hcolumns : ColumnsSound G ts columns) (hitems : ∀ it ∈ items, it.Sound G ts k)
    (h : jt ∈ movedOn G columns items x) :
    jt.Sound G ts k ∧ ∃ it ∈ items, jt.origin ≤ it.origin := by
  obtain ⟨d, score, hbest, w, hw, hjt⟩ := movedOn_inv h
  obtain ⟨hle, hd, hscore⟩ := best?_sound hitems hbest
  obtain ⟨hw, hhead⟩ := mem_waiting (hcolumns x.2) hw
  obtain ⟨it, hit, -, rfl, -⟩ := best?_spec hbest
  exact ⟨advance_sound hw hle hhead hd hscore jt hjt, it, hit, (advance_same hjt).2.2 ▸ hw.origin_le⟩

theorem complete_sound (hcolumns : ColumnsSound G ts columns)
    {fuel : Nat} {finished : List (ν × Nat)}
    (h : ∀ it ∈ items, it.Sound G ts k ∧ it.origin < k) :
    ∀ it ∈ complete G columns fuel finished items, it.Sound G ts k ∧ it.origin < k := by
  induction fuel generalizing finished items with
  | zero => exact h
  | succ fuel ih =>
    rw [complete_succ]
    split
    · exact h
    · refine ih fun it hit => ?_
      rcases mem_insertAll hit with hit | hit
      · obtain ⟨hsound, jt, hjt, hle⟩ := mem_movedOn hcolumns (fun jt hjt => (h jt hjt).1) hit
        exact ⟨hsound, Nat.lt_of_le_of_lt hle (h jt hjt).2⟩
      · exact h it hit

theorem scanned_sound (hcolumns : ColumnsSound G ts columns) (hsize : columns.size = k + 1)
    (ht : ts.drop k = t :: us) (h : it ∈ scanned G columns t) :
    it.Sound G ts (k + 1) ∧ it.origin < k + 1 := by
  obtain ⟨w, hw, hit⟩ := mem_flatMap.mp h
  rw [Array.back?, hsize, Nat.add_sub_cancel] at hw
  obtain ⟨hw, hhead⟩ := mem_waiting (hcolumns k) hw
  refine ⟨advance_sound hw (Nat.le_succ k) hhead ?_ rfl it hit, ?_⟩
  · rw [between_succ ht]
    exact .leaf t
  · rw [(advance_same hit).2.2]
    exact Nat.lt_succ_of_le hw.origin_le

theorem step?_some (h : step? G G.rules columns t = some c) :
    c.items = complete G columns (G.rules.length * (columns.size + 1) + 1) []
        (insertAll (scanned G columns t) []) ∧
      c.starts = startsFor G.rules (expectedBy c.items) := by
  unfold step? at h
  dsimp only at h
  split at h
  · cases h
  · cases h
    exact ⟨rfl, rfl⟩

theorem step?_sound (hcolumns : ColumnsSound G ts columns) (hsize : columns.size = k + 1)
    (ht : ts.drop k = t :: us) (h : step? G G.rules columns t = some c) : c.Sound G ts (k + 1) := by
  obtain ⟨hitems, hstarts⟩ := step?_some h
  have hfirst : ∀ it ∈ insertAll (scanned G columns t) [],
      it.Sound G ts (k + 1) ∧ it.origin < k + 1 := fun it hit =>
    scanned_sound hcolumns hsize ht ((mem_insertAll hit).resolve_right not_mem_nil)
  refine ⟨fun it hit => ?_, fun it hit => ?_, fun r hr => mem_startsFor (hstarts ▸ hr)⟩
  · exact (complete_sound hcolumns hfirst it (hitems ▸ hit)).1
  · exact (complete_sound hcolumns hfirst it (hitems ▸ hit)).2

theorem columnsFor_sound {final : Array (Column κ τ ν α)} {ps : List κ}
    (hcolumns : ColumnsSound G (ps ++ us) columns) (hsize : columns.size = ps.length + 1)
    (h : columnsFor G G.rules columns us = .ok final) :
    ColumnsSound G (ps ++ us) final ∧ final.size = (ps ++ us).length + 1 := by
  induction us generalizing columns ps with
  | nil =>
    cases h
    exact ⟨hcolumns, by rw [append_nil, hsize]⟩
  | cons t us ih =>
    rw [columnsFor] at h
    split at h
    · exact nomatch h
    · next c hc =>
      have hsound := step?_sound hcolumns hsize drop_left hc
      have := @ih (columns.push c) (ps ++ [t])
      rw [append_assoc, singleton_append] at this
      exact this (columnsSound_push hcolumns (hsize ▸ hsound)) (by simp [hsize]) h

/-- The first column holds what may begin a sentence. -/
def firstColumn (G : Grammar κ τ ν α) : Array (Column κ τ ν α) :=
  #[{ starts := startsFor G.rules [G.start] }]

omit [DecidableEq τ] in
theorem firstColumn_sound : ColumnsSound G ts (firstColumn G) := by
  have hnone : ColumnsSound G ts #[] := fun k => ⟨nofun, nofun, nofun⟩
  exact columnsSound_push hnone ⟨nofun, nofun, fun r hr => mem_startsFor hr⟩

/-- What the parser returns is the best derivation of the last column, or an empty production. -/
theorem parse_eq_ok (h : G.parse ts = .ok d) :
    ∃ columns, columnsFor G G.rules (firstColumn G) ts = .ok columns ∧
      (ts = [] ∧ (∃ p, G.empty? G.start = some p ∧ d = .branch p []) ∨
        ∃ score, best? (columns.back?.getD {}).items G.start 0 = some (d, score)) := by
  unfold parse at h
  dsimp only at h
  split at h
  · cases h
  · next columns hcolumns =>
    refine ⟨columns, hcolumns, ?_⟩
    split at h
    · next e he =>
      cases h
      split at he
      · next hempty =>
        obtain ⟨p, hp, rfl⟩ := Option.map_eq_some_iff.mp he
        exact .inl ⟨isEmpty_iff.mp hempty, p, hp, rfl⟩
      · obtain ⟨⟨e, score⟩, hbest, rfl⟩ := Option.map_eq_some_iff.mp he
        exact .inr ⟨score, hbest⟩
    · cases h

theorem derives_of_parse (h : G.parse ts = .ok d) : G.Derives (.nonterminal G.start) d ts := by
  obtain ⟨columns, hcolumns, ⟨rfl, p, hp, rfl⟩ | ⟨score, hbest⟩⟩ := parse_eq_ok h
  · exact empty?_spec hp
  · have hfirst : ColumnsSound G ([] ++ ts) (firstColumn G) := firstColumn_sound
    obtain ⟨hsound, hsize⟩ := columnsFor_sound hfirst rfl hcolumns
    rw [Array.back?, hsize, Nat.add_sub_cancel] at hbest
    have := (best?_sound (hsound _).items hbest).2.1
    simpa [between] using this

end

end Grammar

end ArrowFree
