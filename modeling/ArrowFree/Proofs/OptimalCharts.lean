import ArrowFree.Proofs.CompleteCharts

/-!
# Which derivation the chart parser chooses

The derivation that the parser returns is the best one in all its parts: a part wins over every other
derivation of the same tokens from the same symbol (`Preferred`), by its score or, at equal scores, by the
place of its production in the grammar.

1. A symbol is completed with the derivation that is the best one in the end, because nothing that is
   added later is a derivation of it (`best?_complete`).
2. So what an item has matched are tokens, empty productions and derivations that are the best ones of
   their columns (`Picked`, `Traced`), and by induction so are the parts of the derivation that the parser
   returns.
3. The best derivation of a column wins over all rivals, because the rivals go through the chart too and
   end in completed items that have at least their scores (`preferred_of_best?`).
-/

namespace ArrowFree

open List

/-! ## Tokens of a derivation -/

namespace Derivation

variable {κ τ ν α : Type}

mutual

/-- The tokens at the leaves. -/
def tokens : Derivation κ τ ν α → List κ
  | .leaf t => [t]
  | .branch _ ds => tokensOf ds

def tokensOf : List (Derivation κ τ ν α) → List κ
  | [] => []
  | d :: ds => d.tokens ++ tokensOf ds

end

end Derivation

namespace Grammar

variable {κ τ ν α : Type} {G : Grammar κ τ ν α}
variable {ds : List (Derivation κ τ ν α)} {d : Derivation κ τ ν α}
variable {p : Production τ ν α}

mutual

theorem tokens_eq {s : Symbol τ ν} {d : Derivation κ τ ν α} {ts : List κ} :
    G.Derives s d ts → d.tokens = ts
  | .leaf t => rfl
  | .branch _ hds => tokensOf_eq hds

theorem tokensOf_eq {ss : List (Symbol τ ν)} {ds : List (Derivation κ τ ν α)} {ts : List κ} :
    G.DerivesAll ss ds ts → Derivation.tokensOf ds = ts
  | .nil => rfl
  | .cons hd hds => by rw [Derivation.tokensOf, tokens_eq hd, tokensOf_eq hds]

end

/-! ## Parts of a derivation -/

theorem derivesAll_of_mem {ss : List (Symbol τ ν)} {ts : List κ} (h : G.DerivesAll ss ds ts) (hd : d ∈ ds) :
    ∃ ss₁ s ss₂ ds₁ ds₂ ts₁ us ts₂, ss = ss₁ ++ s :: ss₂ ∧ ds = ds₁ ++ d :: ds₂ ∧
      ts = ts₁ ++ (us ++ ts₂) ∧ G.DerivesAll ss₁ ds₁ ts₁ ∧ G.Derives s d us ∧
      G.DerivesAll ss₂ ds₂ ts₂ := by
  induction ss generalizing ds ts with
  | nil =>
    cases h
    cases hd
  | cons s ss ih =>
    obtain _ | ⟨he, hes⟩ := h
    rcases mem_cons.mp hd with rfl | hd
    · exact ⟨[], s, ss, [], _, [], _, _, rfl, rfl, rfl, .nil, he, hes⟩
    · obtain ⟨ss₁, s', ss₂, ds₁, ds₂, ts₁, us, ts₂, rfl, rfl, rfl, h₁, hd, h₂⟩ := ih hes hd
      exact ⟨s :: ss₁, s', ss₂, _ :: ds₁, ds₂, _ ++ ts₁, us, ts₂, rfl, rfl,
        (append_assoc ..).symm, .cons he h₁, hd, h₂⟩

/-- A part of a derivation is itself a derivation, of the tokens at its leaves. -/
theorem derivesAll_of_within {s : Symbol τ ν} {ts : List κ} (hd : G.Derives s d ts)
    (h : (Derivation.branch p ds).Within d) :
    p ∈ G.productions ∧ G.DerivesAll p.body ds (Derivation.tokensOf ds) := by
  generalize he : Derivation.branch p ds = e at h
  induction h generalizing s ts with
  | self =>
    subst he
    obtain _ | ⟨hp, hds⟩ := hd
    exact ⟨hp, tokensOf_eq hds ▸ hds⟩
  | child hmem _ ih =>
    obtain _ | ⟨hq, hes⟩ := hd
    obtain ⟨_, _, _, _, _, _, _, _, -, -, -, -, hd, -⟩ := derivesAll_of_mem hes hmem
    exact ih hd

theorem eq_or_parent_of_within {e : Derivation κ τ ν α} (h : e.Within d) :
    e = d ∨ ∃ p ds, (Derivation.branch p ds).Within d ∧ e ∈ ds := by
  induction h with
  | self => exact .inl rfl
  | child hmem _ ih =>
    rcases ih with rfl | ⟨p, ds, hwithin, he⟩
    · exact .inr ⟨_, _, .self _, hmem⟩
    · exact .inr ⟨p, ds, .child hmem hwithin, he⟩

/-! ## Preference -/

/-- A derivation wins over another one by its score or, at equal scores, by the place of its
production. -/
def Wins (G : Grammar κ τ ν α) (p : Production τ ν α) (ds : List (Derivation κ τ ν α))
    (q : Production τ ν α) (es : List (Derivation κ τ ν α)) : Prop :=
  (Derivation.branch q es).score < (Derivation.branch p ds).score ∨
    (Derivation.branch q es).score = (Derivation.branch p ds).score ∧
      ∃ i, (i, p) ∈ G.rules ∧ ∀ j, (j, q) ∈ G.rules → i ≤ j

/-- A derivation wins over all others of the same tokens from the same symbol. -/
def Preferred (G : Grammar κ τ ν α) (p : Production τ ν α) (ds : List (Derivation κ τ ν α)) : Prop :=
  Derivation.tokensOf ds ≠ [] → ∀ q ∈ G.productions, q.head = p.head → ∀ es,
    G.DerivesAll q.body es (Derivation.tokensOf ds) → G.Wins p ds q es

theorem Preferred.score_le {q : Production τ ν α} {es : List (Derivation κ τ ν α)} (h : G.Preferred p ds)
    (hne : Derivation.tokensOf ds ≠ []) (hq : q ∈ G.productions) (hhead : q.head = p.head)
    (hes : G.DerivesAll q.body es (Derivation.tokensOf ds)) :
    (Derivation.branch q es).score ≤ (Derivation.branch p ds).score :=
  (h hne q hq hhead es hes).elim Nat.le_of_lt fun heq => Nat.le_of_eq heq.1

/-! ## The best derivation of a finished symbol -/

section

variable {ts : List κ} {k : Nat}
variable {items : List (Item κ τ ν α)} {it : Item κ τ ν α} {p : Production τ ν α}
  {final : Array (Column κ τ ν α)} {x : ν × Nat} {finished : List (ν × Nat)} {score fuel : Nat}
  {us : List κ}

theorem filter_insert {f : Item κ τ ν α → Bool}
    (hit : f it = false) (hrivals : ∀ jt ∈ items, it.rivals jt = true → f jt = false) :
    (insert it items).filter f = items.filter f := by
  fun_induction insert it items with
  | case1 => rw [filter_cons_of_neg (by simp [hit])]
  | case2 jt items hrival _ =>
    rw [filter_cons_of_neg (by simp [hit]),
      filter_cons_of_neg (by simp [hrivals jt (.head _) hrival])]
  | case3 => rfl
  | case4 jt items _ ih =>
    rw [filter_cons, filter_cons, ih fun kt hkt => hrivals kt (.tail _ hkt)]

variable [DecidableEq ν]

/-- Items that are not complete for a symbol do not take part in the choice among its derivations. -/
theorem best?_insertAll {news : List (Item κ τ ν α)}
    (hnews : ∀ it ∈ news, it.Sound G ts k) (hitems : ∀ it ∈ items, it.Sound G ts k)
    (hother : ∀ it ∈ news, it.rest = [] → it.key ≠ x) :
    best? (insertAll news items) x.1 x.2 = best? items x.1 x.2 := by
  induction news generalizing items with
  | nil => rfl
  | cons it news ih =>
    obtain ⟨hit, hnews⟩ := forall_mem_cons.mp hnews
    obtain ⟨hne, hother⟩ := forall_mem_cons.mp hother
    have hinsert : ∀ jt ∈ insert it items, jt.Sound G ts k := fun jt hjt =>
      (mem_insert hjt).elim (fun h => h ▸ hit) (hitems jt)
    refine (ih hnews hinsert hother).trans ?_
    unfold best?
    rw [filter_insert]
    · refine Bool.eq_false_iff.mpr fun hcomplete => ?_
      obtain ⟨hrest, hkey⟩ := isCompleted_iff.mp hcomplete
      exact hne hrest hkey
    · intro jt hjt hrivals
      obtain ⟨hrule, hlength, horigin⟩ := Item.rivals_iff.mp hrivals
      have hsame : it.key = jt.key := by
        rw [Item.key, Item.key, production_eq hit (hitems jt hjt) hrule, horigin]
      refine Bool.eq_false_iff.mpr fun hcomplete => ?_
      obtain ⟨hrest, hkey⟩ := isCompleted_iff.mp hcomplete
      rw [hrest] at hlength
      exact hne (length_eq_zero_iff.mp hlength) (hsame.trans hkey)

variable {columns : Array (Column κ τ ν α)}

/-- **A finished symbol keeps its best derivation** to the end of the loop that completes. -/
theorem best?_complete [DecidableEq τ] (hG : G.Orderly) (hcolumns : ColumnsSound G ts columns)
    (h : Completing G ts columns k finished items) (hx : x ∈ finished) :
    best? (complete G columns fuel finished items) x.1 x.2 = best? items x.1 x.2 := by
  induction fuel generalizing finished items with
  | zero => rfl
  | succ fuel ih =>
    rw [complete_succ]
    cases hnext : next? G finished items with
    | none => rfl
    | some y =>
      refine (ih (h.step hG hcolumns hnext) (.tail _ hx)).trans ?_
      exact best?_insertAll (fun it hit => (mem_movedOn hcolumns h.sound hit).1) h.sound
        fun it hit hrest heq => h.key_not_mem hG hcolumns hnext hit hrest (heq ▸ .tail _ hx)

/-! ## What the items are made of -/

/-- What a chart takes for a symbol: the token, an empty production, or the best derivation of a
column. -/
inductive Picked (G : Grammar κ τ ν α) (columns : Array (Column κ τ ν α)) :
    Derivation κ τ ν α → Prop where
  | token (t : κ) : Picked G columns (.leaf t)
  | empty {n : ν} {p : Production τ ν α} : G.empty? n = some p → Picked G columns (.branch p [])
  | best {k score : Nat} {x : ν × Nat} {d : Derivation κ τ ν α} :
      k < columns.size → best? (columnAt columns k).items x.1 x.2 = some (d, score) → Picked G columns d

/-- The item began with one of the productions that may begin where it did, and its parts are picked. -/
structure Item.Traced (G : Grammar κ τ ν α) (columns : Array (Column κ τ ν α)) (it : Item κ τ ν α) :
    Prop where
  started : (it.rule, it.production) ∈ (columnAt columns it.origin).starts
  picked : ∀ d ∈ it.done, Picked G columns d

theorem skipEmpties_traced {rest : List (Symbol τ ν)} {done : List (Derivation κ τ ν α)}
    (h : Item.Traced G columns { it with rest := rest, done := done, score := score }) :
    ∀ jt ∈ skipEmpties G it rest done score, jt.Traced G columns := by
  fun_induction skipEmpties G it rest done score with
  | case1 n rest done score ih =>
    refine forall_mem_cons.mpr ⟨h, ?_⟩
    split
    · next p hp => exact ih p ⟨h.started, forall_mem_cons.mpr ⟨.empty hp, h.picked⟩⟩
    · exact nofun
  | case2 rest done score _ => exact forall_mem_singleton.mpr h

theorem advance_traced (h : it.Traced G columns) (hd : Picked G columns d) :
    ∀ jt ∈ advance G it d score, jt.Traced G columns := by
  unfold advance
  split
  · exact nofun
  · exact skipEmpties_traced ⟨h.started, forall_mem_cons.mpr ⟨hd, h.picked⟩⟩

/-- A chart whose items are traced, and where a symbol that may begin may do so with each of its
productions. -/
structure TracedChart (G : Grammar κ τ ν α) (columns : Array (Column κ τ ν α)) : Prop where
  traced : ∀ k, ∀ it ∈ (columnAt columns k).items, it.Traced G columns
  alternatives : ∀ k, ∀ r ∈ (columnAt columns k).starts, ∀ r' ∈ G.rules, r'.2.head = r.2.head →
    r' ∈ (columnAt columns k).starts

theorem live_traced (h : TracedChart G columns) {w : Item κ τ ν α} (hw : w ∈ live columns k) :
    w.Traced G columns := by
  rcases mem_append.mp hw with hw | hw
  · exact h.traced k w hw
  · obtain ⟨r, hr, rfl⟩ := mem_map.mp hw
    exact ⟨hr, nofun⟩

omit [DecidableEq ν] in
theorem columnAt_push (c : Column κ τ ν α) (k : Nat) :
    columnAt (columns.push c) k = if k = columns.size then c else columnAt columns k := by
  rw [columnAt, Array.getElem?_push]
  split <;> rfl

theorem Picked.push (h : Picked G columns d) (c : Column κ τ ν α) :
    Picked G (columns.push c) d := by
  cases h with
  | token t => exact .token t
  | empty h => exact .empty h
  | best hk h =>
    rw [← columnAt_push_lt hk] at h
    exact .best (Nat.lt_trans hk (by simp)) h

theorem Item.Traced.push (h : it.Traced G columns) (c : Column κ τ ν α) :
    it.Traced G (columns.push c) where
  started := by
    have hlt : it.origin < columns.size := by
      by_contra hge
      have hstarted := h.started
      rw [columnAt, Array.getElem?_eq_none (Nat.le_of_not_lt hge)] at hstarted
      cases hstarted
    rw [columnAt_push_lt hlt]
    exact h.started
  picked d hd := (h.picked d hd).push c

theorem mem_startsFor_of_head {expected : List ν} {r r' : Rule τ ν α}
    (h : r ∈ startsFor G.rules expected) (hr' : r' ∈ G.rules) (hhead : r'.2.head = r.2.head) :
    r' ∈ startsFor G.rules expected := by
  obtain ⟨-, hin⟩ := mem_filter.mp h
  exact mem_filter.mpr ⟨hr', hhead ▸ hin⟩

theorem tracedChart_first : TracedChart G (firstColumn G) := by
  have hat (k : Nat) : columnAt (firstColumn G) k =
      if k = 0 then { starts := startsFor G.rules [G.start] } else {} :=
    @columnAt_push κ τ ν α #[] _ k
  constructor
  · intro k it hit
    rw [hat] at hit
    split at hit <;> cases hit
  · intro k r hr r' hr' hhead
    rw [hat] at hr ⊢
    split
    · next hk =>
      rw [if_pos hk] at hr
      exact mem_startsFor_of_head hr hr' hhead
    · next hk =>
      rw [if_neg hk] at hr
      cases hr

/-- The loop that completes takes only derivations that are the best ones of the finished column. -/
theorem complete_traced [DecidableEq τ] (hG : G.Orderly) (hcolumns : ColumnsSound G ts columns)
    (hlive : ∀ j, ∀ w ∈ live columns j, w.Traced G final) (h : Completing G ts columns k finished items)
    (hitems : ∀ it ∈ items, it.Traced G final)
    (hbest : ∀ x : ν × Nat, ∀ d score,
      best? (complete G columns fuel finished items) x.1 x.2 = some (d, score) → Picked G final d) :
    ∀ it ∈ complete G columns fuel finished items, it.Traced G final := by
  induction fuel generalizing finished items with
  | zero => exact hitems
  | succ fuel ih =>
    rw [complete_succ] at hbest ⊢
    cases hnext : next? G finished items with
    | none => exact hitems
    | some x =>
      simp only [hnext] at hbest
      have hstep := h.step hG hcolumns hnext
      refine ih hstep (fun it hit => ?_) hbest
      rcases mem_insertAll hit with hit | hit
      · obtain ⟨d, score, hd, w, hw, hit⟩ := movedOn_inv hit
        refine advance_traced (hlive x.2 w (mem_waiting_iff.mp hw).1) (hbest x d score ?_) it hit
        rw [best?_complete hG hcolumns hstep (.head _), ← hd]
        exact best?_insertAll (fun it hit => (mem_movedOn hcolumns h.sound hit).1) h.sound
          fun it hit hrest heq => h.key_not_mem hG hcolumns hnext hit hrest (heq ▸ .head _)
      · exact hitems it hit

theorem TracedChart.step [DecidableEq τ] (hG : G.Orderly) (hcolumns : ColumnsSound G ts columns) {m : Nat}
    (hsize : columns.size = m + 1) (h : TracedChart G columns) {t : κ} (ht : ts.drop m = t :: us)
    {c : Column κ τ ν α} (hc : step? G G.rules columns t = some c) : TracedChart G (columns.push c) := by
  obtain ⟨hitems, hstarts⟩ := step?_some hc
  have hlive : ∀ j, ∀ w ∈ live columns j, w.Traced G (columns.push c) := fun j w hw =>
    (live_traced h hw).push c
  constructor
  · intro k it hit
    rw [columnAt_push] at hit
    split at hit
    · rw [hitems] at hit
      refine complete_traced hG hcolumns hlive (completing_scanned hcolumns hsize ht) (fun jt hjt => ?_)
        (fun x d score hbest => ?_) it hit
      · obtain ⟨w, hw, hjt⟩ := mem_flatMap.mp ((mem_insertAll hjt).resolve_right not_mem_nil)
        rw [Array.back?, hsize, Nat.add_sub_cancel] at hw
        exact advance_traced (hlive m w (mem_waiting_iff.mp hw).1) (.token t) jt hjt
      · rw [← hitems] at hbest
        have hat : columnAt (columns.push c) columns.size = c := columnAt_push_size
        rw [← hat] at hbest
        exact .best (by simp) hbest
    · exact (h.traced k it hit).push c
  · intro k r hr r' hr' hhead
    rw [columnAt_push] at hr ⊢
    split
    · next hk =>
      rw [if_pos hk, hstarts] at hr
      rw [hstarts]
      exact mem_startsFor_of_head hr hr' hhead
    · next hk =>
      rw [if_neg hk] at hr
      exact h.alternatives k r hr r' hr' hhead

theorem columnsFor_traced [DecidableEq τ] (hG : G.Orderly) {ps : List κ}
    (hcolumns : ColumnsSound G (ps ++ us) columns) (hsize : columns.size = ps.length + 1)
    (h : TracedChart G columns) (hfinal : columnsFor G G.rules columns us = .ok final) :
    TracedChart G final := by
  induction us generalizing columns ps with
  | nil =>
    cases hfinal
    exact h
  | cons t us ih =>
    rw [columnsFor] at hfinal
    split at hfinal
    · cases hfinal
    · next c hc =>
      have hsound := step?_sound hcolumns hsize drop_left hc
      have hnext := h.step hG hcolumns hsize drop_left hc
      have := @ih (columns.push c) (ps ++ [t])
      rw [append_assoc, singleton_append] at this
      exact this (columnsSound_push hcolumns (hsize ▸ hsound)) (by simp [hsize]) hnext hfinal

/-! ## The parser -/

/-- The best derivation of a column wins over its rivals: they go through the chart too. -/
theorem preferred_of_best? (hG : G.Orderly) {m : Nat} (h : ClosedChart G ts columns m)
    (htraced : TracedChart G columns) (hk : k ≤ m)
    (hbest : best? (columnAt columns k).items x.1 x.2 = some (.branch p ds, score)) :
    G.Preferred p ds := by
  intro _ q hq hhead es hes
  obtain ⟨it, hit, hrest, hkey, hresult, hbeats⟩ := best?_spec hbest
  have hsound := (h.sound k).items it hit
  have hbegun := (h.sound k).begun it hit
  obtain ⟨hderives, hscore⟩ := hsound.result hrest
  obtain rfl : it.production = p := by
    have := congrArg Prod.fst hresult
    exact (Derivation.branch.inj this).1
  rw [hresult] at hderives hscore
  have hrival : ∀ j, (j, q) ∈ G.rules → (Derivation.branch q es).score < score ∨
      (Derivation.branch q es).score = score ∧ it.rule ≤ j := by
    intro j hj
    have hstart := htraced.alternatives _ _ (htraced.traced k it hit).started _ hj hhead
    obtain ⟨jt, hjt, hcontinues⟩ := goes_through hG h hsound.origin_le hk (tokens_eq hderives)
      (begin_mem_live hstart) (append_nil _).symm hes
    have horigin : jt.origin = it.origin := hcontinues.origin
    have hitems := mem_items_of_live hjt (by omega)
    have hproduction : jt.production = q :=
      congrArg Prod.snd (rules_eq (live_sound h.sound hjt).rule hj hcontinues.rule)
    have hbeat := hbeats jt hitems hcontinues.rest
      (by rw [← hkey, Item.key, Item.key, hproduction, horigin, hhead])
    have hgain := hcontinues.score
    have hrule : jt.rule = j := hcontinues.rule
    rw [Item.Beats, hresult, Item.result, hproduction] at hbeat
    dsimp only [Item.begin] at hgain hbeat
    rw [Derivation.score]
    omega
  obtain ⟨⟨j, _⟩, hj, rfl⟩ := exists_rule hq
  rw [Wins, ← hscore]
  refine (hrival j hj).imp_right fun heq => ⟨heq.1, it.rule, hsound.rule, fun i hi => ?_⟩
  rcases hrival i hi with hlt | hle
  · omega
  · exact hle.2

/-- All parts of what a chart takes for a symbol are preferred. -/
theorem Picked.preferred (hG : G.Orderly) (h : ClosedChart G ts columns ts.length)
    (hsize : columns.size = ts.length + 1) (htraced : TracedChart G columns) (hd : Picked G columns d)
    (hwithin : (Derivation.branch p ds).Within d) :
    G.Preferred p ds := by
  generalize he : Derivation.branch p ds = e at hwithin
  induction hwithin with
  | self =>
    subst he
    cases hd with
    | empty _ => exact fun hne => absurd rfl hne
    | best hk hbest => exact preferred_of_best? hG h htraced (by omega) hbest
  | child hmem _ ih =>
    cases hd with
    | empty _ => cases hmem
    | best _ hbest =>
      obtain ⟨it, hit, -, -, hresult, -⟩ := best?_spec hbest
      have hdone := congrArg Prod.fst hresult
      obtain ⟨-, rfl⟩ := Derivation.branch.inj hdone
      exact ih ((htraced.traced _ it hit).picked _ (mem_reverse.mp hmem))

/-- **The parser chooses the best derivation**: every part of it wins over all other derivations of the
same tokens from the same symbol. -/
theorem parse_preferred [DecidableEq τ] (hG : G.Orderly) (h : G.parse ts = .ok d)
    (hwithin : (Derivation.branch p ds).Within d) : G.Preferred p ds := by
  obtain ⟨final, hfinal, hsize, hclosed, -⟩ := chart_of_derives hG (derives_of_parse h)
  have hfirst : ColumnsSound G ([] ++ ts) (firstColumn G) := firstColumn_sound
  have htraced := columnsFor_traced hG hfirst rfl tracedChart_first hfinal
  refine Picked.preferred hG hclosed hsize htraced ?_ hwithin
  obtain ⟨columns, hcolumns, ⟨-, p, hp, rfl⟩ | ⟨score, hbest⟩⟩ := parse_eq_ok h
  · exact .empty hp
  · obtain rfl := Except.ok.inj (hcolumns.symm.trans hfinal)
    rw [Array.back?, hsize, Nat.add_sub_cancel] at hbest
    have hlast : ts.length < columns.size := by omega
    exact .best (x := (G.start, 0)) hlast hbest

end

end Grammar

end ArrowFree
