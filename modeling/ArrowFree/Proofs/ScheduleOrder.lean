import ArrowFree.Schedule
import Mathlib.Data.Fintype.Order
import Mathlib.Data.List.Perm.Subperm
import Mathlib.Order.WellFounded

/-!
# The order of passes

While passes are taken from the queue, the count of each is that of its requirements that have not run, and the
passes that have run or are ready are those all of whose requirements have run (`Reached`). When the queue is empty,
each pass that is left requires another that is left, so that there is a cycle (`exists_cycle`). So an order is
found exactly if the requirements are registered and have no cycle (`order_spec`).
-/

namespace ArrowFree.Schedule

open List

variable {π : Type} [DecidableEq π] {requires : π → List π} {registered done ready : List π} {p : π}

/-! ## Counting requirements -/

theorem nodup_eraseDups (l : List π) : l.eraseDups.Nodup := by
  match l with
  | [] => exact nodup_nil
  | a :: l =>
    rw [eraseDups_cons, nodup_cons]
    exact ⟨by simp, nodup_eraseDups _⟩
termination_by l.length
decreasing_by exact Nat.lt_succ_of_le (length_filter_le _ _)

theorem eraseDups_of_nodup {l : List π} (h : l.Nodup) : l.eraseDups = l := by
  induction l with
  | nil => rfl
  | cons a l ih =>
    obtain ⟨ha, hl⟩ := nodup_cons.mp h
    rw [eraseDups_cons, filter_eq_self.mpr fun b hb => ?_, ih hl]
    simpa using fun heq : b = a => ha (heq ▸ hb)

/-- How many requirements of a pass have not run. -/
def pending (requires : π → List π) (done : List π) (p : π) : Nat :=
  (requires p).eraseDups.countP fun q => ! done.contains q

theorem pending_eq_zero : pending requires done p = 0 ↔ ∀ q ∈ requires p, q ∈ done := by
  simp [pending]

theorem pending_nil : pending requires [] p = (requires p).eraseDups.length := by
  simp [pending]

/-- A pass that runs takes one from the count of each that requires it. -/
theorem pending_concat (hp : p ∉ done) (q : π) : (pending requires (done ++ [p]) q : Int) =
      if p ∈ requires q then (pending requires done q : Int) - 1 else pending requires done q := by
  have hcount (l : List π) : l.countP (fun x => ! done.contains x) =
      l.countP (fun x => ! (done ++ [p]).contains x) + l.count p := by
    induction l with
    | nil => rfl
    | cons x l ih =>
      rw [countP_cons, countP_cons, count_cons, ih]
      by_cases hx : x = p
      · simp [hx, hp]
        omega
      · simp [hx]
        omega
  unfold pending
  rw [hcount]
  split
  · next h => rw [count_eq_one_of_mem (nodup_eraseDups _) (mem_eraseDups.mpr h)]; omega
  · next h => rw [count_eq_zero_of_not_mem (mt mem_eraseDups.mp h)]; omega

/-! ## One step -/

/-- The state where each registered pass waits for so many requirements. -/
def stateOf (registered : List π) (count : π → Int) (ready : List π) : State π :=
  ⟨registered.map fun p => (p, count p), ready⟩

theorem lookup_map (count : π → Int) (hp : p ∈ registered) :
    (registered.map fun p => (p, count p)).lookup p = some (count p) := by
  induction registered with
  | nil => cases hp
  | cons q l ih =>
    rw [map_cons, lookup_cons]
    split
    · next h => rw [beq_iff_eq.mp h]
    · next h => exact ih ((mem_cons.mp hp).resolve_left (by simpa using h))

theorem release_stateOf (count : π → Int) (hp : p ∈ registered) :
    release (stateOf registered count ready) p =
      stateOf registered (fun q => if q = p then count q - 1 else count q)
        (if count p = 1 then ready ++ [p] else ready) := by
  unfold release stateOf
  simp only [lookup_map count hp, Option.getD_some, map_map, State.mk.injEq]
  refine ⟨map_congr_left fun q _ => ?_, ?_⟩
  · simp only [Function.comp_apply]
    split
    · next h => rw [h]
    · rfl
  · exact if_congr (by omega) rfl rfl

theorem foldl_release {l : List π} (count : π → Int) (hl : l.Nodup) (hsub : l ⊆ registered) :
    l.foldl release (stateOf registered count ready) =
      stateOf registered (fun q => if q ∈ l then count q - 1 else count q)
        (ready ++ l.filter fun q => count q = 1) := by
  induction l generalizing count ready with
  | nil => simp
  | cons p l ih =>
    obtain ⟨hp, hl⟩ := nodup_cons.mp hl
    obtain ⟨hmem, hsub⟩ := cons_subset.mp hsub
    rw [foldl_cons, release_stateOf count hmem, ih _ hl hsub]
    congr 1
    · funext q
      by_cases hq : q = p
      · simp [hq, hp]
      · simp [hq]
    · have hfilter : (l.filter fun q => decide ((if q = p then count q - 1 else count q) = 1)) =
          l.filter fun q => count q = 1 :=
        filter_congr fun q hq => by rw [if_neg (ne_of_mem_of_not_mem hq hp)]
      rw [hfilter, filter_cons]
      split <;> simp_all

/-! ## Runs -/

/-- What holds after some passes have run and others are ready. -/
structure Reached (requires : π → List π) (registered done ready : List π) : Prop where
  nodup : (done ++ ready).Nodup
  mem : ∀ p, p ∈ done ++ ready ↔ p ∈ registered ∧ pending requires done p = 0
  before : ∀ p ∈ done, ∀ q ∈ requires p, done.idxOf q < done.idxOf p

/-- The state with the counts that belong to the passes that have run. -/
def stateAfter (requires : π → List π) (registered done ready : List π) : State π :=
  stateOf registered (fun p => pending requires done p) ready

/-- The passes for which this one was the last requirement. -/
def freed (requires : π → List π) (registered done : List π) (p : π) : List π :=
  (registered.filter fun q => (requires q).contains p).filter fun q => (pending requires done q : Int) = 1

theorem mem_freed {q : π} :
    q ∈ freed requires registered done p ↔ q ∈ registered ∧ p ∈ requires q ∧ pending requires done q = 1 := by
  simp only [freed, mem_filter, contains_iff_mem, decide_eq_true_eq, and_assoc]
  exact_mod_cast Iff.rfl

section

variable (hnodup : registered.Nodup)
include hnodup

theorem start_eq : ∃ ready, start requires registered = stateAfter requires registered [] ready ∧
    Reached requires registered [] ready := by
  refine ⟨registered.filter fun p => pending requires [] p = 0, ?_, hnodup.filter _, by simp, nofun⟩
  unfold start stateAfter stateOf
  rw [eraseDups_of_nodup hnodup]
  simp [pending_nil, filter_map, Function.comp_def]

theorem finish_stateAfter (hp : p ∉ done) :
    finish requires registered p (stateAfter requires registered done ready) =
      stateAfter requires registered (done ++ [p]) (ready ++ freed requires registered done p) := by
  unfold finish stateAfter
  rw [foldl_release _ (hnodup.filter _) (filter_subset_self _)]
  unfold stateOf
  congr 1
  refine map_congr_left fun q hq => ?_
  dsimp only
  rw [pending_concat hp]
  simp [hq]

theorem Reached.step (h : Reached requires registered done (p :: ready)) :
    Reached requires registered (done ++ [p]) (ready ++ freed requires registered done p) := by
  have hp : p ∉ done := fun hmem => disjoint_of_nodup_append h.nodup hmem (.head _)
  refine ⟨?_, fun r => ?_, fun r hr q hq => ?_⟩
  · have hfreed : (freed requires registered done p).Nodup := (hnodup.filter _).filter _
    have hall := h.nodup.append hfreed fun r hr hfreed => ?_
    · simpa using hall
    · have hzero := ((h.mem r).mp hr).2
      have hone := (mem_freed.mp hfreed).2.2
      omega
  · have hmem := h.mem r
    have hnew : (pending requires _ r : Int) = _ := pending_concat hp r
    rw [← append_assoc, mem_append, append_assoc, singleton_append, hmem, mem_freed]
    split at hnew
    · next hr =>
      simp only [hr, true_and, ← and_or_left]
      exact and_congr_right fun _ => by omega
    · next hr =>
      simp only [hr, false_and, and_false, or_false]
      exact and_congr_right fun _ => by omega
  · have hfirst {r : π} (hr : r ∈ done ++ p :: ready) : q ∈ requires r → q ∈ done :=
      pending_eq_zero.mp ((h.mem r).mp hr).2 q
    rcases mem_append.mp hr with hr | hr
    · rw [idxOf_append_of_mem (hfirst (mem_append_left _ hr) hq), idxOf_append_of_mem hr]
      exact h.before r hr q hq
    · obtain rfl := mem_singleton.mp hr
      have hmem := hfirst (mem_append_right _ (.head _)) hq
      rw [idxOf_append_of_mem hmem, idxOf_append_of_notMem hp]
      exact Nat.lt_add_right _ (idxOf_lt_length_of_mem hmem)

/-- The queue runs until no pass is ready. -/
theorem Reached.drain {fuel : Nat} (h : Reached requires registered done ready)
    (hfuel : fuel + done.length = registered.length) :
    Reached requires registered
      (done ++ Schedule.drain requires registered fuel (stateAfter requires registered done ready)) [] := by
  induction fuel generalizing done ready with
  | zero =>
    have hsub : done ++ ready ⊆ registered := fun p hp => ((h.mem p).mp hp).1
    have hlength := (subperm_of_subset h.nodup hsub).length_le
    rw [length_append] at hlength
    obtain rfl : ready = [] := eq_nil_of_length_eq_zero (by omega)
    rwa [Schedule.drain, append_nil]
  | succ fuel ih =>
    cases ready with
    | nil => simpa [Schedule.drain, stateAfter, stateOf] using h
    | cons p ready =>
      have hp : p ∉ done := fun hmem => disjoint_of_nodup_append h.nodup hmem (.head _)
      have hrest := ih (h.step hnodup) (by rw [length_append, length_singleton]; omega)
      rw [← finish_stateAfter hnodup hp] at hrest
      simpa [Schedule.drain, stateAfter, stateOf] using hrest

end

/-! ## Cycles -/

/-- A registered pass requires another registered one. -/
def Requires (requires : π → List π) (registered : List π) (p q : π) : Prop :=
  p ∈ registered ∧ q ∈ registered ∧ q ∈ requires p

/-- Passes each of which requires another of them have a cycle. -/
theorem exists_cycle {r : π → π → Prop} {l : List π} (hp : p ∈ l) (h : ∀ p ∈ l, ∃ q ∈ l, r p q) :
    ∃ p, Relation.TransGen r p p := by
  by_contra hacyclic
  let above (a b : {p // p ∈ l}) : Prop := Relation.TransGen r b.1 a.1
  have : IsTrans _ above := ⟨fun a b c hab hbc => hbc.trans hab⟩
  have : Std.Irrefl above := ⟨fun a ha => hacyclic ⟨a.1, ha⟩⟩
  obtain ⟨m, -, hmin⟩ := (Finite.wellFounded_of_trans_of_irrefl above).has_min Set.univ ⟨⟨p, hp⟩, trivial⟩
  obtain ⟨q, hq, hr⟩ := h m.1 m.2
  exact hmin ⟨q, hq⟩ trivial (.single hr)

theorem firstUnmet_eq_none :
    firstUnmet requires registered = none ↔ ∀ p ∈ registered, ∀ q ∈ requires p, q ∈ registered := by
  rw [firstUnmet, findSome?_eq_none_iff]
  refine forall₂_congr fun p _ => ?_
  split
  · next hnone => simpa using hnone
  · next missing hsome =>
    have : (requires p).eraseDups.filter (fun q => ! registered.contains q) ≠ [] := hsome
    simpa using this

section

variable {passes : List π} (h : Reached requires registered passes [])
include h

theorem Reached.subperm : passes.Subperm registered := by
  have hnodup := h.nodup
  rw [append_nil] at hnodup
  exact subperm_of_subset hnodup fun p hp => ((h.mem p).mp (mem_append_left _ hp)).1

/-- A pass that others lead to by requirements comes before them. -/
theorem Reached.acyclic (hperm : passes.Perm registered) :
    ¬ Relation.TransGen (Requires requires registered) p p := by
  have hbefore {p q : π} (hpq : Relation.TransGen (Requires requires registered) p q) :
      passes.idxOf q < passes.idxOf p := by
    induction hpq with
    | single hq => exact h.before _ (hperm.mem_iff.mpr hq.1) _ hq.2.2
    | tail _ hq ih => exact (h.before _ (hperm.mem_iff.mpr hq.1) _ hq.2.2).trans ih
  exact fun hcycle => Nat.lt_irrefl _ (hbefore hcycle)

/-- Passes that never become ready require each other. -/
theorem Reached.cyclic (hmet : ∀ p ∈ registered, ∀ q ∈ requires p, q ∈ registered) (hnodup : registered.Nodup)
    (hlength : passes.length ≠ registered.length) : ∃ p, Relation.TransGen (Requires requires registered) p p := by
  obtain ⟨p, hp, hleft⟩ : ∃ p ∈ registered, p ∉ passes := by
    by_contra hall
    have hsub : registered ⊆ passes := fun p hp => by_contra fun hleft => hall ⟨p, hp, hleft⟩
    exact hlength (h.subperm.length_le.antisymm (subperm_of_subset hnodup hsub).length_le)
  refine exists_cycle (l := registered.filter (· ∉ passes)) (mem_filter.mpr ⟨hp, by simpa using hleft⟩)
    fun p hp => ?_
  obtain ⟨hp, hleft⟩ := mem_filter.mp hp
  have hmem := h.mem p
  rw [append_nil, pending_eq_zero] at hmem
  obtain ⟨q, hq, hrun⟩ : ∃ q ∈ requires p, q ∉ passes := by
    by_contra hall
    exact of_decide_eq_true hleft (hmem.mpr ⟨hp, by simpa using hall⟩)
  exact ⟨q, mem_filter.mpr ⟨hmet p hp q hq, by simpa using hrun⟩, hp, hmet p hp q hq, hq⟩

end

/-- **Passes are put in order.** For different passes there is no order exactly if one requires a pass that is not
registered or some require each other in a cycle. An order is one of all the passes, each after what it requires. -/
theorem order_spec (requires : π → List π) (hnodup : registered.Nodup) :
    ((∃ problem, order requires registered = .error problem) ↔
      (∃ p ∈ registered, ∃ q ∈ requires p, q ∉ registered) ∨
        ∃ p, Relation.TransGen (Requires requires registered) p p) ∧
    ∀ passes, order requires registered = .ok passes → passes.Perm registered ∧
      ∀ p ∈ passes, ∀ q ∈ requires p, passes.idxOf q < passes.idxOf p := by
  obtain ⟨ready, hstart, hreached⟩ : ∃ ready, start requires registered = _ ∧ _ := start_eq hnodup
  have hdrained := hreached.drain hnodup (Nat.add_zero registered.length)
  rw [← hstart, List.nil_append] at hdrained
  unfold order
  split
  · next problem hunmet =>
    have hnot : ¬ ∀ p ∈ registered, ∀ q ∈ requires p, q ∈ registered := by
      rw [← firstUnmet_eq_none, hunmet]
      nofun
    refine ⟨⟨fun _ => .inl (by simpa using hnot), fun _ => ⟨problem, rfl⟩⟩, nofun⟩
  · next hunmet =>
    have hmet := firstUnmet_eq_none.mp hunmet
    have hregistered : ¬ ∃ p ∈ registered, ∃ q ∈ requires p, q ∉ registered := by simpa using hmet
    dsimp only
    split
    · next hlength =>
      have hperm := hdrained.subperm.perm_of_length_le hlength.ge
      refine ⟨⟨nofun, ?_⟩, fun passes hpasses => ?_⟩
      · rintro (h | ⟨p, hcycle⟩)
        · exact absurd h hregistered
        · exact absurd hcycle (hdrained.acyclic hperm)
      · cases hpasses
        exact ⟨hperm, hdrained.before⟩
    · next hlength =>
      exact ⟨⟨fun _ => .inr (hdrained.cyclic hmet hnodup hlength), fun _ => ⟨_, rfl⟩⟩, nofun⟩

/-- Two passes require the one that is registered last, one of them also the other. -/
theorem order_spec_late :
    let requires : Nat → List Nat := fun p => if p = 2 then [1, 0] else if p = 1 then [0, 0] else []
    [2, 1, 0].Nodup ∧ order requires [2, 1, 0] = .ok [0, 1, 2] ∧ [0, 1, 2].Perm [2, 1, 0] ∧
      ∀ p ∈ [0, 1, 2], ∀ q ∈ requires p, [0, 1, 2].idxOf q < [0, 1, 2].idxOf p :=
  ⟨by decide, by decide, (order_spec _ (by decide)).2 _ (by decide)⟩

end ArrowFree.Schedule
