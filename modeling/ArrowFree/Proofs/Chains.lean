import ArrowFree.Proofs.Additions
import Mathlib.Data.List.Basic

/-!
# Chains of scopes

The table of a tree is rooted: its first scope is that of the program, and every other scope has a parent
that comes before it (`rooted_ofTree`). The chain of a scope can then be followed by recursion along
parents, without regard to the bound that it is computed with (`scopesOn_succ`).
-/

namespace ArrowFree.ScopeTable

open List

variable {t : ScopeTable} {i p : Nat} {s : Scope} {x : Nat × Scope}
variable {post pre : List (Nat × Scope)} {s' : Scope} {current : Nat}

/-- The first scope is that of the program, parents come before their children, and references stand
in scopes of the table. -/
structure Rooted (t : ScopeTable) : Prop where
  program : ∃ s, t.scopes[0]? = some s ∧ s.kind = .program ∧ s.parent = none
  parent : ∀ {i : Nat} {s : Scope}, t.scopes[i + 1]? = some s → ∃ p ≤ i, s.parent = some p
  references : ∀ r ∈ t.references, r.scope < t.scopes.length

/-! ## Rooted tables -/

theorem getElem?_define (t : ScopeTable) (i j : Nat) (name : Text) (type : BindingType)
    (node identifier : NodeId) :
    (t.define i name type node identifier).scopes[j]? =
      (t.scopes[j]?).map fun s => if i = j then s.define name type node identifier else s := by
  unfold define
  rw [getElem?_modify]
  cases t.scopes[j]? with
  | none => simp
  | some s =>
    by_cases h : i = j
    · simp [h]
    · simp [h]

theorem rooted_initial (root : Tree) : (initial root).Rooted where
  program := ⟨_, rfl, rfl, rfl⟩
  parent h := by simp [initial] at h
  references := by simp [initial]

theorem Rooted.define (h : t.Rooted) (i : Nat) (name : Text) (type : BindingType) (node identifier : NodeId) :
    (t.define i name type node identifier).Rooted where
  program := by
    obtain ⟨s, hs, hkind, hparent⟩ := h.program
    rw [getElem?_define, hs]
    refine ⟨_, rfl, ?_⟩
    split
    · exact ⟨hkind, hparent⟩
    · exact ⟨hkind, hparent⟩
  parent hs := by
    rw [getElem?_define] at hs
    obtain ⟨s, hs₀, rfl⟩ := Option.map_eq_some_iff.mp hs
    obtain ⟨p, hp, hparent⟩ := h.parent hs₀
    refine ⟨p, hp, ?_⟩
    split
    · exact hparent
    · exact hparent
  references r hr := by
    rw [length_define]
    exact h.references r hr

theorem map_adopt {α : Type} (f : Scope → α) (hf : ∀ s children, f { s with children } = f s)
    (scopes : List Scope) (child : Nat) (parent : Option Nat) :
    (adopt scopes child parent).map f = scopes.map f := by
  cases parent with
  | none => rfl
  | some p =>
    refine ext_getElem? fun i => ?_
    rw [adopt, getElem?_map, getElem?_modify, getElem?_map, Option.map_eq_map, Option.map_map]
    refine congrArg (fun g => Option.map g _) (funext fun s => ?_)
    split
    · exact hf s _
    · rfl

theorem getElem?_push_new (t : ScopeTable) (s : Scope) :
    (t.push s).scopes[t.scopes.length]? = some s := by
  have hlength := length_adopt t.scopes t.scopes.length s.parent
  rw [push, getElem?_append_right (by omega), hlength, Nat.sub_self]
  rfl

theorem getElem?_push_old (t : ScopeTable) (s : Scope) (h : t.scopes[i]? = some s') :
    ∃ children, (t.push s).scopes[i]? = some { s' with children } := by
  have hlt := (List.getElem?_eq_some_iff.mp h).1
  rw [push, getElem?_append_left (by simpa using hlt)]
  cases s.parent with
  | none => exact ⟨s'.children, h⟩
  | some p =>
    rw [adopt, getElem?_modify, h]
    by_cases hp : p = i
    · exact ⟨_, by simp [hp]; rfl⟩
    · exact ⟨s'.children, by simp [hp]⟩

theorem getElem?_push_cases (h : (t.push s).scopes[i]? = some s') :
    (i = t.scopes.length ∧ s' = s) ∨
      ∃ s₀ children, t.scopes[i]? = some s₀ ∧ s' = { s₀ with children } := by
  have hlt := (List.getElem?_eq_some_iff.mp h).1
  rw [length_push] at hlt
  by_cases hi : i = t.scopes.length
  · subst hi
    rw [getElem?_push_new] at h
    exact Or.inl ⟨rfl, (Option.some.inj h).symm⟩
  · have hs₀ : t.scopes[i]? = some t.scopes[i] := getElem?_eq_getElem (by omega)
    obtain ⟨children, hpush⟩ := t.getElem?_push_old s hs₀
    exact Or.inr ⟨_, children, hs₀, Option.some.inj (h.symm.trans hpush)⟩

theorem Rooted.push (h : t.Rooted) (hs : s.parent = some p) (hp : p < t.scopes.length) : (t.push s).Rooted where
  program := by
    obtain ⟨s₀, hs₀, hrest⟩ := h.program
    obtain ⟨children, hpush⟩ := t.getElem?_push_old s hs₀
    exact ⟨_, hpush, hrest⟩
  parent {i s'} hs' := by
    rcases getElem?_push_cases hs' with ⟨hi, rfl⟩ | ⟨s₀, children, hs₀, rfl⟩
    · exact ⟨p, by omega, hs⟩
    · obtain ⟨q, hq, hparent⟩ := h.parent hs₀
      exact ⟨q, hq, hparent⟩
  references r hr := by
    rw [length_push]
    exact Nat.lt_add_right _ (h.references r hr)

theorem length_le_add (t : ScopeTable) (current : Nat) (x : Addition) :
    t.scopes.length ≤ (t.add current x).scopes.length := by
  cases x with
  | scope kind node nodeType => simp [add]
  | binding reach name type node identifier => simp [add]
  | reference identifier name => exact Nat.le_refl _

theorem Rooted.add (h : t.Rooted) (hc : current < t.scopes.length) (x : Addition) :
    (t.add current x).Rooted := by
  cases x with
  | scope kind node nodeType => exact h.push rfl hc
  | binding reach name type node identifier => exact h.define _ _ _ _ _
  | reference identifier name =>
    refine ⟨h.program, h.parent, fun r hr => ?_⟩
    rcases mem_append.mp hr with hr | hr
    · exact h.references r hr
    · rw [mem_singleton.mp hr]
      exact hc

theorem Rooted.addAll (h : t.Rooted) (hc : current < t.scopes.length) (xs : List Addition) :
    (t.addAll current xs).Rooted := by
  induction xs generalizing t with
  | nil => exact h
  | cons x xs ih => exact ih (h.add hc x) (Nat.lt_of_lt_of_le hc (t.length_le_add current x))

theorem scopeOf?_lt {id : NodeId} (h : t.scopeOf? id = some i) : i < t.scopes.length := by
  obtain ⟨⟨j, s⟩, hmem, hj⟩ := exists_of_findSome?_eq_some h
  have hrange := (of_mem_zip (mem_reverse.mp hmem)).1
  simp only at hj
  split at hj
  · rw [← Option.some.inj hj]
    exact mem_range.mp hrange
  · cases hj

theorem Rooted.length_pos (h : t.Rooted) : 0 < t.scopes.length := by
  obtain ⟨s, hs, -⟩ := h.program
  exact (List.getElem?_eq_some_iff.mp hs).1

theorem Rooted.enclosing_lt (h : t.Rooted) (π : Path) : t.enclosing π < t.scopes.length := by
  induction π with
  | nil => exact h.length_pos
  | cons s π ih =>
    unfold enclosing
    split
    · cases hs : t.scopeOf? s.owner.id with
      | none => exact h.length_pos
      | some i => exact scopeOf?_lt hs
    · exact ih

theorem Rooted.enterAll (h : t.Rooted) (ps : List Place) : (t.enterAll ps).Rooted := by
  induction ps generalizing t with
  | nil => exact h
  | cons p ps ih => exact ih (h.addAll (h.enclosing_lt p.path) p.added)

theorem rooted_ofTree {root : Tree} (h : ofTree root = .ok t) : t.Rooted := by
  obtain ⟨-, rfl⟩ := ofTree_ok.mp h
  exact (rooted_initial root).enterAll _

/-! ## Following a chain -/

theorem Rooted.parent_lt (h : t.Rooted) (hs : t.scopes[i]? = some s) (hp : s.parent = some p) : p < i := by
  cases i with
  | zero =>
    obtain ⟨s₀, hs₀, -, hnone⟩ := h.program
    rw [hs] at hs₀
    rw [Option.some.inj hs₀, hnone] at hp
    cases hp
  | succ i =>
    obtain ⟨q, hq, hparent⟩ := h.parent hs
    rw [hp] at hparent
    rw [Option.some.inj hparent]
    omega

theorem Rooted.chainFrom_eq (h : t.Rooted) {fuel : Nat} (hf : i < fuel) : t.chainFrom fuel i = t.chain i := by
  induction i using Nat.strongRecOn generalizing fuel with
  | ind i ih =>
    obtain ⟨fuel, rfl⟩ : ∃ n, fuel = n + 1 := ⟨fuel - 1, by omega⟩
    unfold chain chainFrom
    cases hs : t.scopes[i]? with
    | none => rfl
    | some s =>
      simp only
      cases hp : s.parent with
      | none => rfl
      | some p =>
        have hlt : p < i := h.parent_lt hs hp
        simp only
        rw [ih p hlt (by omega : p < fuel), ih p hlt (by omega : p < i)]

theorem Rooted.chain_succ (h : t.Rooted) (hs : t.scopes[i + 1]? = some s) (hp : s.parent = some p) :
    t.chain (i + 1) = (i + 1) :: t.chain p := by
  obtain ⟨q, hq, hparent⟩ := h.parent hs
  obtain rfl : p = q := Option.some.inj (hp.symm.trans hparent)
  conv_lhs => unfold chain chainFrom
  rw [hs]
  simp only [hp]
  rw [h.chainFrom_eq (by omega)]

theorem Rooted.scopesOn_zero (h : t.Rooted) :
    ∃ s, t.scopes[0]? = some s ∧ s.kind = .program ∧ t.scopesOn 0 = [(0, s)] := by
  obtain ⟨s, hs, hkind, hparent⟩ := h.program
  refine ⟨s, hs, hkind, ?_⟩
  unfold scopesOn chain chainFrom
  simp [hparent, hs]

theorem Rooted.scopesOn_succ (h : t.Rooted) (hs : t.scopes[i + 1]? = some s) (hp : s.parent = some p) :
    t.scopesOn (i + 1) = (i + 1, s) :: t.scopesOn p := by
  unfold scopesOn
  rw [h.chain_succ hs hp, filterMap_cons, hs]
  rfl

theorem Rooted.scopesOn_eq (h : t.Rooted) {s : Scope} (hs : t.scopes[i]? = some s) :
    t.scopesOn i = (i, s) :: match s.parent with
      | none => []
      | some p => t.scopesOn p := by
  cases i with
  | zero =>
    obtain ⟨s₀, hs₀, -, hparent⟩ := h.program
    obtain ⟨s₁, hs₁, -, hon⟩ := h.scopesOn_zero
    obtain rfl : s₀ = s := Option.some.inj (hs₀.symm.trans hs)
    obtain rfl : s₁ = s₀ := Option.some.inj (hs₁.symm.trans hs)
    rw [hon, hparent]
  | succ i =>
    obtain ⟨p, -, hparent⟩ := h.parent hs
    rw [h.scopesOn_succ hs hparent, hparent]

theorem Rooted.mem_scopesOn_self (h : t.Rooted) (hs : t.scopes[i]? = some s) : (i, s) ∈ t.scopesOn i := by
  rw [h.scopesOn_eq hs]
  exact mem_cons_self

theorem mem_scopesOn (h : x ∈ t.scopesOn i) : t.scopes[x.1]? = some x.2 := by
  obtain ⟨j, -, hj⟩ := mem_filterMap.mp h
  obtain ⟨s, hs, rfl⟩ := Option.map_eq_some_iff.mp hj
  exact hs

theorem scope_of_split (heq : t.scopesOn i = pre ++ x :: post) :
    t.scopes[x.1]? = some x.2 ∧ ∀ y ∈ pre, t.scopes[y.1]? = some y.2 := by
  constructor
  · exact mem_scopesOn (i := i) (by simp [heq])
  · intro y hy
    exact mem_scopesOn (i := i) (by simp [heq, hy])

/-- The rest of a chain is the chain of the scope that it begins with. -/
theorem Rooted.scopesOn_of_split (h : t.Rooted)
    (heq : t.scopesOn i = pre ++ x :: post) : t.scopesOn x.1 = x :: post := by
  induction pre generalizing i with
  | nil =>
    cases hs : t.scopes[i]? with
    | none => simp [scopesOn, chain, chainFrom, hs] at heq
    | some s =>
      have hon := h.scopesOn_eq hs
      rw [heq, nil_append] at hon
      obtain ⟨rfl, -⟩ := List.cons.inj hon
      exact heq
  | cons y pre ih =>
    cases hs : t.scopes[i]? with
    | none => simp [scopesOn, chain, chainFrom, hs] at heq
    | some s =>
      have hon := h.scopesOn_eq hs
      rw [heq, cons_append] at hon
      have hrest := (List.cons.inj hon).2
      cases hp : s.parent with
      | none => simp [hp] at hrest
      | some p =>
        rw [hp] at hrest
        exact ih hrest.symm

theorem Rooted.variableScope?_of_ne (h : t.Rooted) (hs : t.scopes[i]? = some s) (hkind : s.kind ≠ .block) :
    t.variableScope? i = some i := by
  unfold variableScope?
  rw [h.scopesOn_eq hs, find?_cons_of_pos (by simpa using hkind)]
  rfl

theorem Rooted.variableScope?_of_block (h : t.Rooted) (hs : t.scopes[i]? = some s) (hkind : s.kind = .block)
    (hp : s.parent = some p) : t.variableScope? i = t.variableScope? p := by
  unfold variableScope?
  rw [h.scopesOn_eq hs, find?_cons_of_neg (by simp [hkind]), hp]

/-- What holds of a chain of scopes can be shown from the program inwards. -/
theorem Rooted.induction (h : t.Rooted) {P : Nat → Prop} (program : P 0)
    (step : ∀ {i p : Nat} {s : Scope}, t.scopes[i + 1]? = some s → s.parent = some p → P p → P (i + 1))
    (hi : i < t.scopes.length) : P i := by
  induction i using Nat.strongRecOn with
  | ind i ih =>
    cases i with
    | zero => exact program
    | succ i =>
      obtain ⟨s, hs⟩ : ∃ s, t.scopes[i + 1]? = some s := ⟨_, getElem?_eq_getElem hi⟩
      obtain ⟨p, hp, hparent⟩ := h.parent hs
      exact step hs hparent (ih p (by omega) (by omega))

/-- The chain of every scope ends at the program. -/
theorem Rooted.getLast?_chain (h : t.Rooted) (hi : i < t.scopes.length) : (t.chain i).getLast? = some 0 := by
  refine h.induction (P := fun i => (t.chain i).getLast? = some 0) ?_ ?_ hi
  · obtain ⟨s, hs, -, hparent⟩ := h.program
    simp [chain, chainFrom, hs, hparent]
  · intro i p s hs hp ih
    rw [h.chain_succ hs hp, getLast?_cons, ih]
    rfl

theorem Rooted.program_mem_scopesOn (h : t.Rooted) (hi : i < t.scopes.length) :
    ∃ s, s.kind = .program ∧ (0, s) ∈ t.scopesOn i := by
  refine h.induction (P := fun i => ∃ s, s.kind = .program ∧ (0, s) ∈ t.scopesOn i) ?_ ?_ hi
  · obtain ⟨s, -, hkind, hon⟩ := h.scopesOn_zero
    exact ⟨s, hkind, by simp [hon]⟩
  · rintro i p s hs hp ⟨s₀, hkind, hmem⟩
    rw [h.scopesOn_succ hs hp]
    exact ⟨s₀, hkind, mem_cons_of_mem _ hmem⟩

theorem Rooted.owner?_isSome (h : t.Rooted) (hi : i < t.scopes.length) : (t.owner? i).isSome := by
  obtain ⟨s, hkind, hmem⟩ := h.program_mem_scopesOn hi
  rw [owner?, Option.isSome_map, find?_isSome]
  exact ⟨_, hmem, by simp [Scope.isTransparent, hkind]⟩

theorem Rooted.variableScope?_isSome (h : t.Rooted) (hi : i < t.scopes.length) : (t.variableScope? i).isSome := by
  obtain ⟨s, hkind, hmem⟩ := h.program_mem_scopesOn hi
  rw [variableScope?, Option.isSome_map, find?_isSome]
  exact ⟨_, hmem, by simp [hkind]⟩

end ArrowFree.ScopeTable
