import ArrowFree.Proofs.Entering
import ArrowFree.Proofs.Numbering

/-!
# The table of a tree with distinct nodes

If the nodes of a tree have distinct identities, its table can be read off the finished tree: the parent
of a scope is the innermost scope around the place that opens it, a declaration is in the scope that it
reaches from its place, and a reference is in the innermost scope around it (`outlined_ofTree`). While the
table is built this holds of the places entered so far, since what comes later neither renumbers a scope
nor puts another one around a place (`Outlined.enter`).
-/

namespace ArrowFree

open List

variable {scope : Reach → Nat} {i : Nat} {reach : Reach} {p : Place} {x : Addition}

/-- The declaration in a scope, where it is known which scope each reach stands for. -/
def Addition.declarationIn (scope : Reach → Nat) (i : Nat) : Addition → Option Declaration
  | .binding reach name type node identifier =>
    if scope reach = i then some ⟨name, type, node, identifier⟩ else none
  | _ => none

/-- What a place declares in a scope. -/
def Place.declarations (p : Place) (scope : Reach → Nat) (i : Nat) : List Declaration :=
  p.added.filterMap (Addition.declarationIn scope i)

theorem declarationIn_bindsTo {xs : List Addition} (h : ∀ x ∈ xs, x.BindsTo reach) :
    xs.filterMap (Addition.declarationIn scope i) =
      if scope reach = i then xs.filterMap Addition.declaration? else [] := by
  by_cases hi : scope reach = i
  · rw [if_pos hi]
    refine filterMap_congr ?_
    intro x hx
    obtain ⟨name, type, node, identifier, rfl⟩ := h x hx
    exact if_pos hi
  · rw [if_neg hi, filterMap_eq_nil_iff]
    intro x hx
    obtain ⟨name, type, node, identifier, rfl⟩ := h x hx
    exact if_neg hi

theorem mem_declarations {d : Declaration} :
    d ∈ p.declarations scope i ↔ ∃ reach, scope reach = i ∧
      .binding reach d.name d.type d.node d.identifier ∈ p.added := by
  unfold Place.declarations
  rw [mem_filterMap]
  constructor
  · rintro ⟨x, hx, hd⟩
    cases x with
    | binding reach name type node identifier =>
      simp only [Addition.declarationIn] at hd
      split at hd
      · rename_i hi
        cases hd
        exact ⟨reach, hi, hx⟩
      · cases hd
    | scope | reference => cases hd
  · rintro ⟨reach, hi, hx⟩
    exact ⟨_, hx, if_pos hi⟩

/-- Only a place that opens a scope declares in one of its own. -/
theorem Place.opens?_of_own (hp : p.additions = .ok p.added) (hx : x ∈ p.added) (hown : x.BindsTo .own) :
    ∃ kind, p.opens? = some kind := by
  obtain ⟨name, type, node, identifier, rfl⟩ := hown
  cases ho : p.opens? with
  | some kind => exact ⟨kind, rfl⟩
  | none =>
    rcases additions_leaf ho hp with heq | ⟨_, r, heq, hr, _, _, _, _, rfl⟩ | ⟨heq, -⟩
    · simp [heq] at hx
    · rw [heq, mem_singleton] at hx
      cases hx
      exact absurd rfl hr
    · simp [heq] at hx

namespace ScopeTable

variable {kind : ScopeKind} {u : ScopeTable} {known : List Place} {π : Path} {s : Scope}

/-! ## Entering a place -/

variable {t : ScopeTable} {p : Place}

/-- The scope that a declaration at a place is for, if the scopes that it can reach are in the table. -/
def target (t : ScopeTable) (p : Place) : Reach → Nat
  | .own => t.number p.node.id
  | .innermost => t.enclosing p.path
  | .variable => (t.variableScope? (t.enclosing p.path)).getD 0

/-- The same for a place that is about to be entered: a scope that it opens comes last. -/
def goal (t : ScopeTable) (p : Place) : Reach → Nat
  | .own => t.scopes.length
  | reach => t.target p reach

/-- The table after the additions of a place. -/
def entered (t : ScopeTable) (p : Place) : ScopeTable := t.addAll (t.enclosing p.path) p.added

theorem entered_of_additions (t : ScopeTable) {as : List Addition} (h : p.additions = .ok as) :
    t.entered p = t.addAll (t.enclosing p.path) as := by
  rw [entered, Place.added, h]
  rfl

theorem Rooted.variableScope_lt (h : t.Rooted) (i : Nat) : (t.variableScope? i).getD 0 < t.scopes.length := by
  unfold variableScope?
  cases hf : (t.scopesOn i).find? fun x => x.2.kind ≠ .block with
  | none => exact h.length_pos
  | some x =>
    obtain ⟨j, -, hj⟩ := mem_filterMap.mp (mem_of_find?_eq_some hf)
    obtain ⟨s, hs, rfl⟩ := Option.map_eq_some_iff.mp hj
    exact (List.getElem?_eq_some_iff.mp hs).1

theorem Rooted.goal_lt (h : t.Rooted) (p : Place) (hr : reach ≠ .own) : t.goal p reach < t.scopes.length := by
  cases reach with
  | own => exact absurd rfl hr
  | innermost => exact h.enclosing_lt p.path
  | «variable» => exact h.variableScope_lt _

theorem entered_leaf (ht : t.Rooted) (hp : p.additions = .ok p.added) (ho : p.opens? = none) :
    (t.entered p).scopes.length = t.scopes.length ∧
    (∀ id, (t.entered p).number id = t.number id) ∧
    t.Grows (t.entered p) (p.declarations (t.goal p)) ∧
    ((t.entered p).references = t.references ∨
      (t.entered p).references = t.references ++ [⟨p.node.id, p.node.name?, t.enclosing p.path⟩] ∧
        p.node.is .identifier ∧ p.isReference) := by
  unfold entered Place.declarations
  rcases Place.additions_leaf ho hp with heq | ⟨x, reach, heq, hr, hx⟩ | ⟨heq, hid, href⟩
  · rw [heq]
    exact ⟨rfl, fun id => rfl, grows_self t, Or.inl rfl⟩
  · rw [heq]
    have hxs : ∀ y ∈ [x], y.BindsTo reach := by
      intro y hy
      rw [mem_singleton.mp hy]
      exact hx
    obtain ⟨hrefs, hlength, hnumber, hgrows⟩ := addAll_bindings ht (ht.enclosing_lt p.path) hxs
    refine ⟨hlength, hnumber, hgrows.congr fun i => ?_, Or.inl hrefs⟩
    have hsame : t.reached (t.enclosing p.path) reach = t.goal p reach := by
      cases reach with
      | own => exact absurd rfl hr
      | innermost => rfl
      | «variable» => rfl
    rw [declarationIn_bindsTo hxs, hsame]
  · rw [heq]
    exact ⟨rfl, fun id => rfl, grows_self t, Or.inr ⟨rfl, hid, href⟩⟩

theorem entered_opening (ht : t.Rooted) (hp : p.additions = .ok p.added) (ho : p.opens? = some kind) :
    (t.entered p).references = t.references ∧
    (t.entered p).scopes.length = t.scopes.length + 1 ∧
    (∀ id, (t.entered p).number id = if p.node.id = id then t.scopes.length else t.number id) ∧
    t.Grows (t.entered p) (p.declarations (t.goal p)) ∧
    ∃ s, (t.entered p).scopes[t.scopes.length]? = some s ∧
      s.bare = ⟨kind, p.node.id, p.node.type?.getD .null, some (t.enclosing p.path), [], []⟩ ∧
      s.Holds (p.declarations (t.goal p) t.scopes.length) := by
  obtain ⟨outs, ins, heq, houts, hins⟩ := Place.additions_opening ho hp
  unfold entered Place.declarations
  rw [heq]
  obtain ⟨hrefs, hlength, hnumber, hgrows, s, hs, hbare, hholds⟩ :=
    addAll_opening ht (ht.enclosing_lt p.path) kind p.node.id (p.node.type?.getD .null) houts hins
  have hmore : ∀ i, (outs ++ .scope kind p.node.id (p.node.type?.getD .null) :: ins).filterMap
      (Addition.declarationIn (t.goal p) i) =
        (if t.goal p .variable = i then outs.filterMap Addition.declaration? else []) ++
          if t.scopes.length = i then ins.filterMap Addition.declaration? else [] := by
    intro i
    rw [filterMap_append, declarationIn_bindsTo houts, filterMap_cons_none rfl,
      declarationIn_bindsTo hins]
    rfl
  have hvar : t.goal p .variable < t.scopes.length := ht.goal_lt p nofun
  refine ⟨hrefs, hlength, hnumber, fun i s hs => ?_, s, hs, hbare, ?_⟩
  · obtain ⟨s', hs', hbare', hholds'⟩ := hgrows i s hs
    have hi := (List.getElem?_eq_some_iff.mp hs).1
    beta_reduce
    rw [hmore, if_neg (by omega : t.scopes.length ≠ i), append_nil]
    exact ⟨s', hs', hbare', hholds'⟩
  · rw [hmore, if_neg (by omega), if_pos rfl, nil_append]
    exact hholds

/-! ## The places entered so far -/

/-- What the places declare in a scope of the table. -/
def declarationsIn (t : ScopeTable) (known : List Place) (i : Nat) : List Declaration :=
  known.flatMap fun p => p.declarations (t.target p) i

/-- The table is that of these places. -/
structure Outlined (t : ScopeTable) (known : List Place) : Prop where
  rooted : t.Rooted
  closed : ∀ p ∈ known, p.path.Known known
  /-- A place that opens a scope has one, in the innermost scope around the place. -/
  opened : ∀ p ∈ known, ∀ kind, p.opens? = some kind →
    ∃ s, t.scopes[t.number p.node.id]? = some s ∧ s.kind = kind ∧ s.node = p.node.id ∧
      s.parent = some (t.enclosing p.path)
  /-- Every scope but the first was opened by a place. -/
  scopes : ∀ i s, t.scopes[i + 1]? = some s →
    ∃ p ∈ known, p.opens? = some s.kind ∧ t.number p.node.id = i + 1
  declared : ∀ (i : Nat) (s : Scope), t.scopes[i]? = some s → s.Holds (t.declarationsIn known i)
  references : ∀ r ∈ t.references, ∃ p ∈ known, p.node.is .identifier ∧ p.isReference ∧
    r = ⟨p.node.id, p.node.name?, t.enclosing p.path⟩

theorem Rooted.number_lt (h : t.Rooted) (id : NodeId) : t.number id < t.scopes.length := by
  unfold number
  cases hs : t.scopeOf? id with
  | none => exact h.length_pos
  | some i => exact scopeOf?_lt hs

theorem Rooted.target_lt (h : t.Rooted) (p : Place) (reach : Reach) : t.target p reach < t.scopes.length := by
  cases reach with
  | own => exact h.number_lt _
  | innermost => exact h.enclosing_lt p.path
  | «variable» => exact h.variableScope_lt _

theorem enclosing_congr (hnumber : ∀ q ∈ known, u.number q.node.id = t.number q.node.id) (h : π.Known known) :
    u.enclosing π = t.enclosing π := by
  induction π with
  | nil => rfl
  | cons s π ih =>
    rw [enclosing_cons, enclosing_cons, ih h.2, hnumber ⟨s.owner, π⟩ h.1]

theorem Grows.extends {more : Nat → List Declaration} (h : t.Grows u more) : t.Extends u := by
  intro i s hs
  obtain ⟨s', hs', hbare, -⟩ := h i s hs
  exact ⟨s', hs', hbare⟩

theorem rooted_entered (h : t.Rooted) (p : Place) : (t.entered p).Rooted :=
  h.addAll (h.enclosing_lt p.path) p.added

theorem entered_old (ht : t.Rooted) (hp : p.additions = .ok p.added) :
    (∀ id ≠ p.node.id, (t.entered p).number id = t.number id) ∧
      t.Grows (t.entered p) (p.declarations (t.goal p)) := by
  cases ho : p.opens? with
  | none =>
    obtain ⟨-, hnumber, hgrows, -⟩ := entered_leaf ht hp ho
    exact ⟨fun id _ => hnumber id, hgrows⟩
  | some kind =>
    obtain ⟨-, -, hnumber, hgrows, -⟩ := entered_opening ht hp ho
    exact ⟨fun id hid => (hnumber id).trans (if_neg hid.symm), hgrows⟩

/-- The scope that a declaration was for is the one that it reaches afterwards. -/
theorem target_entered (ht : t.Rooted) (hp : p.additions = .ok p.added)
    (hpath : (t.entered p).enclosing p.path = t.enclosing p.path) (hx : x ∈ p.added)
    (hreach : x.BindsTo reach) : (t.entered p).target p reach = t.goal p reach := by
  cases reach with
  | own =>
    obtain ⟨kind, ho⟩ := Place.opens?_of_own hp hx hreach
    obtain ⟨-, -, hnumber, -⟩ := entered_opening ht hp ho
    exact (hnumber p.node.id).trans (if_pos rfl)
  | innermost => exact hpath
  | «variable» =>
    show ((t.entered p).variableScope? ((t.entered p).enclosing p.path)).getD 0 = _
    rw [hpath, (entered_old ht hp).2.extends.variableScope? ht (rooted_entered ht p)
      (ht.enclosing_lt p.path)]
    rfl

theorem Outlined.opener (h : t.Outlined known) (hs : t.scopes[i]? = some s) (hkind : s.kind ≠ .program) :
    ∃ p ∈ known, p.opens? = some s.kind ∧ p.node.id = s.node ∧ t.number s.node = i := by
  cases i with
  | zero =>
    obtain ⟨s₀, hs₀, hprogram, -⟩ := h.rooted.program
    rw [hs₀] at hs
    cases hs
    exact absurd hprogram hkind
  | succ i =>
    obtain ⟨p, hp, hopens, hi⟩ := h.scopes i s hs
    obtain ⟨s', hs', -, hnode, -⟩ := h.opened p hp s.kind hopens
    rw [hi, hs] at hs'
    cases hs'
    exact ⟨p, hp, hopens, hnode.symm, hnode ▸ hi⟩

theorem Outlined.number_node (h : t.Outlined known) (hs : t.scopes[i]? = some s) (hkind : s.kind ≠ .program) :
    t.number s.node = i :=
  let ⟨_, _, _, _, hi⟩ := h.opener hs hkind
  hi

/-- A table without a scope for more declarations has none for those of the places. -/
theorem Outlined.declarationsIn_length (h : t.Outlined known) :
    t.declarationsIn known t.scopes.length = [] := by
  refine flatMap_eq_nil_iff.mpr fun q hq => eq_nil_iff_forall_not_mem.mpr ?_
  intro d hd
  obtain ⟨reach, hreach, -⟩ := mem_declarations.mp hd
  exact absurd hreach (Nat.ne_of_lt (h.rooted.target_lt q reach))

theorem Outlined.closed_append (h : t.Outlined known) (hpath : p.path.Known known) :
    ∀ q ∈ known ++ [p], q.path.Known (known ++ [p]) := by
  intro q hq
  refine Path.Known.mono (subset_append_left _ _) ?_
  rcases mem_append.mp hq with hq | hq
  · exact h.closed q hq
  · rw [mem_singleton.mp hq]
    exact hpath

section Step

variable {t : ScopeTable} {known : List Place} {p q : Place} (h : t.Outlined known)
  (hp : p.additions = .ok p.added) (hpath : p.path.Known known)
  (hnew : ∀ q ∈ known, q.node.id ≠ p.node.id)
include h hp hnew

theorem Outlined.enclosing_entered (hπ : π.Known known) : (t.entered p).enclosing π = t.enclosing π :=
  enclosing_congr (fun q hq => (entered_old h.rooted hp).1 _ (hnew q hq)) hπ

theorem Outlined.target_old (hq : q ∈ known) : (t.entered p).target q = t.target q := by
  obtain ⟨hnumber, hgrows⟩ := entered_old h.rooted hp
  have henclosing := h.enclosing_entered hp hnew (h.closed q hq)
  funext reach
  cases reach with
  | own => exact hnumber _ (hnew q hq)
  | innermost => exact henclosing
  | «variable» =>
    show ((t.entered p).variableScope? ((t.entered p).enclosing q.path)).getD 0 = _
    rw [henclosing, hgrows.extends.variableScope? h.rooted (rooted_entered h.rooted p)
      (h.rooted.enclosing_lt q.path)]
    rfl

theorem Outlined.opened_old (hq : q ∈ known) (ho : q.opens? = some kind) :
    ∃ s, (t.entered p).scopes[(t.entered p).number q.node.id]? = some s ∧ s.kind = kind ∧
      s.node = q.node.id ∧ s.parent = some ((t.entered p).enclosing q.path) := by
  obtain ⟨hnumber, hgrows⟩ := entered_old h.rooted hp
  obtain ⟨s, hs, hkind, hnode, hparent⟩ := h.opened q hq kind ho
  obtain ⟨s', hs', hbare, -⟩ := hgrows _ _ hs
  rw [hnumber _ (hnew q hq), h.enclosing_entered hp hnew (h.closed q hq)]
  exact ⟨s', hs', (congrArg Scope.kind hbare).trans hkind, (congrArg Scope.node hbare).trans hnode,
    (congrArg Scope.parent hbare).trans hparent⟩

theorem Outlined.scopes_old (hi : i + 1 < t.scopes.length) (hs : (t.entered p).scopes[i + 1]? = some s) :
    ∃ q ∈ known, q.opens? = some s.kind ∧ (t.entered p).number q.node.id = i + 1 := by
  obtain ⟨hnumber, hgrows⟩ := entered_old h.rooted hp
  obtain ⟨s₀, hs₀⟩ : ∃ s₀, t.scopes[i + 1]? = some s₀ := ⟨_, getElem?_eq_getElem hi⟩
  obtain ⟨s', hs', hbare, -⟩ := hgrows _ s₀ hs₀
  obtain rfl : s' = s := Option.some.inj (hs'.symm.trans hs)
  obtain ⟨q, hq, ho, hi⟩ := h.scopes i s₀ hs₀
  exact ⟨q, hq, ho.trans (congrArg (some ·.kind) hbare.symm), (hnumber _ (hnew q hq)).trans hi⟩

include hpath

theorem Outlined.declarationsIn_entered (i : Nat) : (t.entered p).declarationsIn (known ++ [p]) i =
      t.declarationsIn known i ++ p.declarations (t.goal p) i := by
  unfold declarationsIn
  rw [flatMap_append]
  congr 1
  · refine flatMap_congr ?_
    intro q hq
    rw [h.target_old hp hnew hq]
  · rw [flatMap_singleton]
    refine filterMap_congr ?_
    intro x hx
    cases x with
    | binding reach name type node identifier =>
      simp only [Addition.declarationIn]
      rw [target_entered h.rooted hp (h.enclosing_entered hp hnew hpath) hx ⟨_, _, _, _, rfl⟩]
    | scope | reference => rfl

theorem Outlined.declared_old (hi : i < t.scopes.length) (hs : (t.entered p).scopes[i]? = some s) :
    s.Holds ((t.entered p).declarationsIn (known ++ [p]) i) := by
  obtain ⟨s₀, hs₀⟩ : ∃ s₀, t.scopes[i]? = some s₀ := ⟨_, getElem?_eq_getElem hi⟩
  obtain ⟨s', hs', -, hholds⟩ := (entered_old h.rooted hp).2 i s₀ hs₀
  obtain rfl : s' = s := Option.some.inj (hs'.symm.trans hs)
  rw [h.declarationsIn_entered hp hpath hnew]
  exact hholds _ (h.declared i s₀ hs₀)

/-- **Entering one more place.** -/
theorem Outlined.enter : (t.entered p).Outlined (known ++ [p]) := by
  have hrefs_old : ∀ r ∈ t.references, ∃ q ∈ known ++ [p], q.node.is .identifier ∧ q.isReference ∧
      r = ⟨q.node.id, q.node.name?, (t.entered p).enclosing q.path⟩ := by
    intro r hr
    obtain ⟨q, hq, hid, href, rfl⟩ := h.references r hr
    refine ⟨q, mem_append_left _ hq, hid, href, ?_⟩
    rw [h.enclosing_entered hp hnew (h.closed q hq)]
  cases ho : p.opens? with
  | none =>
    obtain ⟨hlength, hnumber, -, hrefs⟩ := entered_leaf h.rooted hp ho
    refine ⟨rooted_entered h.rooted p, h.closed_append hpath, ?_, ?_, ?_, ?_⟩
    · intro q hq kind hk
      rcases mem_append.mp hq with hq | hq
      · exact h.opened_old hp hnew hq hk
      · rw [mem_singleton.mp hq, ho] at hk
        cases hk
    · intro i s hs
      have hi := (List.getElem?_eq_some_iff.mp hs).1
      obtain ⟨q, hq, hk⟩ := h.scopes_old hp hnew (by omega) hs
      exact ⟨q, mem_append_left _ hq, hk⟩
    · intro i s hs
      have hi := (List.getElem?_eq_some_iff.mp hs).1
      exact h.declared_old hp hpath hnew (by omega) hs
    · intro r hr
      rcases hrefs with hsame | ⟨hmore, hid, href⟩
      · exact hrefs_old r (hsame ▸ hr)
      · rw [hmore] at hr
        rcases mem_append.mp hr with hr | hr
        · exact hrefs_old r hr
        · refine ⟨p, by simp, hid, href, ?_⟩
          rw [h.enclosing_entered hp hnew hpath]
          exact mem_singleton.mp hr
  | some kind =>
    obtain ⟨hrefs, hlength, hnumber, -, s₁, hs₁, hbare, hholds⟩ := entered_opening h.rooted hp ho
    have hself : (t.entered p).number p.node.id = t.scopes.length :=
      (hnumber p.node.id).trans (if_pos rfl)
    refine ⟨rooted_entered h.rooted p, h.closed_append hpath, ?_, ?_, ?_, ?_⟩
    · intro q hq k hk
      rcases mem_append.mp hq with hq | hq
      · exact h.opened_old hp hnew hq hk
      · obtain rfl := mem_singleton.mp hq
        rw [ho] at hk
        cases hk
        rw [hself, h.enclosing_entered hp hnew hpath]
        exact ⟨s₁, hs₁, congrArg Scope.kind hbare, congrArg Scope.node hbare,
          congrArg Scope.parent hbare⟩
    · intro i s hs
      have hi := (List.getElem?_eq_some_iff.mp hs).1
      by_cases hlast : i + 1 = t.scopes.length
      · rw [hlast, hs₁] at hs
        cases hs
        exact ⟨p, by simp, ho.trans (congrArg (some ·.kind) hbare.symm), hself.trans hlast.symm⟩
      · obtain ⟨q, hq, hk⟩ := h.scopes_old hp hnew (by omega) hs
        exact ⟨q, mem_append_left _ hq, hk⟩
    · intro i s hs
      have hi := (List.getElem?_eq_some_iff.mp hs).1
      by_cases hlast : i = t.scopes.length
      · rw [hlast, hs₁] at hs
        cases hs
        rw [hlast, h.declarationsIn_entered hp hpath hnew, h.declarationsIn_length]
        exact hholds
      · exact h.declared_old hp hpath hnew (by omega) hs
    · exact fun r hr => hrefs_old r (hrefs ▸ hr)

end Step

theorem outlined_initial (root : Tree) : (initial root).Outlined [] where
  rooted := rooted_initial root
  closed := by simp
  opened := by simp
  scopes i s hs := by simp [initial] at hs
  declared i s hs := by
    obtain ⟨rfl, rfl⟩ : i = 0 ∧ ⟨.program, root.id, root.type?.getD .null, none, [], []⟩ = s := by
      cases i with
      | zero => exact ⟨rfl, Option.some.inj hs⟩
      | succ i => simp [initial] at hs
    rfl
  references := by simp [initial]

theorem Outlined.enterAll {ps : List Place} (h : t.Outlined known) (hps : ∀ p ∈ ps, p.additions = .ok p.added)
    (horder : OwnersFirst known ps) (hnodup : ((known ++ ps).map fun p => p.node.id).Nodup) :
    (t.enterAll ps).Outlined (known ++ ps) := by
  induction ps generalizing t known with
  | nil => rwa [append_nil]
  | cons p ps ih =>
    have hnew : ∀ q ∈ known, q.node.id ≠ p.node.id := by
      intro q hq
      rw [map_append, nodup_append] at hnodup
      exact hnodup.2.2 _ (mem_map.mpr ⟨q, hq, rfl⟩) _ (by simp)
    have hstep := h.enter (hps p mem_cons_self) horder.1 hnew
    have hsplit : known ++ p :: ps = known ++ [p] ++ ps := by simp
    rw [hsplit] at hnodup ⊢
    exact ih hstep (fun q hq => hps q (.tail _ hq)) horder.2 hnodup

/-- **The table of a tree** whose nodes have distinct identities. -/
theorem outlined_ofTree {root : Tree} (hd : root.Distinct) (h : ofTree root = .ok t) : t.Outlined root.places := by
  obtain ⟨hadded, rfl⟩ := ofTree_ok.mp h
  have hnodup : (root.places.map fun p => p.node.id).Nodup := by
    have := hd.nodup
    rwa [Tree.nodes, map_map] at this
  exact (outlined_initial root).enterAll hadded root.ownersFirst_places hnodup

end ScopeTable

end ArrowFree
