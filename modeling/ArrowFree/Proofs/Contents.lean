import ArrowFree.Proofs.Declaring
import ArrowFree.Proofs.Outline

/-!
# What a scope contains

The scopes on the chain of a place are those of the nodes around it that open one. So the node of a scope
contains the places from which the scope is seen (`node_of_scope`), the nodes of the scopes within it
(`node_of_before`) and the identifiers that declare in it (`identifier_of_declared`). An identifier
declares for one scope at most, and a reference declares nothing.
-/

namespace ArrowFree.ScopeTable

open ArrowFree.Tree List

variable {t : ScopeTable} {π : Path} {known : List Place} {p : Place} {reach : Reach}

/-! ## Scopes around a place -/

theorem enclosing_of_not_opens {s : Step} (h : Place.opens? ⟨s.owner, π⟩ = none) :
    t.enclosing (s :: π) = t.enclosing π := by
  rw [enclosing_cons, h]
  rfl

theorem Outlined.scopesOn_opens (h : t.Outlined known) {s : Step} (hs : ⟨s.owner, π⟩ ∈ known)
    {kind : ScopeKind} (ho : Place.opens? ⟨s.owner, π⟩ = some kind) :
    ∃ sc, t.scopes[t.number s.owner.id]? = some sc ∧ sc.kind = kind ∧ sc.node = s.owner.id ∧
      t.scopesOn (t.enclosing (s :: π)) =
        (t.number s.owner.id, sc) :: t.scopesOn (t.enclosing π) := by
  obtain ⟨sc, hsc, hkind, hnode, hparent⟩ := h.opened _ hs kind ho
  refine ⟨sc, hsc, hkind, hnode, ?_⟩
  rw [enclosing_cons, ho, Option.isSome_some, if_pos rfl, h.rooted.scopesOn_eq hsc, hparent]

theorem mem_declarationsIn {d : Declaration} {i : Nat} (hdec : d ∈ t.declarationsIn known i) :
    ∃ p ∈ known, ∃ reach, t.target p reach = i ∧
      .binding reach d.name d.type d.node d.identifier ∈ p.added := by
  obtain ⟨p, hp, hd⟩ := mem_flatMap.mp hdec
  obtain ⟨reach, hreach, hmem⟩ := mem_declarations.mp hd
  exact ⟨p, hp, reach, hreach, hmem⟩

theorem mem_places_of_declaring {root : Tree} (hp : p ∈ root.places) {name : Text} {type : BindingType}
    {owner identifier : NodeId} {o : Occurrence} (ho : Declaring p reach name type owner identifier o) :
    ⟨o.tree, o.step p.node :: p.path⟩ ∈ root.places :=
  mem_places_cons.mpr ⟨hp, ho.occurs, ho.isNode⟩

section

variable {root : Tree} {t : ScopeTable} (h : t.Outlined root.places)
variable {d : Declaration} {i : Nat} {s : Scope} {x : Nat × Scope} {r : Reference}
include h

/-- The nodes whose scopes are seen from a place contain it. -/
theorem Outlined.node_of_scope (hp : p ∈ root.places) (hx : x ∈ t.scopesOn (t.enclosing p.path))
    (hkind : x.2.kind ≠ .program) : ∃ n ∈ root.nodes, n.id = x.2.node ∧ p.node ∈ n.nodes := by
  obtain ⟨n, π⟩ := p
  induction π generalizing n with
  | nil =>
    obtain ⟨s, -, hprogram, hon⟩ := h.rooted.scopesOn_zero
    change x ∈ t.scopesOn 0 at hx
    rw [hon, mem_singleton] at hx
    exact absurd (hx ▸ hprogram) hkind
  | cons s π ih =>
    have howner := (mem_places_cons.mp hp).1
    have hin : n ∈ s.owner.nodes := node_mem_owner_nodes hp mem_cons_self
    have hout : x ∈ t.scopesOn (t.enclosing π) →
        ∃ m ∈ root.nodes, m.id = x.2.node ∧ n ∈ m.nodes := by
      intro hx
      obtain ⟨m, hm, hid, hmem⟩ := ih s.owner howner hx
      exact ⟨m, hm, hid, nodes_trans hmem hin⟩
    cases ho : Place.opens? ⟨s.owner, π⟩ with
    | none =>
      simp only [enclosing_of_not_opens ho] at hx
      exact hout hx
    | some kind =>
      obtain ⟨sc, -, -, hnode, hon⟩ := h.scopesOn_opens howner ho
      simp only [hon] at hx
      rcases mem_cons.mp hx with rfl | hx
      · exact ⟨s.owner, node_mem_nodes howner, hnode.symm, hin⟩
      · exact hout hx

/-- The nodes of scopes further out on a chain contain those further in. -/
theorem Outlined.node_of_before (hi : i < t.scopes.length) {y : Nat × Scope} {pre post : List (Nat × Scope)}
    (heq : t.scopesOn i = pre ++ y :: post) (hkind : y.2.kind ≠ .program) (hx : x ∈ pre) :
    ∃ n ∈ root.nodes, n.id = y.2.node ∧ ∃ m ∈ n.nodes, m.id = x.2.node := by
  refine h.rooted.induction (P := fun i => ∀ pre, t.scopesOn i = pre ++ y :: post → x ∈ pre →
    ∃ n ∈ root.nodes, n.id = y.2.node ∧ ∃ m ∈ n.nodes, m.id = x.2.node) ?_ ?_ hi pre heq hx
  · intro pre heq hx
    obtain ⟨s, -, -, hon⟩ := h.rooted.scopesOn_zero
    have hlength := congrArg List.length (hon.symm.trans heq)
    have hpos := length_pos_of_mem hx
    simp only [length_append, length_cons, length_nil] at hlength
    omega
  · intro i p s hs hparent ih pre heq hx
    rw [h.rooted.scopesOn_succ hs hparent] at heq
    cases pre with
    | nil => simp at hx
    | cons z pre =>
      obtain ⟨rfl, hrest⟩ := List.cons.inj heq
      rcases mem_cons.mp hx with rfl | hx
      · obtain ⟨q, hq, ho, hnumber⟩ := h.scopes i s hs
        obtain ⟨s', hs', -, hnode, hparent'⟩ := h.opened q hq _ ho
        rw [hnumber, hs] at hs'
        cases hs'
        obtain rfl := Option.some.inj (hparent.symm.trans hparent')
        obtain ⟨n, hn, hid, hmem⟩ := h.node_of_scope hq (x := y) (by rw [hrest]; simp) hkind
        exact ⟨n, hn, hid, q.node, hmem, hnode.symm⟩
      · exact ih pre hrest hx

/-- The scope that a declaration is for is around the place, or the place opens it. -/
theorem Outlined.node_of_target (hp : p ∈ root.places) (hadd : p.additions = .ok p.added) {x : Addition}
    (hx : x ∈ p.added) (hreach : x.BindsTo reach) (hs : t.scopes[t.target p reach]? = some s)
    (hkind : s.kind ≠ .program) : ∃ n ∈ root.nodes, n.id = s.node ∧ p.node ∈ n.nodes := by
  cases reach with
  | own =>
    obtain ⟨kind, ho⟩ := Place.opens?_of_own hadd hx hreach
    obtain ⟨s', hs', -, hnode, -⟩ := h.opened p hp kind ho
    obtain rfl : s' = s := Option.some.inj (hs'.symm.trans hs)
    exact ⟨p.node, node_mem_nodes hp, hnode.symm, self_mem_nodes (isNode_of_mem_places hp)⟩
  | innermost => exact h.node_of_scope hp (h.rooted.mem_scopesOn_self hs) hkind
  | «variable» =>
    change t.scopes[(t.variableScope? (t.enclosing p.path)).getD 0]? = some s at hs
    unfold variableScope? at hs
    cases hf : (t.scopesOn (t.enclosing p.path)).find? fun x => x.2.kind ≠ .block with
    | none =>
      rw [hf] at hs
      obtain ⟨s₀, hs₀, hprogram, -⟩ := h.rooted.program
      obtain rfl : s₀ = s := Option.some.inj (hs₀.symm.trans hs)
      exact absurd hprogram hkind
    | some y =>
      rw [hf] at hs
      have hy := mem_of_find?_eq_some hf
      have hsame : y.2 = s := Option.some.inj ((mem_scopesOn hy).symm.trans hs)
      exact hsame ▸ h.node_of_scope hp hy (hsame ▸ hkind)

/-! ## Declarations and references -/

variable (hadd : ∀ p ∈ root.places, p.additions = .ok p.added)
include hadd

/-- The node of a scope contains the identifiers that declare in it. -/
theorem Outlined.identifier_of_declared (hs : t.scopes[i]? = some s) (hkind : s.kind ≠ .program)
    (hdec : d ∈ t.declarationsIn root.places i) :
    ∃ n ∈ root.nodes, n.id = s.node ∧ ∃ m ∈ n.nodes, m.name? = some d.name := by
  obtain ⟨p, hp, reach, rfl, hmem⟩ := mem_declarationsIn hdec
  obtain ⟨n, hn, hid, hin⟩ := h.node_of_target hp (hadd p hp) hmem ⟨_, _, _, _, rfl⟩ hs hkind
  obtain ⟨o, ho⟩ := declaring (hadd p hp) hmem
  refine ⟨n, hn, hid, o.tree, nodes_trans hin ?_, ho.name_eq⟩
  exact mem_nodes_iff.mpr (Or.inr ⟨o, ho.occurs, self_mem_nodes ho.isNode⟩)

omit h in
theorem node_of_parameter (hdec : d ∈ t.declarationsIn root.places i)
    (htype : d.type = .parameter) : d.node = d.identifier := by
  obtain ⟨p, hp, reach, -, hmem⟩ := mem_declarationsIn hdec
  obtain ⟨o, ho⟩ := declaring (hadd p hp) hmem
  exact ho.parameter htype

variable (hd : root.Distinct)
include hd

omit h in
theorem declared_once {j : Nat} {e : Declaration}
    (hi : d ∈ t.declarationsIn root.places i) (hj : e ∈ t.declarationsIn root.places j)
    (hsame : d.identifier = e.identifier) : i = j ∧ d.name = e.name := by
  obtain ⟨p, hp, reach, rfl, hmem⟩ := mem_declarationsIn hi
  obtain ⟨q, hq, reach', rfl, hmem'⟩ := mem_declarationsIn hj
  obtain ⟨o, ho⟩ := declaring (hadd p hp) hmem
  obtain ⟨o', ho'⟩ := declaring (hadd q hq) hmem'
  have hplace := hd.place_eq (mem_places_of_declaring hp ho) (mem_places_of_declaring hq ho')
    (ho.id_eq.trans (hsame.trans ho'.id_eq.symm))
  obtain ⟨hstep, hpath⟩ := List.cons.inj (Place.mk.inj hplace).2
  obtain ⟨hnode, hfield, -⟩ := Step.mk.inj hstep
  obtain rfl : p = q := by
    cases p
    cases q
    exact congrArg₂ Place.mk hnode hpath
  have htree : o.tree = o'.tree := (Place.mk.inj hplace).1
  refine ⟨by rw [← ho.reach_eq, ← ho'.reach_eq, hfield], Option.some.inj ?_⟩
  rw [← ho.name_eq, ← ho'.name_eq, htree]

theorem Outlined.declared_ne_reference (hi : d ∈ t.declarationsIn root.places i) (hr : r ∈ t.references) :
    d.identifier ≠ r.identifier := by
  intro hsame
  obtain ⟨p, hp, reach, rfl, hmem⟩ := mem_declarationsIn hi
  obtain ⟨o, ho⟩ := declaring (hadd p hp) hmem
  obtain ⟨q, hq, -, href, rfl⟩ := h.references r hr
  have hplace := hd.place_eq (mem_places_of_declaring hp ho) hq (ho.id_eq.trans hsame)
  rw [← hplace, ho.not_reference] at href
  cases href

omit hadd in
theorem Outlined.reference_eq {r' : Reference} (hr : r ∈ t.references) (hr' : r' ∈ t.references)
    (hsame : r.identifier = r'.identifier) : r = r' := by
  obtain ⟨p, hp, -, -, rfl⟩ := h.references r hr
  obtain ⟨q, hq, -, -, rfl⟩ := h.references r' hr'
  rw [hd.place_eq hp hq hsame]

end

end ArrowFree.ScopeTable
