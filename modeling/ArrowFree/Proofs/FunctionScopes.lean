import ArrowFree.Proofs.Analyzable

/-!
# The scopes of a function

A function of a tree can be taken for a tree of its own. Its table is then that part of the table of the
whole tree that lies within the function: the place that opens the scope of a declaration is found on the
way out to the function (`home_within`), so that a scope within the function holds the same bindings in both
tables (`scope_within`), and a walk for `arguments` that starts within the function ends there, at the
function itself if not before (`resolve_within`).
-/

namespace ArrowFree

open ArrowFree.Tree Lowering List

variable {n root : Tree} {π : Path} {wanted : ScopeKind → Bool} {o p : Place} {reach : Reach}
  {kind kind' : ScopeKind}

/-! ## Places within a node -/

theorem Place.under_under (p : Place) (π ρ : Path) : (p.under π).under ρ = p.under (π ++ ρ) :=
  congrArg (Place.mk p.node) (append_assoc ..)

/-- The places of a node come in one piece among those of the tree. -/
theorem Tree.places_split {t : Tree} (h : ⟨n, π⟩ ∈ t.places) :
    ∃ pre post, t.places = pre ++ n.places.map (·.under π) ++ post := by
  induction t using occurrence_induction generalizing π with
  | h t ih =>
    rcases t.eq_node_or_not_node with ⟨i, s, slots, rfl⟩ | ht
    · rcases mem_places_iff.mp h with ⟨-, heq⟩ | ⟨o, ho, ⟨m, ρ⟩, hm, heq⟩
      · cases heq
        exact ⟨[], [], by simp [Place.under]⟩
      · cases heq
        obtain ⟨pre, post, hsplit⟩ := ih o ho hm
        obtain ⟨os, os', hos⟩ := append_of_mem ho
        rw [occurrences_node] at hos
        rw [places_node, hos, flatMap_append, flatMap_cons, hsplit, map_append,
          map_append, map_map, append_assoc, ← append_assoc, ← cons_append]
        simp only [Function.comp_def, Place.under_under]
        exact ⟨_ :: (_ ++ _), _, congrArg (_ :: · ++ _) (append_assoc ..).symm⟩
    · rw [places_of_not_node ht] at h
      cases h

/-- The innermost node on the way out that opens a scope of such a kind. -/
def Path.opener? (wanted : ScopeKind → Bool) : Path → Option Place
  | [] => none
  | s :: π =>
    if (Place.opens? ⟨s.owner, π⟩).any wanted then some ⟨s.owner, π⟩ else opener? wanted π

theorem Path.opener?_eq_some (h : π.opener? wanted = some o) :
    ∃ q s ρ kind, π = q ++ s :: ρ ∧ o = ⟨s.owner, ρ⟩ ∧ o.opens? = some kind := by
  induction π with
  | nil => cases h
  | cons s π ih =>
    rw [opener?] at h
    split at h
    · rename_i hs
      obtain ⟨kind, hkind, -⟩ := (Option.any_eq_true _ _).mp hs
      cases h
      exact ⟨[], s, π, kind, rfl, rfl, hkind⟩
    · obtain ⟨q, s', ρ, kind, rfl, ho⟩ := ih h
      exact ⟨s :: q, s', ρ, kind, rfl, ho⟩

namespace Place

variable {f : Tree} {q : Place}

theorem opens?_under (hf : f.isOrdinaryFunction) (hq : q ∈ f.places) (π : Path) :
    (q.under π).opens? = q.opens? := by
  obtain ⟨n, _ | ⟨s, ρ⟩⟩ := q
  · obtain ⟨rfl, -⟩ := mem_places_nil.mp hq
    exact (opens?_of_ordinary hf _).trans (opens?_of_ordinary hf _).symm
  · rfl

theorem additions_under (hf : f.isOrdinaryFunction) (hq : q ∈ f.places) (π : Path) :
    (q.under π).additions = q.additions := by
  obtain ⟨n, _ | ⟨s, ρ⟩⟩ := q
  · obtain ⟨rfl, -⟩ := mem_places_nil.mp hq
    unfold additions
    rw [opens?_under hf hq, opens?_of_ordinary hf]
    rfl
  · rfl

theorem added_under (hf : f.isOrdinaryFunction) (hq : q ∈ f.places) (π : Path) :
    (q.under π).added = q.added := by
  rw [added, additions_under hf hq, added]

/-- The place that opens the scope that a declaration is for, that of the program apart. -/
def home (p : Place) : Reach → Option Place
  | .own => some p
  | .innermost => p.path.opener? fun _ => true
  | .variable => p.path.opener? fun kind => kind ≠ .block

theorem opens?_home (h : q.home reach = some o) (hown : reach = .own → ∃ kind, q.opens? = some kind) :
    ∃ kind, o.opens? = some kind := by
  cases reach with
  | own => exact Option.some.inj h ▸ hown rfl
  | _ =>
    obtain ⟨-, -, -, kind, -, -, hopens⟩ := Path.opener?_eq_some h
    exact ⟨kind, hopens⟩

/-- Only the name of a function declares for what is around the function. -/
theorem reachFrom_of_ordinary (h : p.node.isOrdinaryFunction) {field : Text} (hfield : field ≠ "id") :
    p.reachFrom field = .own := by
  obtain ⟨n, π⟩ := p
  rcases n.eq_node_or_not_node with ⟨i, s, slots, rfl⟩ | hn
  · rcases kind_of_isOrdinaryFunction h with rfl | rfl
    · simp [reachFrom, hfield, Tree.is, kind?]
    · simp [reachFrom, Tree.is, kind?]
  · cases n <;> first | cases h | cases hn

/-- Within a function the scope of a function is found at the function itself if not before. -/
theorem opener?_within (hf : f.isOrdinaryFunction) (hwanted : wanted .function) {ρ : Path}
    (hq : ⟨n, ρ⟩ ∈ f.places) (hin : ρ ≠ []) (π : Path) :
    ∃ o ∈ f.places, ρ.opener? wanted = some o ∧ Path.opener? wanted (ρ ++ π) = some (o.under π) := by
  induction ρ generalizing n with
  | nil => exact absurd rfl hin
  | cons s ρ ih =>
    have howner := (mem_places_cons.mp hq).1
    rw [cons_append, Path.opener?, Path.opener?]
    have hsame : opens? ⟨s.owner, ρ ++ π⟩ = opens? ⟨s.owner, ρ⟩ := opens?_under hf howner π
    rw [hsame]
    split
    · exact ⟨_, howner, rfl, rfl⟩
    · rename_i hs
      refine ih howner ?_
      rintro rfl
      obtain ⟨hs', -⟩ := mem_places_nil.mp howner
      rw [hs', opens?_of_ordinary hf] at hs
      exact hs hwanted

/-- The scope of a declaration within a function belongs to a place within the function. -/
theorem home_within (hf : f.isOrdinaryFunction) (hq : q ∈ f.places) (hin : q.path = [] → reach = .own)
    (π : Path) : ∃ o ∈ f.places, q.home reach = some o ∧ (q.under π).home reach = some (o.under π) := by
  cases reach with
  | own => exact ⟨q, hq, rfl, rfl⟩
  | innermost => exact opener?_within hf rfl hq (fun hnil => nomatch hin hnil) π
  | «variable» => exact opener?_within hf rfl hq (fun hnil => nomatch hin hnil) π

end Place

namespace ScopeTable

variable {t : ScopeTable} {known : List Place}

/-! ## Scopes by their places -/

theorem enclosing_eq (t : ScopeTable) (π : Path) :
    t.enclosing π = ((π.opener? fun _ => true).map fun o => t.number o.node.id).getD 0 := by
  induction π with
  | nil => rfl
  | cons s π ih =>
    rw [enclosing_cons, Path.opener?]
    cases Place.opens? ⟨s.owner, π⟩ with
    | none => exact ih
    | some kind => rfl

namespace Outlined

variable (h : t.Outlined known)
include h

theorem variableScope_eq (hk : π.Known known) :
    (t.variableScope? (t.enclosing π)).getD 0 =
      ((π.opener? fun kind => kind ≠ .block).map fun o => t.number o.node.id).getD 0 := by
  induction π with
  | nil =>
    obtain ⟨s, hs, hkind, -⟩ := h.rooted.program
    show (t.variableScope? 0).getD 0 = 0
    rw [h.rooted.variableScope?_of_ne hs (by rw [hkind]; nofun)]
    rfl
  | cons s π ih =>
    rw [Path.opener?]
    cases ho : Place.opens? ⟨s.owner, π⟩ with
    | none =>
      rw [enclosing_of_not_opens ho]
      exact ih hk.2
    | some kind =>
      obtain ⟨sc, hsc, hkind, -, hparent⟩ := h.opened _ hk.1 kind ho
      rw [enclosing_cons, ho, Option.isSome_some, if_pos rfl]
      by_cases hblock : kind = .block
      · rw [h.rooted.variableScope?_of_block hsc (hkind.trans hblock) hparent, if_neg (by simp [hblock])]
        exact ih hk.2
      · rw [h.rooted.variableScope?_of_ne hsc (hkind ▸ hblock), if_pos (by simp [hblock])]
        rfl

theorem target_eq (hk : p.path.Known known) (reach : Reach) :
    t.target p reach = ((p.home reach).map fun o => t.number o.node.id).getD 0 := by
  cases reach with
  | own => rfl
  | innermost => exact t.enclosing_eq p.path
  | «variable» => exact h.variableScope_eq hk

theorem number_ne_zero (hp : p ∈ known) (ho : p.opens? = some kind) : t.number p.node.id ≠ 0 := by
  intro hzero
  obtain ⟨s, hs, hkind, -, -⟩ := h.opened p hp kind ho
  obtain ⟨s₀, hs₀, hprogram, -⟩ := h.rooted.program
  rw [hzero, hs₀] at hs
  cases hs
  rcases opens?_eq_some ho with ⟨-, rfl⟩ | ⟨-, rfl⟩ | rfl <;> cases hkind.symm.trans hprogram

theorem number_injective {q : Place} (hp : p ∈ known) (hq : q ∈ known) (hpo : p.opens? = some kind)
    (hqo : q.opens? = some kind') (hnumber : t.number p.node.id = t.number q.node.id) :
    p.node.id = q.node.id := by
  obtain ⟨s, hs, -, hnode, -⟩ := h.opened p hp kind hpo
  obtain ⟨s', hs', -, hnode', -⟩ := h.opened q hq kind' hqo
  rw [hnumber, hs'] at hs
  cases hs
  exact hnode.symm.trans hnode'

end Outlined

theorem mem_references (hd : root.Distinct) (ht : ofTree root = .ok t) (hp : p ∈ root.places)
    (hid : p.node.is .identifier) (href : p.isReference) :
    ⟨p.node.id, p.node.name?, t.enclosing p.path⟩ ∈ t.references := by
  obtain ⟨r, hr⟩ := recorded_of_place ht hp hid href
  have hmem := mem_of_find?_eq_some hr
  have hsame : r.identifier = p.node.id := by simpa using find?_some hr
  obtain ⟨q, hq, -, -, rfl⟩ := (outlined_ofTree hd ht).references r hmem
  obtain rfl := hd.place_eq hq hp hsame
  exact hmem

end ScopeTable

open ScopeTable

/-! ## Two tables -/

/-- A function of a tree, with the table of the tree and a table of its own. -/
structure FunctionIn (root : Tree) (t : ScopeTable) (π : Path) (f : Tree) (u : ScopeTable) : Prop where
  distinct : root.Distinct
  scopes_eq : ofTree root = .ok t
  place : ⟨f, π⟩ ∈ root.places
  ordinary : f.isOrdinaryFunction
  alone_eq : ofTree f = .ok u

theorem functionIn {t : ScopeTable} (hd : root.Distinct) (ht : ofTree root = .ok t) {f : Tree}
    (hplace : ⟨f, π⟩ ∈ root.places) (hf : f.isOrdinaryFunction) : ∃ u, FunctionIn root t π f u := by
  have hadditions : ∀ q ∈ f.places, q.additions = .ok q.added := by
    intro q hq
    have hunder := (ofTree_ok.mp ht).1 _ (under_mem_places hplace hq)
    rwa [Place.additions_under hf hq, Place.added_under hf hq] at hunder
  exact ⟨_, hd, ht, hplace, hf, ofTree_ok.mpr ⟨hadditions, rfl⟩⟩

namespace FunctionIn

variable {root f : Tree} {t u : ScopeTable} {π : Path} (h : FunctionIn root t π f u)
variable {q p : Place} {ref ref' : Reference}
include h

theorem outlined : t.Outlined root.places := outlined_ofTree h.distinct h.scopes_eq

theorem distinct_alone : f.Distinct := h.distinct.subtree (node_mem_nodes h.place)

theorem outlined_alone : u.Outlined f.places := outlined_ofTree h.distinct_alone h.alone_eq

theorem under_mem (hq : q ∈ f.places) : q.under π ∈ root.places := under_mem_places h.place hq

theorem additions (hp : p ∈ root.places) : p.additions = .ok p.added :=
  (ofTree_ok.mp h.scopes_eq).1 p hp

theorem opens?_under (hq : q ∈ f.places) : (q.under π).opens? = q.opens? :=
  Place.opens?_under h.ordinary hq π

theorem mem_within (hp : p ∈ root.places) (hin : p.node ∈ f.nodes) : ∃ q ∈ f.places, p = q.under π := by
  obtain ⟨q, hq, heq⟩ := mem_map.mp hin
  exact ⟨q, hq, h.distinct.place_eq hp (h.under_mem hq) (congrArg Tree.id heq.symm)⟩

section

variable {o : Place} {kind : ScopeKind} (ho : o ∈ f.places) (hopens : o.opens? = some kind)
include ho hopens

/-- Only places in the node of a scope declare in the scope. -/
theorem contains_of_target (hp : p ∈ root.places) (hx : reach = .own → ∃ kind', p.opens? = some kind')
    (htarget : t.target p reach = t.number o.node.id) :
    p.node ∈ o.node.nodes ∧ (reach ≠ .own → (o.path ++ π).length < p.path.length) := by
  have hou : (o.under π).opens? = some kind := (h.opens?_under ho).trans hopens
  rw [h.outlined.target_eq (h.outlined.closed p hp)] at htarget
  cases hhome : p.home reach with
  | none =>
    rw [hhome] at htarget
    exact absurd htarget.symm (h.outlined.number_ne_zero (p := o.under π) (h.under_mem ho) hou)
  | some o' =>
    rw [hhome] at htarget
    have hplace : ∀ {kind'}, o' ∈ root.places → o'.opens? = some kind' → o' = o.under π :=
      fun ho' hopens' => h.distinct.place_eq ho' (h.under_mem ho)
        (h.outlined.number_injective ho' (h.under_mem ho) hopens' hou htarget)
    cases reach with
    | own =>
      cases hhome
      obtain ⟨kind', hopens'⟩ := hx rfl
      obtain rfl := hplace hp hopens'
      exact ⟨self_mem_nodes (isNode_of_mem_places ho), fun hne => absurd rfl hne⟩
    | _ =>
      obtain ⟨q, s, ρ, kind', hpath, rfl, hopens'⟩ := Path.opener?_eq_some hhome
      have hp' : ⟨p.node, q ++ s :: ρ⟩ ∈ root.places := hpath ▸ hp
      obtain ⟨hnode, hrho⟩ := Place.mk.inj (hplace (owner_mem_places hp') hopens')
      refine ⟨hnode ▸ node_mem_owner_nodes hp (by rw [hpath]; simp), fun _ => ?_⟩
      rw [← hrho, hpath, length_append, length_cons]
      omega

/-- Two scopes within the function are one in both tables or in none. -/
theorem number_iff {o' : Place} (ho' : o' ∈ f.places) (hopens' : o'.opens? = some kind') :
    t.number o'.node.id = t.number o.node.id ↔ u.number o'.node.id = u.number o.node.id := by
  constructor
  · intro heq
    have hid := h.outlined.number_injective (h.under_mem ho') (h.under_mem ho)
      ((h.opens?_under ho').trans hopens') ((h.opens?_under ho).trans hopens) heq
    exact congrArg u.number hid
  · intro heq
    exact congrArg t.number (h.outlined_alone.number_injective ho' ho hopens' hopens heq)

/-- A declaration within the function is for the same scope in both tables. -/
theorem target_iff (hq : q ∈ f.places) (hx : reach = .own → ∃ kind', q.opens? = some kind') :
    t.target (q.under π) reach = t.number o.node.id ↔ u.target q reach = u.number o.node.id := by
  by_cases hin : q.path = [] → reach = .own
  · obtain ⟨o', ho', hhome, hunder⟩ := Place.home_within h.ordinary hq hin π
    obtain ⟨kind', hopens'⟩ := Place.opens?_home hhome hx
    have hiff := h.number_iff ho hopens ho' hopens'
    rwa [h.outlined.target_eq (h.outlined.closed _ (h.under_mem hq)), hunder,
      h.outlined_alone.target_eq (h.outlined_alone.closed q hq), hhome]
  · -- the name of a function declaration belongs to what is around the function
    obtain ⟨hnil, hreach⟩ := Classical.not_imp.mp hin
    refine iff_of_false (fun htarget => ?_) fun htarget => ?_
    · have hlength := (h.contains_of_target ho hopens (h.under_mem hq) (fun hown => absurd hown hreach)
        htarget).2 hreach
      have hpath : (q.under π).path = π := congrArg (· ++ π) hnil
      rw [hpath, length_append] at hlength
      omega
    · rw [h.outlined_alone.target_eq (h.outlined_alone.closed q hq)] at htarget
      refine h.outlined_alone.number_ne_zero ho hopens (htarget.symm.trans ?_)
      cases reach with
      | own => exact absurd rfl hreach
      | _ =>
        rw [Place.home, hnil]
        rfl

/-- A scope within the function has the same declarations in both tables. -/
theorem declarationsIn_within :
    t.declarationsIn root.places (t.number o.node.id) = u.declarationsIn f.places (u.number o.node.id) := by
  obtain ⟨pre, post, hsplit⟩ := places_split h.place
  have hnodup : (root.places.map fun p => p.node.id).Nodup := by
    have := h.distinct.nodup
    rwa [Tree.nodes, map_map] at this
  have houtside : ∀ p ∈ root.places, (∀ q ∈ f.places, q.node.id ≠ p.node.id) →
      p.declarations (t.target p) (t.number o.node.id) = [] := by
    intro p hp hout
    refine eq_nil_iff_forall_not_mem.mpr fun d hdec => ?_
    obtain ⟨reach, htarget, hmem⟩ := mem_declarations.mp hdec
    have hown : reach = .own → ∃ kind', p.opens? = some kind' := by
      rintro rfl
      exact Place.opens?_of_own (h.additions hp) hmem ⟨_, _, _, _, rfl⟩
    have hin := (h.contains_of_target ho hopens hp hown htarget).1
    obtain ⟨q, hq, rfl⟩ := h.mem_within hp (nodes_trans (node_mem_nodes ho) hin)
    exact hout q hq rfl
  rw [hsplit, map_append, map_append, nodup_append, nodup_append] at hnodup
  obtain ⟨⟨-, -, hpre⟩, -, hpost⟩ := hnodup
  have hwithin : ∀ {q}, q ∈ f.places → (fun p : Place => p.node.id) (q.under π) ∈
        ((f.places.map (·.under π)).map fun p => p.node.id) :=
    fun hq => mem_map_of_mem (mem_map_of_mem hq)
  unfold declarationsIn
  conv_lhs => rw [hsplit, flatMap_append, flatMap_append]
  rw [flatMap_eq_nil_iff.mpr fun p hp => houtside p (by rw [hsplit]; simp [hp]) fun q hq heq =>
      hpre _ (mem_map_of_mem hp) _ (hwithin hq) heq.symm,
    flatMap_eq_nil_iff.mpr fun p hp => houtside p (by rw [hsplit]; simp [hp]) fun q hq heq =>
      hpost _ (mem_append_right _ (hwithin hq)) _ (mem_map_of_mem hp) heq,
    nil_append, append_nil, flatMap_map]
  refine flatMap_congr fun q hq => ?_
  unfold Place.declarations
  rw [Place.added_under h.ordinary hq]
  refine filterMap_congr fun x hx => ?_
  cases x with
  | binding reach name type node identifier =>
    have hown : reach = .own → ∃ kind', q.opens? = some kind' := by
      rintro rfl
      exact Place.opens?_of_own ((ofTree_ok.mp h.alone_eq).1 q hq) hx ⟨_, _, _, _, rfl⟩
    simp only [Addition.declarationIn, h.target_iff ho hopens hq hown]
  | scope | reference => rfl

/-- **The scopes within a function** have the same bindings in both tables. -/
theorem scope_within :
    ∃ s s', t.scopes[t.number o.node.id]? = some s ∧ u.scopes[u.number o.node.id]? = some s' ∧
      s.kind = kind ∧ s'.kind = kind ∧ s.node = o.node.id ∧ s'.node = o.node.id ∧
      s.bindings = s'.bindings := by
  obtain ⟨s, hs, hkind, hnode, -⟩ := h.outlined.opened _ (h.under_mem ho) kind
    ((h.opens?_under ho).trans hopens)
  obtain ⟨s', hs', hkind', hnode', -⟩ := h.outlined_alone.opened o ho kind hopens
  refine ⟨s, s', hs, hs', hkind, hkind', hnode, hnode', ?_⟩
  have hholds : s.Holds (u.declarationsIn f.places (u.number o.node.id)) := by
    rw [← h.declarationsIn_within ho hopens]
    exact h.outlined.declared _ s hs
  exact Eq.trans hholds (h.outlined_alone.declared _ s' hs').symm

end

/-! ## Resolution -/

/-- Two ways to resolve a name, in the tree and in the function alone, that come to the same: the scope
belongs to this place, and all else is equal. -/
structure Same (t u : ScopeTable) (o : Place) (r r' : Resolution) : Prop where
  scope : r.scope = t.number o.node.id
  scope_alone : r'.scope = u.number o.node.id
  binding : r.binding = r'.binding
  arrow : r.arrow = r'.arrow

/-- **The walk for `arguments` within a function.** -/
theorem resolve_within (hq : q ∈ f.places) (hin : q.path ≠ []) :
    ∃ o ∈ f.places, ∃ kind, o.opens? = some kind ∧ ∃ r r',
      resolveFrom t (t.enclosing (q.under π).path) = .ok r ∧
      resolveFrom u (u.enclosing q.path) = .ok r' ∧ Same t u o r r' := by
  have halong : ∀ (ρ : Path) (n : Tree) (arrow : Option NodeId), ⟨n, ρ⟩ ∈ f.places → ρ ≠ [] →
      ∃ o ∈ f.places, ∃ kind, o.opens? = some kind ∧ ∃ r r',
        resolveAlong arrow (t.scopesOn (t.enclosing (ρ ++ π))) = some r ∧
        resolveAlong arrow (u.scopesOn (u.enclosing ρ)) = some r' ∧ Same t u o r r' := by
    intro ρ
    induction ρ with
    | nil => exact fun _ _ _ hne => absurd rfl hne
    | cons s ρ ih =>
      intro n arrow hq _
      have howner := (mem_places_cons.mp hq).1
      have hunder : Place.opens? ⟨s.owner, ρ ++ π⟩ = Place.opens? ⟨s.owner, ρ⟩ := h.opens?_under howner
      have hfunction : ρ = [] → Place.opens? ⟨s.owner, ρ⟩ = some .function := by
        rintro rfl
        obtain ⟨hs, -⟩ := mem_places_nil.mp howner
        rw [hs]
        exact opens?_of_ordinary h.ordinary []
      rw [cons_append]
      cases hopens : Place.opens? ⟨s.owner, ρ⟩ with
      | none =>
        rw [enclosing_of_not_opens (hunder.trans hopens), enclosing_of_not_opens hopens]
        exact ih _ arrow howner fun hnil => nomatch (hfunction hnil).symm.trans hopens
      | some kind =>
        obtain ⟨sc, hsc, hkind, hnode, hon⟩ := h.outlined.scopesOn_opens
          (s := s) (h.under_mem howner) (hunder.trans hopens)
        obtain ⟨sc', hsc', hkind', hnode', hon'⟩ := h.outlined_alone.scopesOn_opens howner hopens
        obtain ⟨s₁, s₁', hs₁, hs₁', -, -, -, -, hbindings⟩ := h.scope_within howner hopens
        obtain rfl : sc = s₁ := Option.some.inj (hsc.symm.trans hs₁)
        obtain rfl : sc' = s₁' := Option.some.inj (hsc'.symm.trans hs₁')
        have hown : sc.ownArguments? = sc'.ownArguments? := by
          unfold Scope.ownArguments? Scope.binding?
          rw [hbindings]
        have htransparent : sc.isTransparent = sc'.isTransparent := by
          unfold Scope.isTransparent
          rw [hkind, hkind']
        rw [hon, hon', resolveAlong_cons, resolveAlong_cons, hown, htransparent, hkind, hkind', hnode,
          hnode']
        cases sc'.ownArguments? with
        | some b => exact ⟨_, howner, kind, hopens, _, _, rfl, rfl, rfl, rfl, rfl, rfl⟩
        | none =>
          cases hpass : sc'.isTransparent with
          | false => exact ⟨_, howner, kind, hopens, _, _, rfl, rfl, rfl, rfl, rfl, rfl⟩
          | true =>
            refine ih _ _ howner fun hnil => ?_
            obtain rfl := Option.some.inj ((hfunction hnil).symm.trans hopens)
            simp [Scope.isTransparent, hkind'] at hpass
  obtain ⟨o, ho, kind, hopens, r, r', hr, hr', hsame⟩ := halong q.path q.node none hq hin
  exact ⟨o, ho, kind, hopens, r, r', resolveFrom_ok.mpr hr, resolveFrom_ok.mpr hr', hsame⟩

section

variable {o : Place} {kind : ScopeKind} (ho : o ∈ f.places) (hopens : o.opens? = some kind)
  {r r' : Resolution} (hsame : Same t u o r r')
include ho hopens hsame

theorem reaches_eq : r.reachesFunction t = r'.reachesFunction u := by
  obtain ⟨s, s', hs, hs', hkind, hkind', -⟩ := h.scope_within ho hopens
  unfold Resolution.reachesFunction
  rw [hsame.scope, hsame.scope_alone, hs, hs', hsame.binding]
  unfold Scope.isTransparent
  simp only [hkind, hkind']

end

/-! ## References -/

theorem reference_within (hq : q ∈ f.places) (hid : q.node.is .identifier) (href : q.isReference) :
    q.path ≠ [] ∧ ⟨q.node.id, q.node.name?, t.enclosing (q.under π).path⟩ ∈ t.references ∧
      ⟨q.node.id, q.node.name?, u.enclosing q.path⟩ ∈ u.references := by
  have hin : q.path ≠ [] := by
    intro hnil
    obtain ⟨n, ρ⟩ := q
    obtain rfl : ρ = [] := hnil
    obtain ⟨rfl, -⟩ := mem_places_nil.mp hq
    obtain ⟨i, slots, heq⟩ := is_iff.mp hid
    have hordinary := h.ordinary
    rw [show n = _ from heq] at hordinary
    cases hordinary
  have href' : (q.under π).isReference := by
    obtain ⟨n, _ | ⟨s, ρ⟩⟩ := q
    · exact absurd rfl hin
    · exact href
  exact ⟨hin, mem_references h.distinct h.scopes_eq (h.under_mem hq) hid href',
    mem_references h.distinct_alone h.alone_eq hq hid href⟩

/-- One reference in the tree and in the function alone. -/
structure Twins (t u : ScopeTable) (f : Tree) (ref ref' : Reference) : Prop where
  mem : ref ∈ t.references
  mem_alone : ref' ∈ u.references
  identifier : ref.identifier = ref'.identifier
  name : ref.name = ref'.name
  resolved : ∃ o ∈ f.places, ∃ kind, o.opens? = some kind ∧ ∃ r r',
    resolveFrom t ref.scope = .ok r ∧ resolveFrom u ref'.scope = .ok r' ∧ Same t u o r r'

theorem twins_at (hq : q ∈ f.places) (hid : q.node.is .identifier) (href : q.isReference) :
    Twins t u f ⟨q.node.id, q.node.name?, t.enclosing (q.under π).path⟩
      ⟨q.node.id, q.node.name?, u.enclosing q.path⟩ :=
  let ⟨hin, hmem, hmem'⟩ := h.reference_within hq hid href
  ⟨hmem, hmem', rfl, rfl, h.resolve_within hq hin⟩

theorem twins_of_alone (href' : ref' ∈ u.references) : ∃ ref, Twins t u f ref ref' := by
  obtain ⟨q, hq, hid, href, rfl⟩ := h.outlined_alone.references ref' href'
  exact ⟨_, h.twins_at hq hid href⟩

theorem twins_of_node (href : ref ∈ t.references) {m : Tree} (hm : m ∈ f.nodes) (hsame : m.id = ref.identifier) :
    ∃ ref', Twins t u f ref ref' := by
  obtain ⟨p, hp, hid, hisRef, rfl⟩ := h.outlined.references ref href
  have hnode : m = p.node :=
    h.distinct.node_eq (nodes_trans (node_mem_nodes h.place) hm) (node_mem_nodes hp) hsame
  obtain ⟨q, hq, rfl⟩ := h.mem_within hp (hnode ▸ hm)
  refine ⟨_, h.twins_at hq hid ?_⟩
  obtain ⟨n, _ | ⟨s, ρ⟩⟩ := q
  · rfl
  · exact hisRef

theorem twins_of_scope (href : ref ∈ t.references) {r : Resolution} (hr : resolveFrom t ref.scope = .ok r)
    (ho : o ∈ f.places) (hopens : o.opens? = some kind) (hscope : r.scope = t.number o.node.id) :
    ∃ ref', Twins t u f ref ref' := by
  obtain ⟨p, hp, -, -, rfl⟩ := h.outlined.references ref href
  obtain ⟨s, -, hs, -, hkind, -, hnode, -⟩ := h.scope_within ho hopens
  obtain ⟨pre, s', post, heq, -⟩ := resolveFrom_iff.mp hr
  obtain rfl : s' = s := Option.some.inj ((scope_of_split heq).1.symm.trans (hscope ▸ hs))
  have hprogram : s'.kind ≠ .program := by
    rcases opens?_eq_some hopens with ⟨-, rfl⟩ | ⟨-, rfl⟩ | rfl <;> rw [hkind] <;> nofun
  obtain ⟨n, hn, hid, hin⟩ := h.outlined.node_of_scope hp (x := (r.scope, s')) (by rw [heq]; simp)
    hprogram
  obtain rfl : n = o.node := h.distinct.node_eq hn
    (nodes_trans (node_mem_nodes h.place) (node_mem_nodes ho)) (hid.trans hnode)
  exact h.twins_of_node href (nodes_trans (node_mem_nodes ho) hin) rfl

/-- The same function provides the arguments that a reference means. -/
theorem provided_iff (htwins : Twins t u f ref ref') (g : NodeId) :
    ProvidedBy t g ref ↔ ProvidedBy u g ref' := by
  obtain ⟨o, ho, kind, hopens, r, r', hr, hr', hsame⟩ := htwins.resolved
  obtain ⟨s, s', hs, hs', hkind, hkind', hnode, hnode', -⟩ := h.scope_within ho hopens
  have hreaches := h.reaches_eq ho hopens hsame
  rw [← hsame.scope] at hs
  rw [← hsame.scope_alone] at hs'
  unfold ProvidedBy
  rw [htwins.name, hr, hr']
  simp only [htwins.mem, htwins.mem_alone, Except.ok.injEq, true_and, exists_and_left, exists_eq_left',
    hs, hs', Option.some.injEq, hreaches, hkind, hkind', hnode, hnode', hsame.arrow]

/-! ## Declarations -/

theorem alone : FunctionIn f u [] f u :=
  ⟨h.distinct_alone, h.alone_eq, mem_places_nil.mpr ⟨rfl, isNode_of_mem_places h.place⟩, h.ordinary,
    h.alone_eq⟩

/-- What stands in the function, its own name apart, declares for scopes within the function. -/
theorem declared_within {o : Occurrence} (ho : o ∈ f.occurrences) (hfield : o.field ≠ "id") (hp : p ∈ o.tree.places)
    {i : Nat} {d : Declaration} (hdec : d ∈ t.declarationsIn root.places i) (hid : d.identifier = p.node.id) :
    ∃ o' ∈ f.places, ∃ kind, o'.opens? = some kind ∧ i = t.number o'.node.id := by
  obtain ⟨p₁, hp₁, reach, rfl, hmem⟩ := mem_declarationsIn hdec
  obtain ⟨o₁, ho₁⟩ := declaring (h.additions hp₁) hmem
  have hq : p.under [o.step f] ∈ f.places := mem_places_iff.mpr (.inr ⟨o, ho, p, hp, rfl⟩)
  have hplace := h.distinct.place_eq (mem_places_of_declaring hp₁ ho₁) (h.under_mem hq)
    (ho₁.id_eq.trans hid)
  have hpath : o₁.step p₁.node :: p₁.path = p.path ++ [o.step f] ++ π := (Place.mk.inj hplace).2
  obtain ⟨q, hq, rfl, hown⟩ : ∃ q ∈ f.places, p₁ = q.under π ∧ (q.path = [] → reach = .own) := by
    obtain ⟨n₁, π₁⟩ := p₁
    obtain ⟨n, _ | ⟨s, ρ⟩⟩ := p
    · obtain ⟨hstep, rfl⟩ := cons.inj hpath
      obtain ⟨rfl, hfield₁, -⟩ := Step.mk.inj hstep
      refine ⟨⟨n₁, []⟩, h.alone.place, rfl, fun _ => ?_⟩
      rw [← ho₁.reach_eq]
      exact Place.reachFrom_of_ordinary h.ordinary (hfield₁ ▸ hfield)
    · obtain ⟨hstep, rfl⟩ := cons.inj hpath
      obtain rfl : n₁ = s.owner := congrArg Step.owner hstep
      exact ⟨⟨s.owner, ρ ++ [o.step f]⟩, (mem_places_cons.mp hq).1, rfl, by simp⟩
  obtain ⟨o', ho', hhome, hunder⟩ := Place.home_within h.ordinary hq hown π
  obtain ⟨kind, hopens⟩ := Place.opens?_home hhome fun hreach => by
    subst hreach
    exact h.opens?_under hq ▸ Place.opens?_of_own (h.additions hp₁) hmem ⟨_, _, _, _, rfl⟩
  refine ⟨o', ho', kind, hopens, ?_⟩
  rw [h.outlined.target_eq (h.outlined.closed _ hp₁), hunder]
  rfl

end FunctionIn

end ArrowFree
