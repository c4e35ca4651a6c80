import ArrowFree.Proofs.ArgumentFacts
import ArrowFree.Proofs.Formed

/-!
# Proper programs can be analyzed

Only three things stop the analysis of a tree whose nodes have identities: a place that adds nothing
proper to the table of scopes, a node that needs a name while the names in it cannot be told apart, and
one that cannot be described (`exists_analyze`). None of them occurs in a proper program
(`Formed.analyze_ok`): its nodes are proper, and declarators stand in declarations.
-/

namespace ArrowFree

open List

variable {slots : List Tree} {o : Occurrence} {n : Tree} {α β : Type} {r : Reference}

namespace Lowering

/-- A name can be generated for the node, and it can be said what the name is for. -/
def Nameable (n : Tree) : Prop :=
  (∃ names, identifierNames n = .ok names) ∧ ∃ x, describeTarget n = .ok x

/-- An arrow with references that are carried from the function of this identity. -/
structure Hoists (root : Tree) (scopes : ScopeTable) (arrow : Tree) (target : NodeId) : Prop where
  mem : arrow ∈ root.nodes
  isArrow : arrow.isArrow
  target_eq : hoistTarget scopes arrow = .ok (some target)
  collects : ∃ refs, collectReferences scopes arrow = .ok refs ∧ refs ≠ []

end Lowering

variable {K : Kind → Prop} {p : Part} {t : Tree}

/-! ## Parts of proper trees -/

/-- The part that may be left out. -/
def Part.core : Part → Part
  | .orNull p => p.core
  | p => p

/-- What a slot of a node may hold. Declarators stand in declarations only. -/
def Held (K : Kind → Prop) (s : Shape) (u : Tree) : Prop :=
  (∃ x, u = .scalar x) ∨
    ∃ q : Part, (q.core = .declarator → s = .known .variableDeclaration) ∧
      (Formed K q u ∨ ∃ us, u = .list us ∧ ∀ v ∈ us, Formed K q v)

namespace Held

variable {s : Shape} {u : Tree} {us : List Tree} {q : Part}

@[simp] theorem scalar (x : Scalar) : Held K s (.scalar x) := .inl ⟨x, rfl⟩

@[simp] theorem text (x : Text) : Held K s (.text x) := scalar _

@[simp] theorem bool (b : Bool) : Held K s (.bool b) := scalar _

theorem tree (hq : q.core ≠ .declarator) (h : Formed K q u) : Held K s u :=
  .inr ⟨q, fun hd => absurd hd hq, .inl h⟩

theorem items (hq : q.core ≠ .declarator) (h : ∀ v ∈ us, Formed K q v) : Held K s (.list us) :=
  .inr ⟨q, fun hd => absurd hd hq, .inr ⟨us, rfl, h⟩⟩

theorem declarators (h : ∀ v ∈ us, Formed K .declarator v) :
    Held K (.known .variableDeclaration) (.list us) :=
  .inr ⟨.declarator, fun _ => rfl, .inr ⟨us, rfl, h⟩⟩

end Held

namespace Formed

theorem held (h : Formed K p t) {i : Info} {s : Shape} (ht : t = .node i s slots) :
    ∀ u ∈ slots, Held K s u := by
  induction h with
  | absent => cases ht
  | present _ ih | wordKey _ ih | identifier _ ih | target _ _ ih | blockStatement _ ih
  | declarationStatement _ ih | initialDeclaration _ ih | initialExpression _ ih | iteratedTarget _ ih => exact ih ht
  | name _ _ | word _ _ | literalKey _ _ | literal _ _ | this _ | emptyStatement _ | breakStatement _
  | continueStatement _ => cases ht; simp
  | array _ ha | object _ ha | sequence _ _ ha | block _ ha | program _ ha =>
    cases ht
    simp [Held.items (by decide) ha]
  | unary _ _ ha | update _ _ ha | expressionStatement _ ha | returnStatement _ ha | throwStatement _ ha =>
    cases ht
    simp [Held.tree (by decide) ha]
  | property _ ha hb | binary _ _ ha hb | logical _ _ ha hb | assignment _ _ ha hb | member _ ha hb
  | computed _ ha hb | declarator _ ha hb | whileStatement _ ha hb | doWhileStatement _ ha hb | handler _ ha hb =>
    cases ht
    simp [Held.tree (by decide) ha, Held.tree (by decide) hb]
  | shorthand _ hi hx =>
    cases ht
    simp [Held.tree (by decide) (Formed.name hi hx)]
  | function _ ha hps hb | functionDeclaration _ ha hps hb =>
    cases ht
    simp [Held.tree (by decide) ha, Held.items (by decide) hps, Held.tree (by decide) hb]
  | arrowBlock _ hps hb | arrow _ hps hb | call _ hb hps | new _ hb hps =>
    cases ht
    simp [Held.items (by decide) hps, Held.tree (by decide) hb]
  | conditional _ ha hb hc | ifStatement _ ha hb hc | forInStatement _ ha hb hc | tryStatement _ ha hb hc _ =>
    cases ht
    simp [Held.tree (by decide) ha, Held.tree (by decide) hb, Held.tree (by decide) hc]
  | declaration _ _ _ hds =>
    cases ht
    simp [Held.declarators hds]
  | forStatement _ hi hc hu hb =>
    cases ht
    simp [Held.tree (by decide) hi, Held.tree (by decide) hc, Held.tree (by decide) hu, Held.tree (by decide) hb]
  | iteratedDeclaration _ hd _ hx =>
    cases ht
    refine forall_mem_cons.mpr ⟨.declarators ?_, forall_mem_singleton.mpr (.text _)⟩
    exact forall_mem_singleton.mpr (.declarator hd hx .absent)

theorem core_of_declarator (h : Formed K p t) (ht : t.is .variableDeclarator) :
    p.core = .declarator := by
  induction h with
  | present _ ih => exact ih ht
  | wordKey h _ | identifier h _ | blockStatement h _ | declarationStatement h _ | initialDeclaration h _ =>
    cases h
    cases ht
  | target _ _ ih | initialExpression _ ih | iteratedTarget _ ih => cases ih ht
  | declarator _ _ _ => rfl
  | _ => cases ht

end Formed

theorem Formed.not_list (h : Formed K p t) (us : List Tree) : t ≠ .list us := by
  induction h with
  | present _ ih | wordKey _ ih | identifier _ ih | target _ _ ih | blockStatement _ ih
  | declarationStatement _ ih | initialDeclaration _ ih | initialExpression _ ih | iteratedTarget _ ih => exact ih
  | _ => nofun

/-- What occurs in a node stands in a slot, on its own or as an item of a list. -/
theorem Tree.slot_of_mem_occurrencesIn {fs : List Field} (h : o ∈ occurrencesIn fs slots) :
    o.tree ∈ slots ∨ ∃ us, .list us ∈ slots ∧ o.tree ∈ us := by
  induction fs generalizing slots with
  | nil => exact nomatch h
  | cons f fs ih =>
    cases slots with
    | nil => exact nomatch h
    | cons t ts =>
      rcases mem_append.mp h with h | h
      · unfold occurrencesOf at h
        split at h
        · split at h
          · exact .inr ⟨_, .head _, (mem_itemsFrom h).2.2⟩
          · rw [mem_singleton.mp h]
            exact .inl (.head _)
        · exact nomatch h
      · rcases ih h with h | ⟨us, hus, h⟩
        · exact .inl (.tail _ h)
        · exact .inr ⟨us, .tail _ hus, h⟩

namespace Formed

variable {ps : List Tree}

/-- The nodes inside of a proper tree are proper trees; a declarator stands in a declaration. -/
theorem occurrence (h : Formed K p t) (ho : o ∈ t.occurrences) (hnode : o.tree.isNode) :
    ∃ q, Formed K q o.tree ∧
      (o.tree.is .variableDeclarator → t.is .variableDeclaration) := by
  obtain ⟨i, s, slots, rfl⟩ | ht := t.eq_node_or_not_node
  · have key (q : Part) (hq : q.core = .declarator → s = .known .variableDeclaration)
        (hform : Formed K q o.tree) : ∃ q, Formed K q o.tree ∧
          (o.tree.is .variableDeclarator → (Tree.node i s slots).is .variableDeclaration) :=
      ⟨q, hform, fun hd => by rw [hq (hform.core_of_declarator hd)]; rfl⟩
    rcases Tree.slot_of_mem_occurrencesIn ho with hslot | ⟨us, hus, hmem⟩
    · rcases h.held rfl _ hslot with ⟨x, hx⟩ | ⟨q, hq, hform | ⟨us, hus, -⟩⟩
      · rw [hx] at hnode
        cases hnode
      · exact key q hq hform
      · rw [hus] at hnode
        cases hnode
    · rcases h.held rfl _ hus with ⟨x, hx⟩ | ⟨q, hq, hform | ⟨vs, hvs, hform⟩⟩
      · cases hx
      · exact absurd rfl (hform.not_list us)
      · cases hvs
        exact key q hq (hform _ hmem)
  · rw [Tree.occurrences_of_not_node ht] at ho
    cases ho

/-- Every node of a proper tree is a proper tree, and the declarators among them stand in
declarations. -/
theorem place (h : Formed K p t) {path : Path} (hp : ⟨n, path⟩ ∈ t.places) :
    ∃ q, Formed K q n ∧ (n.is .variableDeclarator → path = [] ∨
      ∃ s π, path = s :: π ∧ s.owner.is .variableDeclaration ∧ ∃ r, Formed K r s.owner) := by
  induction path generalizing n with
  | nil =>
    obtain ⟨rfl, -⟩ := Tree.mem_places_nil.mp hp
    exact ⟨p, h, fun _ => .inl rfl⟩
  | cons s π ih =>
    obtain ⟨howner, hocc, hnode⟩ := Tree.mem_places_cons.mp hp
    obtain ⟨r, hr, -⟩ := ih howner
    obtain ⟨q, hq, hd⟩ := hr.occurrence hocc hnode
    exact ⟨q, hq, fun hn => .inr ⟨s, π, rfl, hd hn, r, hr⟩⟩

/-! ## Scopes -/

theorem kind_of_declaration (h : Formed K p t) (ht : t.is .variableDeclaration) :
    ∃ v, t.get "kind" = .ok v := by
  induction h with
  | present _ ih | wordKey _ ih | identifier _ ih | target _ _ ih | blockStatement _ ih
  | declarationStatement _ ih | initialDeclaration _ ih | initialExpression _ ih | iteratedTarget _ ih => exact ih ht
  | declaration _ _ _ _ | iteratedDeclaration _ _ _ _ => exact ⟨_, rfl⟩
  | _ => cases ht

theorem parameterAdditions_ok (h : ∀ t ∈ ps, Formed K .name t) :
    ∃ as, Place.parameterAdditions ps = .ok as := by
  induction ps with
  | nil => exact ⟨_, rfl⟩
  | cons t ps ih =>
    obtain ⟨as, has⟩ := ih fun u hu => h u (.tail _ hu)
    cases h t (.head _) with
    | name _ _ => exact ⟨_, bind_ok.mpr ⟨_, rfl, bind_ok.mpr ⟨as, has, rfl⟩⟩⟩

theorem functionAdditions_ok (kind : ScopeKind) {outside inside : List Addition}
    (houter : Place.outerName n = .ok outside) (hinner : Place.innerName n = .ok inside)
    (hparams : n.get "params" = .ok (.list ps)) (hps : ∀ t ∈ ps, Formed K .name t) :
    ∃ as, Place.functionAdditions kind n = .ok as := by
  obtain ⟨as, has⟩ := parameterAdditions_ok hps
  exact ⟨_, bind_ok.mpr ⟨_, houter, bind_ok.mpr ⟨_, hinner, bind_ok.mpr ⟨_, hparams,
    bind_ok.mpr ⟨ps, rfl, bind_ok.mpr ⟨as, has, rfl⟩⟩⟩⟩⟩⟩

theorem additions_ok (path : Path) (h : Formed K p n)
    (hd : n.is .variableDeclarator → ∃ s π v, path = s :: π ∧ s.owner.get "kind" = .ok v) :
    ∃ as, Place.additions ⟨n, path⟩ = .ok as := by
  have identifier (i : Info) (x : Text) :
      ∃ as, Place.additions ⟨.node i (.known .identifier) [.text x], path⟩ = .ok as := by
    show ∃ as, (if true && Place.isReference _ then _ else _) = _
    split <;> exact ⟨_, rfl⟩
  induction h with
  | absent | literalKey _ _ => exact ⟨_, rfl⟩
  | present _ ih | wordKey _ ih | identifier _ ih | target _ _ ih | blockStatement _ ih
  | declarationStatement _ ih | initialDeclaration _ ih | initialExpression _ ih | iteratedTarget _ ih => exact ih hd
  | name _ _ | word _ _ => exact identifier _ _
  | function _ hf hps _ =>
    cases hf with
    | absent => exact functionAdditions_ok .function rfl rfl rfl hps
    | present hf =>
      cases hf with
      | name _ _ => exact functionAdditions_ok .function rfl rfl rfl hps
  | arrowBlock _ hps _ | arrow _ hps _ => exact functionAdditions_ok .arrow rfl rfl rfl hps
  | declarator _ hx _ =>
    obtain ⟨s, π, v, rfl, hv⟩ := hd rfl
    cases hx with
    | name _ _ =>
      by_cases hvar : v = .text "var"
      · exact ⟨_, bind_ok.mpr ⟨v, hv, by rw [if_pos hvar]; rfl⟩⟩
      · exact ⟨_, bind_ok.mpr ⟨v, hv, by rw [if_neg hvar]; rfl⟩⟩
  | block _ _ =>
    -- The block has a scope of its own unless it is the body of a function or of a catch clause.
    unfold Place.additions
    split
    · exact ⟨_, rfl⟩
    · next kind hkind hopens =>
      rcases Lowering.opens?_eq_some hopens with ⟨h, -⟩ | ⟨h, -⟩ | h
      · cases h
      · cases h
      · exact absurd h hkind
    · exact ⟨_, rfl⟩
  | functionDeclaration _ hf hps _ =>
    cases hf with
    | name _ _ => exact functionAdditions_ok .function rfl rfl rfl hps
  | handler _ hx _ =>
    cases hx with
    | name _ _ => exact ⟨_, rfl⟩
  | _ => exact ⟨_, rfl⟩

theorem ofTree_ok (h : Formed K .program t) : ∃ scopes, ScopeTable.ofTree t = .ok scopes := by
  refine ⟨_, ScopeTable.ofTree_ok.mpr ⟨fun ⟨n, path⟩ hp => ?_, rfl⟩⟩
  obtain ⟨q, hq, hd⟩ := h.place hp
  obtain ⟨as, has⟩ := hq.additions_ok path fun hn => by
    rcases hd hn with rfl | ⟨s, π, rfl, hs, r, hr⟩
    · obtain ⟨rfl, -⟩ := Tree.mem_places_nil.mp hp
      cases h.core_of_declarator hn
    · obtain ⟨v, hv⟩ := hr.kind_of_declaration hs
      exact ⟨s, π, v, rfl, hv⟩
  rw [Place.added, has]
  rfl

/-! ## Names -/

theorem name_of_identifier (h : Formed K p t) (ht : t.is .identifier) :
    ∃ x, t.attribute? "name" = some (.text x) := by
  induction h with
  | present _ ih | wordKey _ ih | identifier _ ih | target _ _ ih | blockStatement _ ih
  | declarationStatement _ ih | initialDeclaration _ ih | initialExpression _ ih | iteratedTarget _ ih => exact ih ht
  | name _ _ | word _ _ => exact ⟨_, rfl⟩
  | _ => cases ht

end Formed

theorem exists_bind {x : Except Fault α} {f : α → Except Fault β} {v : α} (hx : x = .ok v)
    (hf : ∃ b, f v = .ok b) : ∃ b, x >>= f = .ok b := by
  obtain ⟨b, hb⟩ := hf
  exact ⟨b, bind_ok.mpr ⟨v, hx, hb⟩⟩

theorem exists_foldlM {f : β → α → Except Fault β} (xs : List α) (b : β)
    (h : ∀ c, ∀ x ∈ xs, ∃ c', f c x = .ok c') : ∃ b', xs.foldlM f b = .ok b' := by
  induction xs generalizing b with
  | nil => exact ⟨_, rfl⟩
  | cons x xs ih =>
    obtain ⟨c, hc⟩ := h b x (.head _)
    obtain ⟨b', hb'⟩ := ih c fun c y hy => h c y (.tail _ hy)
    exact ⟨b', bind_ok.mpr ⟨c, hc, hb'⟩⟩

namespace Formed

open Lowering

theorem identifierNames_ok (h : Formed K p t) : ∃ names, identifierNames t = .ok names := by
  refine exists_filterMapM fun n hn => ?_
  obtain ⟨⟨n, path⟩, hp, rfl⟩ := mem_map.mp hn
  obtain ⟨q, hq, -⟩ := h.place hp
  split
  · next hid =>
    obtain ⟨x, hx⟩ := hq.name_of_identifier hid
    rw [hx]
    exact ⟨_, rfl⟩
  · exact ⟨_, rfl⟩

theorem describeTarget_ok (h : Formed K p t) : ∃ x, describeTarget t = .ok x := by
  induction h with
  | present _ ih | wordKey _ ih | identifier _ ih | target _ _ ih | blockStatement _ ih
  | declarationStatement _ ih | initialDeclaration _ ih | initialExpression _ ih | iteratedTarget _ ih => exact ih
  | function _ hf _ _ _ _ _ =>
    cases hf with
    | absent => exact ⟨_, rfl⟩
    | present hf => cases hf; exact ⟨_, rfl⟩
  | declarator _ hx _ _ _ => cases hx; exact ⟨_, rfl⟩
  | functionDeclaration _ hf _ _ _ _ _ => cases hf; exact ⟨_, rfl⟩
  | _ => exact ⟨_, rfl⟩

theorem nameable (h : Formed K p t) : Nameable t := ⟨h.identifierNames_ok, h.describeTarget_ok⟩

theorem find?_formed (h : Formed K p t) (id : NodeId) : ∃ q, Formed K q ((t.find? id).getD .null) := by
  cases hfind : t.find? id with
  | none => exact ⟨.orNull .name, .absent⟩
  | some n =>
    obtain ⟨⟨n, path⟩, hp, rfl⟩ := mem_map.mp (mem_of_find?_eq_some hfind)
    obtain ⟨q, hq, -⟩ := h.place hp
    exact ⟨q, hq⟩

end Formed

/-! ## References -/

namespace ScopeTable

theorem references_enterAll {t : ScopeTable} (h : r ∈ t.references) (ps : List Place) :
    r ∈ (t.enterAll ps).references := by
  induction ps generalizing t with
  | nil => exact h
  | cons p ps ih =>
    refine ih ?_
    rw [references_addAll]
    exact mem_append_left _ h

theorem added_of_reference {p : Place} (hid : p.node.is .identifier) (href : p.isReference) :
    p.added = [.reference p.node.id p.node.name?] := by
  obtain ⟨n, path⟩ := p
  obtain ⟨i, slots, rfl⟩ := Lowering.is_iff.mp hid
  have hadditions : Place.additions ⟨.node i (.known .identifier) slots, path⟩ =
      if true && Place.isReference ⟨.node i (.known .identifier) slots, path⟩ then
        .ok [.reference i.id (Tree.node i (.known .identifier) slots).name?]
      else .ok [] := by
    cases slots <;> rfl
  rw [Place.added, hadditions, if_pos (by simpa using href)]
  rfl

theorem recorded_of_place {root : Tree} {t : ScopeTable} (h : ofTree root = .ok t) {p : Place}
    (hp : p ∈ root.places) (hid : p.node.is .identifier) (href : p.isReference) :
    ∃ r, t.reference? p.node.id = some r := by
  have hadded := added_of_reference hid href
  obtain ⟨ps, qs, hsplit⟩ := append_of_mem hp
  obtain ⟨-, rfl⟩ := ofTree_ok.mp h
  let before := (initial root).enterAll ps
  have hmem : ⟨p.node.id, p.node.name?, before.enclosing p.path⟩ ∈
      ((initial root).enterAll root.places).references := by
    rw [hsplit, enterAll, foldl_append, foldl_cons, hadded]
    refine references_enterAll ?_ qs
    rw [references_addAll]
    exact mem_append_right _ (.head _)
  exact Option.isSome_iff_exists.mp (find?_isSome.mpr ⟨_, hmem, by simp⟩)

theorem Outlined.scopeOf_ok {t : ScopeTable} {known : List Place} (h : t.Outlined known) {p : Place}
    (hp : p ∈ known) {kind : ScopeKind} (hopens : p.opens? = some kind) :
    ∃ i, t.scopeOf p.node = .ok i ∧ i < t.scopes.length := by
  obtain ⟨s, hs, -, hnode, -⟩ := h.opened p hp kind hopens
  unfold scopeOf
  cases hscope : t.scopeOf? p.node.id with
  | some i => exact ⟨i, rfl, scopeOf?_lt hscope⟩
  | none =>
    rw [scopeOf?_eq, findSome?_eq_none_iff] at hscope
    have hlt := (List.getElem?_eq_some_iff.mp hs).1
    have hmem : (t.number p.node.id, p.node.id) ∈
        ((range t.scopes.length).zip (t.scopes.map Scope.node)).reverse := by
      refine mem_reverse.mpr (mem_of_getElem? (i := t.number p.node.id) ?_)
      refine getElem?_zip_eq_some.mpr ⟨getElem?_range hlt, ?_⟩
      rw [getElem?_map, hs, ← hnode]
      rfl
    simpa using hscope _ hmem

end ScopeTable

namespace Lowering

open ScopeTable

variable {root arrow : Tree} {scopes : ScopeTable}

theorem resolve_of_recorded (h : scopes.Rooted) (hr : scopes.reference? n.id = some r) :
    ∃ res, resolve scopes n = .ok res := by
  obtain ⟨res, hres⟩ := exists_resolveFrom h (h.references r (mem_of_find?_eq_some hr))
  refine ⟨res, bind_ok.mpr ⟨r.scope, ?_, hres⟩⟩
  unfold referenceScope
  rw [hr]
  rfl

theorem exists_owner (h : scopes.Rooted) {i : Nat} (hi : i < scopes.scopes.length) :
    ∃ j s, scopes.owner? i = some j ∧ scopes.scopes[j]? = some s := by
  obtain ⟨j, hj⟩ := Option.isSome_iff_exists.mp (h.owner?_isSome hi)
  obtain ⟨⟨k, s⟩, hfind, rfl⟩ := Option.map_eq_some_iff.mp hj
  exact ⟨k, s, hj, mem_scopesOn (mem_of_find?_eq_some hfind)⟩

theorem collectReferences_ok (hd : root.Distinct) (h : ofTree root = .ok scopes) (harrow : arrow ∈ root.nodes)
    (hisArrow : arrow.isArrow) : ∃ refs, collectReferences scopes arrow = .ok refs := by
  obtain ⟨⟨arrow, π⟩, hplace, rfl⟩ := mem_map.mp harrow
  refine exists_filterMapM fun p hp => ?_
  split
  · next hname =>
    simp only [Bool.and_eq_true, decide_eq_true_eq] at hname
    obtain ⟨hargs, href⟩ := hname
    obtain ⟨hunder, -⟩ := under_of_ownPlaces hd hplace hisArrow hp
    have hid : p.node.is .identifier := by
      by_contra hid
      rw [Tree.name?, if_neg hid] at hargs
      cases hargs
    -- The arrow itself is no identifier, so that the reference has its parent within the arrow.
    have hreference : (p.under π).isReference := by
      obtain ⟨n, _ | ⟨s, path⟩⟩ := p
      · obtain ⟨rfl, -⟩ := Tree.mem_places_nil.mp (Tree.mem_placesAt_skip.mp hp).1
        obtain ⟨i, slots, rfl⟩ := is_iff.mp hid
        cases hisArrow
      · exact href
    obtain ⟨r, hr⟩ := recorded_of_place h hunder hid hreference
    obtain ⟨res, hres⟩ := resolve_of_recorded (rooted_ofTree h) hr
    exact exists_bind hres ⟨_, rfl⟩
  · exact ⟨_, rfl⟩

theorem hoistTarget_ok (hd : root.Distinct) (h : ofTree root = .ok scopes) (harrow : arrow ∈ root.nodes)
    (hisArrow : arrow.isArrow) : ∃ target, hoistTarget scopes arrow = .ok target := by
  obtain ⟨⟨arrow, π⟩, hplace, rfl⟩ := mem_map.mp harrow
  have ho := outlined_ofTree hd h
  obtain ⟨i, hi, hlt⟩ := ho.scopeOf_ok hplace (if_pos hisArrow)
  obtain ⟨j, s, hj, hs⟩ := exists_owner (rooted_ofTree h) hlt
  refine exists_bind hi ?_
  rw [hj, Option.bind_some, hs]
  exact ⟨_, rfl⟩

theorem hiddenBindings_ok (h : scopes.Rooted) : ∃ hidden, hiddenBindings scopes = .ok hidden := by
  obtain ⟨groups, hgroups⟩ := exists_foldlM (f := fun groups ref => do
    return addReference groups scopes ref.identifier (← resolveFrom scopes ref.scope))
    (scopes.referencesTo argumentsName) {} fun c ref href => by
      obtain ⟨r, hr⟩ := exists_resolveFrom h (h.references ref (mem_filter.mp href).1)
      exact exists_bind hr ⟨_, rfl⟩
  exact exists_bind hgroups ⟨_, rfl⟩

theorem Nameable.withName_ok (h : Nameable n) (a : Analysis) : ∃ r, a.withName n = .ok r := by
  obtain ⟨⟨names, hnames⟩, x, hx⟩ := h
  unfold Analysis.withName nameFor
  cases a.names.get? n.id with
  | some name => exact ⟨_, rfl⟩
  | none =>
    simp only [hnames, hx]
    exact ⟨_, rfl⟩

/-- The facts for lowering are found if the nodes that need a name can be given one. -/
theorem exists_analyze (hd : root.Distinct) (h : ofTree root = .ok scopes)
    (htargets : ∀ arrow target, Hoists root scopes arrow target →
      Nameable ((root.find? target).getD .null))
    (hnames : ∀ hidden x, hiddenBindings scopes = .ok hidden → x ∈ hidden →
      Nameable ((scopes.scopes[x.1]?.bind fun s => root.find? s.node).getD .null)) :
    ∃ a, analyze scopes root = .ok a := by
  obtain ⟨b, hb⟩ : ∃ b,
      (root.nodes.filter Tree.isArrow).foldlM (Analysis.addArrow root scopes) {} = .ok b := by
    refine exists_foldlM _ _ fun a arrow harrow => ?_
    obtain ⟨hmem, hisArrow⟩ := mem_filter.mp harrow
    obtain ⟨refs, hrefs⟩ := collectReferences_ok hd h hmem hisArrow
    obtain ⟨target, htarget⟩ := hoistTarget_ok hd h hmem hisArrow
    refine exists_bind hrefs ?_
    split
    · exact ⟨_, rfl⟩
    · next hne =>
      refine exists_bind htarget ?_
      cases target with
      | none => exact ⟨_, rfl⟩
      | some target =>
        have hname := htargets arrow target ⟨hmem, hisArrow, htarget, refs, hrefs, fun hnil =>
          hne (isEmpty_iff.mpr hnil)⟩
        obtain ⟨⟨b, name⟩, hb⟩ := hname.withName_ok _
        exact exists_bind hb ⟨_, rfl⟩
  obtain ⟨hidden, hhidden⟩ := hiddenBindings_ok (rooted_ofTree h)
  obtain ⟨a, ha⟩ : ∃ a, hidden.foldlM (Analysis.addHidden root scopes) b = .ok a := by
    refine exists_foldlM _ _ fun a x hx => ?_
    obtain ⟨⟨b, name⟩, hb⟩ := (hnames hidden x hhidden hx).withName_ok a
    exact exists_bind hb ⟨_, rfl⟩
  exact exists_bind hb (exists_bind hhidden ⟨a, ha⟩)

end Lowering

namespace Formed

open Lowering

theorem analyze_ok (h : Formed K .program t) (hd : t.Distinct) {scopes : ScopeTable}
    (hscopes : ScopeTable.ofTree t = .ok scopes) : ∃ a, analyze scopes t = .ok a := by
  refine exists_analyze hd hscopes (fun arrow target _ => ?_) fun hidden x _ _ => ?_
  · obtain ⟨q, hq⟩ := h.find?_formed target
    exact hq.nameable
  · cases scopes.scopes[x.1]? with
    | none => exact (Formed.absent (K := K) (p := .name)).nameable
    | some s =>
      obtain ⟨q, hq⟩ := h.find?_formed s.node
      exact hq.nameable

end Formed

end ArrowFree
