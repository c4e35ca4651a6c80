import ArrowFree.Proofs.CounterpartAdditions
import ArrowFree.Proofs.Outline

/-!
# The scopes of a lowered tree

The table of a lowered tree mirrors the table of the tree (`mirrors_of_apply`): the scopes have the same
numbers and parents, an arrow's scope has become that of a function, and each scope holds the same
declarations with the new names, and one more if it is that of a function that keeps its arguments. The
two tables are built side by side, one pair of places after the other.
-/

namespace ArrowFree.Lowering

open ArrowFree.Tree ScopeTable List

variable {a : Analysis} {t t' : ScopeTable}
variable {i : Nat} {p p' : Place} {fs : List NodeId} {π : Path} {hosts : List (NodeId × Nat)} {f : NodeId}
  {known' : List Place}
variable {places known : List Place} {kind : ScopeKind} {ds : List Declaration} {s : Scope}
  {n k : Nat} {function body d : Tree} {name : Text}

/-! ## Scopes around counterparts -/

/-- What kind of scope it is after lowering. -/
def loweredKind : ScopeKind → ScopeKind
  | .arrow => .function
  | kind => kind

/-- Which node opens the scope after lowering. -/
def loweredNode : ScopeKind → NodeId → NodeId
  | .arrow, owner => .made .functionOf owner
  | _, owner => owner

theorem loweredNode_of_ne (h : kind ≠ .arrow) (owner : NodeId) :
    loweredNode kind owner = owner := by
  cases kind with
  | arrow => exact absurd rfl h
  | program | function | block => rfl

theorem loweredKind_of_ne (h : kind ≠ .arrow) : loweredKind kind = kind := by
  cases kind with
  | arrow => exact absurd rfl h
  | program | function | block => rfl

/-- The scopes of these places have the same numbers in both tables. -/
def SameNumbers (places : List Place) (t t' : ScopeTable) : Prop :=
  ∀ p ∈ places, ∀ kind, p.opens? = some kind →
    t'.number (loweredNode kind p.node.id) = t.number p.node.id

theorem kind_ne_arrow (h : p.opens? = some kind) (harrow : p.node.isArrow = false) :
    kind ≠ .arrow := by
  rintro rfl
  unfold Place.opens? at h
  rw [if_neg (by simp [harrow])] at h
  split at h
  · cases h
  split at h
  · cases h
  split at h
  · cases h
  · cases h

theorem enclosing_bindSteps (t' : ScopeTable) (i : Info) (function : Tree) (π : Path) :
    t'.enclosing (bindSteps a i function ++ π) = t'.enclosing π := by
  unfold bindSteps
  split
  · rfl
  · rfl

/-- Both ends of a path are in scopes of the same number. -/
theorem enclosing_follows (h : SameNumbers places t t') {π' : Path} (hf : Follows a π π')
    (hk : π.Known places) : t'.enclosing π' = t.enclosing π := by
  induction hf with
  | root => rfl
  | @kept i s slots slots' field n n' π π' harrow hslots hbody hf ih =>
    rw [enclosing_cons, enclosing_cons, opens?_kept hbody, ih hk.2]
    cases ho : Place.opens? ⟨.node i s slots, π⟩ with
    | none => rfl
    | some kind =>
      have hnumber := h _ hk.1 kind ho
      rw [loweredNode_of_ne (kind_ne_arrow ho harrow)] at hnumber
      exact hnumber
  | parameter | block | concise => exact h _ hk.1 .arrow rfl

theorem enclosing_counterpart (h : SameNumbers places t t') (hc : Counterpart a p p')
    (hk : p.path.Known places) : t'.enclosing p'.path = t.enclosing p.path := by
  cases hc with
  | renamed hname hf => exact enclosing_follows h hf hk
  | kept hname harrow hslots hbody hf => exact enclosing_follows h hf hk
  | arrow hparams hbody hnode hf =>
    rw [enclosing_bindSteps]
    exact enclosing_follows h hf hk

theorem opens?_counterpart (hc : Counterpart a p p') : p'.opens? = p.opens?.map loweredKind ∧
      ∀ kind, p.opens? = some kind → p'.node.id = loweredNode kind p.node.id := by
  cases hc with
  | renamed hname hf => exact ⟨rfl, nofun⟩
  | @kept i s slots slots' π π' hname harrow hslots hbody hf =>
    rw [opens?_kept hbody]
    cases ho : Place.opens? ⟨.node i s slots, π⟩ with
    | none => exact ⟨rfl, nofun⟩
    | some kind =>
      have hne := kind_ne_arrow ho harrow
      refine ⟨?_, ?_⟩
      · rw [Option.map_some, loweredKind_of_ne hne]
      · rintro _ ⟨⟩
        rw [loweredNode_of_ne hne]
        rfl
  | arrow hparams hbody hnode hf =>
    refine ⟨rfl, ?_⟩
    rintro _ ⟨⟩
    rfl

/-! ## Declarations -/

/-- A declaration as the counterpart of its place makes it. -/
def loweredDeclaration (a : Analysis) (d : Declaration) : Declaration :=
  ⟨a.newName d.identifier d.name, d.type,
    if d.type = .parameter then a.newId d.node else d.node, a.newId d.identifier⟩

/-- The declaration of the variable that keeps the arguments of a function. -/
def keptArguments (a : Analysis) (f : NodeId) : Declaration :=
  ⟨(a.hoistedNames.get? f).getD [], .variable, .made .declaratorOf f, .made .bindingNameOf f⟩

/-- The declarations of a scope before and after lowering, with the functions whose arguments are
kept in that scope. -/
inductive Interleaved (a : Analysis) :
    List Declaration → List NodeId → List Declaration → Prop
  | nil : Interleaved a [] [] []
  | lowered {ds ds' : List Declaration} {fs : List NodeId} (d : Declaration)
      (h : Interleaved a ds fs ds') : Interleaved a (ds ++ [d]) fs (ds' ++ [loweredDeclaration a d])
  | kept {ds ds' : List Declaration} {fs : List NodeId} (f : NodeId)
      (h : Interleaved a ds fs ds') : Interleaved a ds (fs ++ [f]) (ds' ++ [keptArguments a f])

theorem Interleaved.append {ds' : List Declaration} (h : Interleaved a ds fs ds') (es : List Declaration) :
    Interleaved a (ds ++ es) fs (ds' ++ es.map (loweredDeclaration a)) := by
  induction es generalizing ds ds' with
  | nil => simpa using h
  | cons e es ih => simpa using ih (h.lowered e)

theorem declarationIn_lowered (scope : Reach → Nat) (i : Nat) (x : Addition) :
    (lowered a x).declarationIn scope i = (x.declarationIn scope i).map (loweredDeclaration a) := by
  cases x with
  | scope kind node nodeType => cases kind <;> rfl
  | binding reach name type node identifier =>
    simp only [lowered, Addition.declarationIn]
    split <;> rfl
  | reference identifier name => rfl

/-- The counterpart of a place declares what the place declares. -/
theorem declarations_counterpart (hc : Counterpart a p p') (hp : p.additions = .ok p.added) (scope : Reach → Nat)
    (i : Nat) : p'.declarations scope i = (p.declarations scope i).map (loweredDeclaration a) := by
  have hadded : p'.added = p.added.map (lowered a) := by
    rw [Place.added, additions_counterpart hc hp]
    rfl
  unfold Place.declarations
  rw [hadded, filterMap_map, map_filterMap]
  exact filterMap_congr fun x _ => declarationIn_lowered scope i x

/-! ## Tables side by side -/

/-- The functions whose arguments are kept in this scope. -/
def keptIn (hosts : List (NodeId × Nat)) (i : Nat) : List NodeId :=
  (hosts.filter fun x => x.2 = i).map Prod.fst

theorem mem_keptIn : f ∈ keptIn hosts i ↔ (f, i) ∈ hosts := by
  simp [keptIn]

/-- A scope before and after lowering. -/
structure Becomes (a : Analysis) (ds : List Declaration) (fs : List NodeId) (s s' : Scope) :
    Prop where
  kind : s'.kind = loweredKind s.kind
  parent : s'.parent = s.parent
  node : s.kind ≠ .program → s'.node = loweredNode s.kind s.node
  holds : ∃ ds', s'.Holds ds' ∧ Interleaved a ds fs ds'

/-- A reference as the counterpart of its place makes it. -/
def loweredReference (a : Analysis) (r : Reference) : Reference :=
  ⟨a.newId r.identifier, (a.replacement? r.identifier).or r.name, r.scope⟩

/-- The scopes that the top of the body of a function can be in: that of the function, or the one that
the body opens. -/
inductive BodyScope (places : List Place) (t : ScopeTable) (f : NodeId) : Nat → Prop
  | shared : BodyScope places t f (t.number f)
  | own {b : Place} {function : Tree} {n : Option Nat} {π : Path} {kind : ScopeKind} (hb : b ∈ places)
      (hpath : b.path = ⟨function, "body", n⟩ :: π) (hid : function.id = f)
      (ho : b.opens? = some kind) (hkind : kind ≠ .arrow) : BodyScope places t f (t.number b.node.id)

/-- The `arguments` in the declaration that keeps the arguments of a function. -/
def keptReference (f : NodeId) (i : Nat) : Reference :=
  ⟨.made .bindingValueOf f, some argumentsName, i⟩

/-- The tables of the places entered so far, with the scopes that hold the kept arguments. -/
structure Mirrors (a : Analysis) (places known : List Place) (hosts : List (NodeId × Nat))
    (t t' : ScopeTable) : Prop where
  rooted : t'.Rooted
  length : t'.scopes.length = t.scopes.length
  numbers : SameNumbers places t t'
  scopes : ∀ (i : Nat) (s : Scope), t.scopes[i]? = some s →
    ∃ s', t'.scopes[i]? = some s' ∧ Becomes a (t.declarationsIn known i) (keptIn hosts i) s s'
  functions : ∀ x ∈ hosts, ∃ p ∈ known, p.node.id = x.1 ∧ p.opens? = some .function
  references : ∀ r ∈ t.references, loweredReference a r ∈ t'.references
  kept : ∀ x ∈ hosts, ∃ e, BodyScope known t x.1 e ∧ (t.variableScope? e).getD 0 = x.2 ∧
    keptReference x.1 e ∈ t'.references
  others : ∀ r' ∈ t'.references, (∃ r ∈ t.references, r' = loweredReference a r) ∨
    ∃ x ∈ hosts, ∃ e, r' = keptReference x.1 e

theorem kind_ne_block (kind : ScopeKind) : (loweredKind kind ≠ .block) = (kind ≠ .block) := by
  cases kind <;> simp [loweredKind]

theorem Mirrors.scopesOn (h : Mirrors a places known hosts t t') (ht : t.Rooted) (hi : i < t.scopes.length) :
    (t'.scopesOn i).map (fun x => (x.1, x.2.kind)) =
      (t.scopesOn i).map fun x => (x.1, loweredKind x.2.kind) := by
  refine ht.induction (P := fun i => (t'.scopesOn i).map (fun x => (x.1, x.2.kind)) =
      (t.scopesOn i).map fun x => (x.1, loweredKind x.2.kind)) ?_ ?_ hi
  · obtain ⟨s, hs, -, hon⟩ := ht.scopesOn_zero
    obtain ⟨s', hs', -, hon'⟩ := h.rooted.scopesOn_zero
    obtain ⟨s'', hs'', hb⟩ := h.scopes 0 s hs
    obtain rfl : s' = s'' := Option.some.inj (hs'.symm.trans hs'')
    rw [hon, hon', map_singleton, map_singleton, hb.kind]
  · intro i p s hs hp ih
    obtain ⟨s', hs', hb⟩ := h.scopes _ s hs
    rw [ht.scopesOn_succ hs hp, h.rooted.scopesOn_succ hs' (hb.parent.trans hp), map_cons,
      map_cons, ih, hb.kind]

theorem Mirrors.variableScope? (h : Mirrors a places known hosts t t') (ht : t.Rooted)
    (hi : i < t.scopes.length) : t'.variableScope? i = t.variableScope? i := by
  have hleft : t'.variableScope? i = (((t'.scopesOn i).map fun x => (x.1, x.2.kind)).find? fun x =>
      x.2 ≠ .block).map Prod.fst := by
    rw [find?_map, Option.map_map]
    rfl
  rw [hleft, h.scopesOn ht hi, find?_map, Option.map_map]
  show ((t.scopesOn i).find? fun x => decide (loweredKind x.2.kind ≠ .block)).map Prod.fst = _
  simp only [kind_ne_block]
  rfl

theorem Becomes.grow {es : List Declaration} {s' s₁ s₁' : Scope} (h : Becomes a ds fs s s')
    (hbare : s₁.bare = s.bare) (hbare' : s₁'.bare = s'.bare)
    (hholds : ∀ ds', s'.Holds ds' → s₁'.Holds (ds' ++ es.map (loweredDeclaration a))) :
    Becomes a (ds ++ es) fs s₁ s₁' := by
  obtain ⟨hkind, hnode, hparent⟩ := Scope.of_bare hbare
  obtain ⟨hkind', hnode', hparent'⟩ := Scope.of_bare hbare'
  obtain ⟨ds', hds', hi⟩ := h.holds
  refine ⟨?_, ?_, ?_, ds' ++ es.map (loweredDeclaration a), hholds ds' hds', ?_⟩
  · rw [hkind, hkind', h.kind]
  · rw [hparent, hparent', h.parent]
  · rw [hkind, hnode, hnode']
    exact h.node
  · exact hi.append es

theorem BodyScope.mono {t₁ : ScopeTable} (h : BodyScope known t f i) (hsub : known ⊆ known')
    (hf : t₁.number f = t.number f) (hnumber : ∀ q ∈ known, t₁.number q.node.id = t.number q.node.id) :
    BodyScope known' t₁ f i := by
  cases h with
  | shared =>
    rw [← hf]
    exact .shared
  | own hb hpath hid ho hkind =>
    rw [← hnumber _ hb]
    exact .own (hsub hb) hpath hid ho hkind

theorem BodyScope.lt (h : BodyScope known t f i) (ht : t.Rooted) : i < t.scopes.length := by
  cases h with
  | shared | own => exact ht.number_lt _

theorem reference?_lowered (current : Nat) (x : Addition) :
    (lowered a x).reference? current = (x.reference? current).map (loweredReference a) := by
  cases x with
  | scope kind node nodeType => cases kind <;> rfl
  | binding | reference => rfl

theorem loweredNode_inj {k k' : ScopeKind} {m : Nat}
    (h : loweredNode k (.numbered m) = loweredNode k' (.numbered n)) : m = n := by
  cases k <;> cases k' <;> simp [loweredNode] at h <;> exact h

section Step

variable {root : Tree} {known : List Place} {hosts : List (NodeId × Nat)} {p p' : Place}
  (hd : root.Distinct) (h : Mirrors a root.places known hosts t t') (ho : t.Outlined known)
  (hsub : known ⊆ root.places) (hp : p ∈ root.places) (hadd : p.additions = .ok p.added)
  (hpath : p.path.Known known) (hnew : ∀ q ∈ known, q.node.id ≠ p.node.id)
  (hc : Counterpart a p p')

include h ho hsub hpath hc in
theorem Mirrors.goal_eq : t'.goal p' = t.goal p := by
  have hcurrent := enclosing_counterpart h.numbers hc (hpath.mono hsub)
  funext reach
  cases reach with
  | own => exact h.length
  | innermost => exact hcurrent
  | «variable» =>
    show (t'.variableScope? (t'.enclosing p'.path)).getD 0 = (t.variableScope? _).getD 0
    rw [hcurrent, h.variableScope? ho.rooted (ho.rooted.enclosing_lt p.path)]

include h ho hsub hadd hpath hnew hc in
theorem Mirrors.scopes_old (hadd' : p'.additions = .ok p'.added) {i : Nat} (hi : i < t.scopes.length)
    (hs : (t.entered p).scopes[i]? = some s) :
    ∃ s', (t'.entered p').scopes[i]? = some s' ∧
      Becomes a ((t.entered p).declarationsIn (known ++ [p]) i) (keptIn hosts i) s s' := by
  obtain ⟨s₀, hs₀⟩ : ∃ s₀, t.scopes[i]? = some s₀ := ⟨_, getElem?_eq_getElem hi⟩
  obtain ⟨s₀', hs₀', hb⟩ := h.scopes i s₀ hs₀
  obtain ⟨s₁, hs₁, hbare, -⟩ := (entered_old ho.rooted hadd).2 i s₀ hs₀
  obtain rfl : s₁ = s := Option.some.inj (hs₁.symm.trans hs)
  obtain ⟨s₁', hs₁', hbare', hholds'⟩ := (entered_old h.rooted hadd').2 i s₀' hs₀'
  refine ⟨s₁', hs₁', ?_⟩
  rw [ho.declarationsIn_entered hadd hpath hnew]
  refine hb.grow hbare hbare' ?_
  intro ds' hds'
  rw [← declarations_counterpart hc hadd, ← h.goal_eq ho hsub hpath hc]
  exact hholds' ds' hds'

include h hsub hadd hpath hc in
theorem Mirrors.references_entered : ∃ rs, (t.entered p).references = t.references ++ rs ∧
      (t'.entered p').references = t'.references ++ rs.map (loweredReference a) := by
  refine ⟨p.added.filterMap (Addition.reference? (t.enclosing p.path)), references_addAll _ _ _, ?_⟩
  unfold entered
  rw [references_addAll, enclosing_counterpart h.numbers hc (hpath.mono hsub),
    Place.added, additions_counterpart hc hadd]
  show _ ++ (p.added.map (lowered a)).filterMap _ = _
  rw [filterMap_map, map_filterMap]
  exact congrArg _ (filterMap_congr fun x _ => reference?_lowered _ x)

include hd h ho hp hadd hc in
theorem Mirrors.numbers_entered (hadd' : p'.additions = .ok p'.added) :
    SameNumbers root.places (t.entered p) (t'.entered p') := by
  intro q hq k hk
  obtain ⟨hopens', hid'⟩ := opens?_counterpart hc
  cases hopens : p.opens? with
  | none =>
    rw [hopens] at hopens'
    rw [(entered_leaf ho.rooted hadd hopens).2.1, (entered_leaf h.rooted hadd' hopens').2.1]
    exact h.numbers q hq k hk
  | some kind =>
    rw [hopens] at hopens'
    rw [(entered_opening ho.rooted hadd hopens).2.2.1, (entered_opening h.rooted hadd' hopens').2.2.1,
      hid' kind hopens, h.length]
    by_cases hsame : p.node.id = q.node.id
    · obtain rfl := hd.place_eq hp hq hsame
      obtain rfl : kind = k := Option.some.inj (hopens.symm.trans hk)
      rw [if_pos rfl, if_pos rfl]
    · rw [if_neg hsame, if_neg, h.numbers q hq k hk]
      intro heq
      obtain ⟨m, hm⟩ := hd.numbered _ (node_mem_nodes hp)
      obtain ⟨n, hn⟩ := hd.numbered _ (node_mem_nodes hq)
      rw [hm, hn] at heq hsame
      exact hsame (congrArg NodeId.numbered (loweredNode_inj heq))

include h ho hsub hadd hpath hnew hc in
theorem Mirrors.scopes_entered (hadd' : p'.additions = .ok p'.added) (i : Nat) (s : Scope)
    (hs : (t.entered p).scopes[i]? = some s) :
    ∃ s', (t'.entered p').scopes[i]? = some s' ∧
      Becomes a ((t.entered p).declarationsIn (known ++ [p]) i) (keptIn hosts i) s s' := by
  have hi := (List.getElem?_eq_some_iff.mp hs).1
  obtain ⟨hopens', hid'⟩ := opens?_counterpart hc
  cases hopens : p.opens? with
  | none =>
    rw [(entered_leaf ho.rooted hadd hopens).1] at hi
    exact h.scopes_old ho hsub hadd hpath hnew hc hadd' hi hs
  | some kind =>
    rw [hopens] at hopens'
    obtain ⟨-, hlength, -, -, s₁, hs₁, hbare, -⟩ := entered_opening ho.rooted hadd hopens
    obtain ⟨-, -, -, -, s₁', hs₁', hbare', hholds'⟩ := entered_opening h.rooted hadd' hopens'
    by_cases hlast : i = t.scopes.length
    · subst hlast
      obtain rfl : s₁ = s := Option.some.inj (hs₁.symm.trans hs)
      obtain ⟨hkind, hnode, -, hparent, -⟩ := Scope.mk.inj hbare
      obtain ⟨hkind', hnode', -, hparent', -⟩ := Scope.mk.inj hbare'
      rw [h.length] at hs₁' hholds'
      refine ⟨s₁', hs₁', ⟨?_, ?_, fun _ => ?_, _, hholds', ?_⟩⟩
      · rw [hkind, hkind']
      · rw [hparent, hparent', enclosing_counterpart h.numbers hc (hpath.mono hsub)]
      · rw [hkind, hnode, hnode', hid' kind hopens]
      · -- No arguments are kept yet in the scope that the place opens.
        have hkept : keptIn hosts t.scopes.length = [] := by
          refine eq_nil_iff_forall_not_mem.mpr ?_
          intro f hf
          obtain ⟨e, -, hlt, -⟩ := h.kept _ (mem_keptIn.mp hf)
          exact absurd hlt (Nat.ne_of_lt (ho.rooted.variableScope_lt e))
        rw [hkept, ho.declarationsIn_entered hadd hpath hnew, ho.declarationsIn_length,
          declarations_counterpart hc hadd, h.goal_eq ho hsub hpath hc]
        exact Interleaved.nil.append _
    · exact h.scopes_old ho hsub hadd hpath hnew hc hadd' (by omega) hs

include hd h ho hsub hp hadd hpath hnew hc in
/-- **A place and its counterpart.** -/
theorem Mirrors.both :
    Mirrors a root.places (known ++ [p]) hosts (t.entered p) (t'.entered p') := by
  have hadd' : p'.additions = .ok p'.added := by
    rw [Place.added, additions_counterpart hc hadd]
    rfl
  obtain ⟨hnumber, hgrows⟩ := entered_old ho.rooted hadd
  obtain ⟨rs, hrs, hrs'⟩ := h.references_entered hsub hadd hpath hc
  have hleft : known ⊆ known ++ [p] := subset_append_left _ _
  refine ⟨rooted_entered h.rooted p', ?_, h.numbers_entered hd ho hp hadd hc hadd',
    h.scopes_entered ho hsub hadd hpath hnew hc hadd', fun x hx => ?_, fun r hr => ?_,
    fun x hx => ?_, fun r' hr' => ?_⟩
  · obtain ⟨hopens', -⟩ := opens?_counterpart hc
    cases hopens : p.opens? with
    | none =>
      rw [hopens] at hopens'
      rw [(entered_leaf ho.rooted hadd hopens).1, (entered_leaf h.rooted hadd' hopens').1, h.length]
    | some kind =>
      rw [hopens] at hopens'
      rw [(entered_opening ho.rooted hadd hopens).2.1, (entered_opening h.rooted hadd' hopens').2.1,
        h.length]
  · obtain ⟨q, hq, hfun⟩ := h.functions x hx
    exact ⟨q, hleft hq, hfun⟩
  · rw [hrs] at hr
    rw [hrs']
    rcases mem_append.mp hr with hr | hr
    · exact mem_append_left _ (h.references r hr)
    · exact mem_append_right _ (mem_map_of_mem hr)
  · obtain ⟨e, hbody, hvar, hmem⟩ := h.kept x hx
    obtain ⟨q, hq, hid, -⟩ := h.functions x hx
    rw [hrs']
    refine ⟨e, hbody.mono hleft ?_ fun q' hq' => hnumber _ (hnew q' hq'), ?_,
      mem_append_left _ hmem⟩
    · rw [← hid]
      exact hnumber _ (hnew q hq)
    · rw [hgrows.extends.variableScope? ho.rooted (rooted_entered ho.rooted p) (hbody.lt ho.rooted)]
      exact hvar
  · rw [hrs'] at hr'
    rw [hrs]
    rcases mem_append.mp hr' with hr' | hr'
    · rcases h.others r' hr' with ⟨r, hr, heq⟩ | hkept
      · exact Or.inl ⟨r, mem_append_left _ hr, heq⟩
      · exact Or.inr hkept
    · obtain ⟨r, hr, rfl⟩ := mem_map.mp hr'
      exact Or.inl ⟨r, mem_append_right _ hr, rfl⟩

end Step

/-! ## The declarations that keep arguments -/

/-- A place of a lowered tree that opens a scope is the counterpart of one. -/
theorem Matches.opening (hm : Matches a known known' fs) {q' : Place} (hq' : q' ∈ known')
    (ho : q'.opens? = some kind) : ∃ q ∈ known, Counterpart a q q' := by
  have hscope : ∀ {as}, q'.additions = .ok as →
      .scope kind q'.node.id (q'.node.type?.getD .null) ∈ as := by
    intro as has
    obtain ⟨outs, ins, rfl, -⟩ := Place.additions_opening ho has
    simp
  rcases hm.mem_right hq' with hc | hinert | ⟨function, body, n, name, π, hmade⟩
  · exact hc
  · simpa using hscope hinert
  · obtain ⟨p, q, r, s, heq, hp, -, hq, hr, -, hs⟩ := hoistPlaces_eq function body n name π
    rw [heq] at hmade
    simp only [mem_cons, not_mem_nil, or_false] at hmade
    rcases hmade with rfl | rfl | rfl | rfl
    · simpa using hscope hp
    · simpa using hscope hq
    · simpa using hscope hr
    · simpa using hscope hs

/-- A path out of a body that follows another leads out of the same function. -/
theorem follows_body {ρ : Path} {field : Text} {n : Option Nat} (h : Follows a ρ (⟨function, field, n⟩ :: π))
    (hid : function.id = .numbered k) : ∃ f n ρ', ρ = ⟨f, field, n⟩ :: ρ' ∧ f.id = function.id := by
  cases h with
  | kept harrow hslots hbody h => exact ⟨_, _, _, rfl, rfl⟩
  | parameter | block | concise => cases hid

/-- The body of a function for an arrow is no list. -/
theorem index_of_functionFor {i : Info} {params : Tree} (hnode : body.isNode) {o : Occurrence}
    (ho : o ∈ (functionFor i params body).occurrences) (hfield : o.field = "body") : o.index = none := by
  rw [occurrences_functionFor hnode, mem_cons, mem_append, mem_singleton] at ho
  rcases ho with rfl | ho | rfl
  · rfl
  · exact absurd ((field_of_mem_occurrencesOf ho).symm.trans hfield) (by decide)
  · rfl

/-- The scopes of a function and of its body, found again from the lowered function. A body that takes
the declaration has a list of statements, so it is not the function for an arrow. -/
theorem hoist_context (hm : Matches a known known' fs) (hfun : function.isOrdinaryFunction)
    (hid : function.id = .numbered k) (hfunction : ⟨function, π⟩ ∈ known')
    (hbody : ⟨body, ⟨function, "body", none⟩ :: π⟩ ∈ known') (hlist : ⟨"body", some n, d⟩ ∈ body.occurrences) :
    (∃ q ∈ known, q.node.id = function.id ∧ q.opens? = some .function) ∧
    ∀ kind, Place.opens? ⟨body, ⟨function, "body", none⟩ :: π⟩ = some kind →
      ∃ b ∈ known, ∃ f n ρ, b.path = ⟨f, "body", n⟩ :: ρ ∧ f.id = function.id ∧
        b.opens? = some kind ∧ kind ≠ .arrow ∧ body.id = b.node.id := by
  constructor
  · obtain ⟨q, hq, hc⟩ := hm.opening hfunction (opens?_of_ordinary hfun π)
    refine ⟨q, hq, ?_⟩
    cases hc with
    | renamed hname hf => cases hfun
    | kept hname harrow hslots hb hf =>
      exact ⟨rfl, (opens?_kept hb).symm.trans (opens?_of_ordinary hfun π)⟩
    | arrow hparams hb hnode hf => cases hid
  · intro kind ho
    obtain ⟨b, hb, hc⟩ := hm.opening hbody ho
    generalize hplace : (⟨body, ⟨function, "body", none⟩ :: π⟩ : Place) = b' at hc ho
    cases hc with
    | renamed hname hf => cases ho
    | kept hname harrow hslots hkept hf =>
      cases hplace
      rw [opens?_kept hkept] at ho
      obtain ⟨f, n, ρ, hpath, hid⟩ := follows_body hf hid
      exact ⟨_, hb, f, n, ρ, hpath, hid, ho, kind_ne_arrow ho harrow, rfl⟩
    | arrow hparams hbody hnode hf =>
      obtain ⟨rfl, -⟩ := Place.mk.inj hplace
      exact absurd (index_of_functionFor hnode hlist rfl) nofun

/-- The table with the declaration that keeps the arguments of a function, at the top of a body whose
innermost scope is `e`. -/
def withKept (t' : ScopeTable) (f : NodeId) (name : Text) (e : Nat) : ScopeTable :=
  { t'.define ((t'.variableScope? e).getD 0) name .variable (.made .declaratorOf f)
      (.made .bindingNameOf f) with
    references := t'.references ++ [keptReference f e] }

theorem enterAll_hoistPlaces (t' : ScopeTable) (function body : Tree) (n : Nat) (name : Text)
    (π : Path) :
    t'.enterAll (hoistPlaces function body n name π) = withKept t' function.id name
      (t'.enclosing (⟨body, "body", some n⟩ :: ⟨function, "body", none⟩ :: π)) := by
  obtain ⟨p, q, r, s, heq, hp, hqpath, hq, hr, hspath, hs⟩ := hoistPlaces_eq function body n name π
  have hdecl : t'.enclosing q.path =
      t'.enclosing (⟨body, "body", some n⟩ :: ⟨function, "body", none⟩ :: π) := by
    rw [hqpath]
    rfl
  rw [heq]
  show (((t'.entered p).entered q).entered r).entered s = _
  rw [t'.entered_of_additions hp]
  show ((t'.entered q).entered r).entered s = _
  rw [t'.entered_of_additions hq, hdecl]
  let u := t'.define ((t'.variableScope? (t'.enclosing (⟨body, "body", some n⟩ ::
    ⟨function, "body", none⟩ :: π))).getD 0) name .variable (.made .declaratorOf function.id)
    (.made .bindingNameOf function.id)
  show (u.entered r).entered s = _
  rw [u.entered_of_additions hr]
  show u.entered s = _
  have hvalue : u.enclosing s.path =
      t'.enclosing (⟨body, "body", some n⟩ :: ⟨function, "body", none⟩ :: π) := by
    rw [← hdecl, hqpath, hspath]
    exact enclosing_define _ _ _ _ _ _ _
  rw [u.entered_of_additions hs, hvalue]
  rfl

section Kept

variable {root : Tree} {known : List Place} {hosts : List (NodeId × Nat)} {q : Place}
  (hd : root.Distinct) (h : Mirrors a root.places known hosts t t') (ho : t.Outlined known)
  (hsub : known ⊆ root.places) (hq : q ∈ known) (hopens : q.opens? = some .function) {e : Nat}

include hd ho hsub hq hopens in
/-- The scope at the top of a body is that of the function or the one that the body opens in it. -/
theorem BodyScope.eq_or_own (hbody : BodyScope known t q.node.id e) :
    e = t.number q.node.id ∨ ∃ b ∈ known, ∃ function n π s, b.path = ⟨function, "body", n⟩ :: π ∧
      function.id = q.node.id ∧ b.opens? = some s.kind ∧ s.kind ≠ .arrow ∧ e = t.number b.node.id ∧
      t.scopes[e]? = some s ∧ s.node = b.node.id ∧ s.parent = some (t.number q.node.id) := by
  cases hbody with
  | shared => exact Or.inl rfl
  | @own b function n π kind hb hpath hid hkind hne =>
    obtain ⟨s, hs, rfl, hnode, hparent⟩ := ho.opened b hb kind hkind
    have howner : (⟨function, π⟩ : Place) = q := by
      have hclosed := ho.closed b hb
      rw [hpath] at hclosed
      have hknown : (⟨function, π⟩ : Place) ∈ known := hclosed.1
      exact hd.place_eq (hsub hknown) (hsub hq) hid
    have hsome : Place.opens? ⟨function, π⟩ = some .function := howner ▸ hopens
    rw [hpath, enclosing_cons] at hparent
    change s.parent = some (if (Place.opens? ⟨function, π⟩).isSome then _ else _) at hparent
    rw [hsome, Option.isSome_some, if_pos rfl, hid] at hparent
    exact Or.inr ⟨b, hb, function, n, π, s, hpath, hid, hkind, hne, rfl, hs, hnode, hparent⟩

include hd ho hsub hq hopens in
/-- A variable at the top of a body belongs to the function, or to a function that is the body. -/
theorem BodyScope.variableScope? (hbody : BodyScope known t q.node.id e) :
    t.variableScope? e = some (t.number q.node.id) ∨
      ∃ b ∈ known, ∃ function n π, b.path = ⟨function, "body", n⟩ :: π ∧ function.id = q.node.id ∧
        b.opens? = some .function ∧ t.variableScope? e = some (t.number b.node.id) := by
  obtain ⟨s, hs, hkind, -, -⟩ := ho.opened q hq .function hopens
  have hself : t.variableScope? (t.number q.node.id) = some (t.number q.node.id) :=
    ho.rooted.variableScope?_of_ne hs (by rw [hkind]; nofun)
  rcases hbody.eq_or_own hd ho hsub hq hopens with
    rfl | ⟨b, hb, function, n, π, sb, hpath, hid, hbopens, hne, rfl, hsb, -, hparent⟩
  · exact Or.inl hself
  rcases opens?_eq_some hbopens with ⟨-, harrow⟩ | ⟨-, hfunction⟩ | hblock
  · exact absurd harrow hne
  · refine Or.inr ⟨b, hb, function, n, π, hpath, hid, hfunction ▸ hbopens, ?_⟩
    exact ho.rooted.variableScope?_of_ne hsb (by rw [hfunction]; nofun)
  · rw [ho.rooted.variableScope?_of_block hsb hblock hparent]
    exact Or.inl hself

include h ho hq hopens in
/-- **A declaration that keeps arguments** gives one more declaration to the scope of variables at the
top of the body. -/
theorem Mirrors.withKept (hname : a.hoistedNames.get? q.node.id = some name)
    (hbody : BodyScope known t q.node.id e) :
    Mirrors a root.places known (hosts ++ [(q.node.id, (t.variableScope? e).getD 0)]) t
      (withKept t' q.node.id name e) := by
  have he := hbody.lt ho.rooted
  have hdeclaration : keptArguments a q.node.id =
      ⟨name, .variable, .made .declaratorOf q.node.id, .made .bindingNameOf q.node.id⟩ := by
    rw [keptArguments, hname]
    rfl
  unfold Lowering.withKept
  rw [h.variableScope? ho.rooted he]
  generalize hhost : (t.variableScope? e).getD 0 = host
  have hrooted := h.rooted.define host name .variable (.made .declaratorOf q.node.id)
    (.made .bindingNameOf q.node.id)
  refine ⟨⟨hrooted.program, hrooted.parent, fun r hr => ?_⟩, (length_define ..).trans h.length,
    fun p hp kind hk => (number_define ..).trans (h.numbers p hp kind hk), fun i s hs => ?_,
    fun x hx => ?_, fun r hr => mem_append_left _ (h.references r hr), fun x hx => ?_,
    fun r' hr' => ?_⟩
  · rcases mem_append.mp hr with hr | hr
    · exact hrooted.references r hr
    · rw [mem_singleton.mp hr]
      exact Nat.lt_of_lt_of_eq he (h.length.symm.trans (length_define ..).symm)
  · obtain ⟨s', hs', hb⟩ := h.scopes i s hs
    obtain ⟨s₁, hs₁, hbare, hholds⟩ := grows_define t' host name .variable
      (.made .declaratorOf q.node.id) (.made .bindingNameOf q.node.id) i s' hs'
    obtain ⟨hkind, hnode, hparent⟩ := Scope.of_bare hbare
    obtain ⟨ds', hds', hi⟩ := hb.holds
    refine ⟨s₁, hs₁, hkind.trans hb.kind, hparent.trans hb.parent,
      fun hprogram => hnode.trans (hb.node hprogram), _, hholds ds' hds', ?_⟩
    rw [keptIn, filter_append, map_append]
    beta_reduce
    by_cases hself : host = i
    · rw [if_pos hself, filter_cons_of_pos (by simp [hself]), ← hdeclaration]
      exact hi.kept _
    · rw [if_neg hself, filter_cons_of_neg (by simpa using hself), filter_nil,
        map_nil, append_nil, append_nil]
      exact hi
  · rcases mem_append.mp hx with hx | hx
    · exact h.functions x hx
    · rw [mem_singleton.mp hx]
      exact ⟨q, hq, rfl, hopens⟩
  · rcases mem_append.mp hx with hx | hx
    · obtain ⟨i, hb, hvar, hmem⟩ := h.kept x hx
      exact ⟨i, hb, hvar, mem_append_left _ hmem⟩
    · rw [mem_singleton.mp hx]
      exact ⟨e, hbody, hhost, by simp⟩
  · rcases mem_append.mp hr' with hr' | hr'
    · rcases h.others r' hr' with hold | ⟨x, hx, heq⟩
      · exact Or.inl hold
      · exact Or.inr ⟨x, mem_append_left _ hx, heq⟩
    · exact Or.inr ⟨(q.node.id, host), by simp, e, mem_singleton.mp hr'⟩

end Kept

/-! ## The whole tree -/

theorem mirrors_initial (a : Analysis) (root u : Tree) :
    Mirrors a root.places [] [] (initial root) (initial u) where
  rooted := rooted_initial u
  length := rfl
  numbers p hp kind hk := by
    have hzero : ∀ r id, (initial r).number id = 0 :=
      fun r id => Nat.lt_one_iff.mp ((rooted_initial r).number_lt id)
    rw [hzero, hzero]
  scopes i s hs := by
    obtain ⟨rfl, rfl⟩ : i = 0 ∧ ⟨.program, root.id, root.type?.getD .null, none, [], []⟩ = s := by
      cases i with
      | zero => exact ⟨rfl, Option.some.inj hs⟩
      | succ i => simp [initial] at hs
    exact ⟨_, rfl, rfl, rfl, fun hprogram => absurd rfl hprogram, [], rfl, .nil⟩
  functions := by simp
  references := by simp [initial]
  kept := by simp
  others := by simp [initial]

theorem enterAll_append (t : ScopeTable) (ps qs : List Place) :
    t.enterAll (ps ++ qs) = (t.enterAll ps).enterAll qs := foldl_append

section Run

variable {root u : Tree} (hd : root.Distinct)
  (hkeys : ∀ f name, a.hoistedNames.get? f = some name → ∃ k, f = .numbered k)
include hkeys

/-- The function and the top of its body around a declaration that keeps arguments. -/
theorem bodyScope_of_hoist {gs : List NodeId} {π : Path} (hbefore : Matches a known known' gs)
    (hnumbers : SameNumbers root.places t t') (hsub : known ⊆ root.places)
    (hfun : function.isOrdinaryFunction) (hname : a.hoistedNames.get? function.id = some name)
    (hpath : Path.Known known' (⟨body, "body", some n⟩ :: ⟨function, "body", none⟩ :: π))
    (hlist : ⟨"body", some n, d⟩ ∈ body.occurrences) :
    ∃ q ∈ known, q.node.id = function.id ∧ q.opens? = some .function ∧ BodyScope known t function.id
        (t'.enclosing (⟨body, "body", some n⟩ :: ⟨function, "body", none⟩ :: π)) := by
  obtain ⟨k, hk⟩ := hkeys _ _ hname
  obtain ⟨⟨q, hq, hqid, hqopens⟩, hbody⟩ := hoist_context hbefore hfun hk hpath.2.1 hpath.1 hlist
  refine ⟨q, hq, hqid, hqopens, ?_⟩
  rw [enclosing_cons]
  cases hopens : Place.opens? ⟨body, ⟨function, "body", none⟩ :: π⟩ with
  | none =>
    have hfunction : t'.enclosing (⟨function, "body", none⟩ :: π) = t.number function.id := by
      rw [enclosing_cons]
      show (if (Place.opens? ⟨function, π⟩).isSome then _ else _) = _
      rw [opens?_of_ordinary hfun, Option.isSome_some, if_pos rfl, ← hqid]
      exact hnumbers q (hsub hq) .function hqopens
    show BodyScope known t function.id (t'.enclosing (⟨function, "body", none⟩ :: π))
    rw [hfunction]
    exact .shared
  | some kind =>
    obtain ⟨b, hb, f, m, ρ, hbpath, hf, hbopens, hne, hid⟩ := hbody kind hopens
    have hnumber := hnumbers b (hsub hb) kind hbopens
    rw [loweredNode_of_ne hne] at hnumber
    show BodyScope known t function.id (t'.number body.id)
    rw [hid, hnumber]
    exact .own hb hbpath hf hbopens hne

include hd

/-- **Both tables, place by place.** -/
theorem Mirrors.run {ps ps' : List Place} {fs : List NodeId} (hm : Matches a ps ps' fs) {t' : ScopeTable}
    (hbefore : Matches a known known' (hosts.map Prod.fst)) (h : Mirrors a root.places known hosts t t')
    (ho : t.Outlined known) (hall : known ++ ps = root.places) (hplaces : ps' ⊆ u.places)
    (hadd : ∀ p ∈ ps, p.additions = .ok p.added) (horder : OwnersFirst known ps)
    (horder' : OwnersFirst known' ps') :
    ∃ more, more.map Prod.fst = fs ∧
      Mirrors a root.places root.places (hosts ++ more) (t.enterAll ps) (t'.enterAll ps') := by
  induction hm generalizing known known' hosts t t' with
  | nil =>
    rw [append_nil] at hall
    refine ⟨[], rfl, ?_⟩
    rw [append_nil, ← hall]
    exact hall ▸ h
  | @both p p' ps ps' fs hc hm ih =>
    have hsub : known ⊆ root.places := hall ▸ subset_append_left _ _
    have hp : p ∈ root.places := hall ▸ by simp
    have hnew : ∀ q ∈ known, q.node.id ≠ p.node.id := by
      intro q hq hid
      have hnodup := hd.nodup
      rw [nodes, map_map, ← hall, map_append, nodup_append] at hnodup
      exact hnodup.2.2 _ (mem_map.mpr ⟨q, hq, rfl⟩) p.node.id (by simp) hid
    have hhere := hadd p mem_cons_self
    have hmore := hbefore.append (.both hc .nil)
    rw [append_nil] at hmore
    refine ih hmore (h.both hd ho hsub hp hhere horder.1 hnew hc) (ho.enter hhere horder.1 hnew) ?_
      (subset_of_cons_subset hplaces) (fun q hq => hadd q (.tail _ hq)) horder.2
      horder'.2
    rw [← hall, append_assoc]
    rfl
  | @inert p' ps ps' fs hp' hm ih =>
    have hmore := hbefore.append (.inert hp' .nil)
    rw [append_nil, append_nil] at hmore
    have hsame : t'.entered p' = t' := t'.entered_of_additions hp'
    have := ih hmore h ho hall (subset_of_cons_subset hplaces) hadd horder horder'.2
    rw [← hsame] at this
    exact this
  | @hoist function body n name π ps ps' fs hfun hname hm ih =>
    have hsub : known ⊆ root.places := hall ▸ subset_append_left _ _
    obtain ⟨hfirst, hrest⟩ := ownersFirst_append.mp horder'
    obtain ⟨hhoist, hplaces⟩ := append_subset.mp hplaces
    have hhere : Matches a [] (hoistPlaces function body n name π ++ []) [function.id] :=
      .hoist hfun hname .nil
    have hmore := hbefore.append hhere
    rw [append_nil, append_nil] at hmore
    obtain ⟨-, hlist, -⟩ := mem_places_cons.mp (hhoist mem_cons_self)
    obtain ⟨q, hq, hqid, hqopens, hbody⟩ := bodyScope_of_hoist hkeys hbefore h.numbers hsub hfun hname
      hfirst.1 hlist
    rw [← hqid] at hname hbody hmore ⊢
    rw [enterAll_append, enterAll_hoistPlaces, ← hqid]
    generalize t'.enclosing _ = e at hbody ⊢
    have hgs : hosts.map Prod.fst ++ [q.node.id] =
        (hosts ++ [(q.node.id, (t.variableScope? e).getD 0)]).map Prod.fst := by
      rw [map_append]
      rfl
    rw [hgs] at hmore
    obtain ⟨more, hfs, hm⟩ := ih hmore (h.withKept ho hq hqopens hname hbody) ho hall hplaces hadd
      horder hrest
    refine ⟨(q.node.id, (t.variableScope? e).getD 0) :: more, ?_, ?_⟩
    · rw [map_cons, hfs]
    · rw [append_cons]
      exact hm

/-- **The table of a lowered tree** mirrors that of the tree. -/
theorem mirrors_of_apply (hscopes : ofTree root = .ok t) (happly : apply a root = (u, none)) :
    ∃ t' hosts, ofTree u = .ok t' ∧ (hosts.map Prod.fst).Perm (hoistTargets a root) ∧
      Mirrors a root.places root.places hosts t t' := by
  obtain ⟨hadd, rfl⟩ := ofTree_ok.mp hscopes
  obtain ⟨fs, hm, hperm⟩ := matches_of_apply happly
  obtain ⟨hosts, rfl, hmirrors⟩ := Mirrors.run hd hkeys hm .nil (mirrors_initial a root u)
    (outlined_initial root) rfl (List.Subset.refl _) hadd root.ownersFirst_places u.ownersFirst_places
  exact ⟨(initial u).enterAll u.places, hosts,
    ofTree_ok.mpr ⟨additions_of_apply happly hadd, rfl⟩, hperm, hmirrors⟩

end Run

end ArrowFree.Lowering
