import ArrowFree.Proofs.LoweredBindings
import ArrowFree.Proofs.Run

/-!
# Names keep their meaning

Every reference of a tree is found again in the lowered tree, in the scope of the same number, and means
there the counterpart of what it meant (`names_keep_meaning`). The walk from a reference outwards meets
the same scopes in both tables. A generated name is not met too early, since the scopes before its own
get no generated name and lie inside the node that the name was generated for; and it captures no other
reference, since those that see its scope lie inside that node too.
-/

namespace ArrowFree

open List

variable {j : Nat} {b : Binding} {name : Text}

namespace ScopeTable

variable {post pre : List (Nat × Scope)} {t : ScopeTable} {i : Nat} {s : Scope}

/-- The declaration that a name has in a scope, with the scope that holds it. -/
def declaring? (t : ScopeTable) (i : Nat) (name : Text) : Option (Nat × Binding) :=
  (t.scopesOn i).findSome? fun x => (x.2.binding? name).map fun b => (x.1, b)

theorem declaring?_of_first (heq : t.scopesOn i = pre ++ (j, s) :: post)
    (hpre : ∀ x ∈ pre, x.2.binding? name = none) (hb : s.binding? name = some b) :
    t.declaring? i name = some (j, b) := by
  unfold declaring?
  rw [heq, findSome?_append, findSome?_eq_none_iff.mpr fun x hx => by rw [hpre x hx]; rfl,
    Option.none_or, findSome?_cons, hb]
  rfl

/-- A name that the scopes on the way do not declare means what it means further out. -/
theorem declaring?_of_split (ht : t.Rooted) (heq : t.scopesOn i = pre ++ (j, s) :: post)
    (hpre : ∀ x ∈ pre, x.2.binding? name = none) : t.declaring? i name = t.declaring? j name := by
  unfold declaring?
  rw [heq, findSome?_append, findSome?_eq_none_iff.mpr fun x hx => by rw [hpre x hx]; rfl,
    Option.none_or, ht.scopesOn_of_split heq]

end ScopeTable

namespace Lowering

open ArrowFree.Tree ScopeTable

variable {a : Analysis} {root : Tree} {t t' : ScopeTable} {hosts : List (NodeId × Nat)}
  {hidden : List (Nat × List NodeId)}
variable {s s' : Scope} {i n : Nat} {u : Tree} {pre post : List (Nat × Scope)} {f : NodeId}
  {strict : Bool}

/-! ## Walks in both tables -/

theorem isTransparent_lowered (hkind : s'.kind = loweredKind s.kind) :
    s'.isTransparent ↔ s.kind = .block := by
  unfold Scope.isTransparent
  rw [hkind]
  cases s.kind <;> simp [loweredKind]

theorem Alongside.split (h : Alongside a root t t' hosts hidden) (hi : i < t.scopes.length)
    (heq : t.scopesOn i = pre ++ (j, s) :: post) :
    ∃ pre' s' post', t'.scopesOn i = pre' ++ (j, s') :: post' ∧ t.scopes[j]? = some s ∧
      t'.scopes[j]? = some s' ∧ s'.kind = loweredKind s.kind ∧
      ∀ x' ∈ pre', ∃ x ∈ pre, t.scopes[x.1]? = some x.2 ∧ t'.scopes[x.1]? = some x'.2 ∧
        x'.2.kind = loweredKind x.2.kind := by
  have hmap := h.mirrors.scopesOn h.outlined.rooted hi
  rw [heq, map_append, map_cons] at hmap
  obtain ⟨pre', rest', heq', hpre, hrest⟩ := map_eq_append_iff.mp hmap
  obtain ⟨⟨j', s'⟩, post', rfl, hj, -⟩ := map_eq_cons_iff.mp hrest
  obtain ⟨rfl, hkind⟩ := Prod.mk.inj hj
  obtain ⟨hs, hbefore⟩ := scope_of_split heq
  obtain ⟨hs', hbefore'⟩ := scope_of_split heq'
  refine ⟨pre', s', post', heq', hs, hs', hkind, fun x' hx' => ?_⟩
  have hmem : (x'.1, x'.2.kind) ∈ pre.map fun x => (x.1, loweredKind x.2.kind) := by
    rw [← hpre]
    exact mem_map_of_mem hx'
  obtain ⟨x, hx, hpair⟩ := mem_map.mp hmem
  obtain ⟨hnumber, hk⟩ := Prod.mk.inj hpair
  exact ⟨x, hx, hbefore x hx, hnumber ▸ hbefore' x' hx', hk.symm⟩

/-- A name that means the same in every scope on the way has the same declaration. -/
theorem Alongside.declaring?_eq (h : Alongside a root t t' hosts hidden) (hi : i < t.scopes.length)
    (hsame : ∀ x ∈ t.scopesOn i, ∀ s', t'.scopes[x.1]? = some s' → s'.binding? name = x.2.binding? name) :
    t'.declaring? i name = t.declaring? i name := by
  refine h.outlined.rooted.induction (P := fun i => (∀ x ∈ t.scopesOn i, ∀ s',
    t'.scopes[x.1]? = some s' → s'.binding? name = x.2.binding? name) →
      t'.declaring? i name = t.declaring? i name) ?_ ?_ hi hsame
  · intro hsame
    obtain ⟨s, hs, -, hon⟩ := h.outlined.rooted.scopesOn_zero
    obtain ⟨s', hs', -, hon'⟩ := h.mirrors.rooted.scopesOn_zero
    have hhere := hsame (0, s) (by rw [hon]; simp) s' hs'
    unfold declaring?
    rw [hon, hon', findSome?_cons, findSome?_cons, hhere]
  · intro i p s hs hparent ih hsame
    obtain ⟨s', hs', hb⟩ := h.mirrors.scopes _ s hs
    have hon := h.outlined.rooted.scopesOn_succ hs hparent
    have hon' := h.mirrors.rooted.scopesOn_succ hs' (hb.parent.trans hparent)
    have hhere := hsame (i + 1, s) (by rw [hon]; simp) s' hs'
    have hrest := ih fun x hx => hsame x (by rw [hon]; exact mem_cons_of_mem _ hx)
    unfold declaring? at hrest ⊢
    rw [hon, hon', findSome?_cons, findSome?_cons, hhere, hrest]

theorem Alongside.not_gets (h : Alongside a root t t' hosts hidden) (hs : t.scopes[i]? = some s) (hpass : s.Passes)
    (name : Text) : ¬ Gets root hosts hidden i s name ∧ ∀ ids, (i, ids) ∉ hidden := by
  have hvisible : ∀ ids, (i, ids) ∉ hidden := by
    intro ids hids
    obtain ⟨s₁, b, hlex, -⟩ := mem_hidden h.outlined h.hidden_eq hids
    obtain rfl : s₁ = s := Option.some.inj (hlex.scope.symm.trans hs)
    cases hpass.2.symm.trans hlex.binding
  refine ⟨?_, hvisible⟩
  rintro (⟨f, hf, -⟩ | ⟨⟨ids, hids⟩, -⟩)
  · obtain ⟨s₁, hs₁, hkind, -⟩ := h.host hf
    obtain rfl : s₁ = s := Option.some.inj (hs₁.symm.trans hs)
    have htransparent := hpass.1
    simp [Scope.isTransparent, hkind] at htransparent
  · exact hvisible ids hids

/-! ## References -/

section

variable (h : Alongside a root t t' hosts hidden)
variable {i : Nat} {r : Resolution}
variable {name : Text} {x : Nat × Scope}
include h

/-- The name of a reference is generated for none of the scopes that it sees. -/
theorem Alongside.name_ne_gets {ref : Reference} (href : ref ∈ t.references) (hname : ref.name = some name)
    (hx : x ∈ t.scopesOn ref.scope) {new : Text} (hgets : Gets root hosts hidden x.1 x.2 new) :
    new ≠ name := by
  obtain ⟨p, hp, -, -, rfl⟩ := h.outlined.references ref href
  have hs := mem_scopesOn hx
  rcases hgets with ⟨f, hf, hgenerated⟩ | ⟨⟨ids, hids⟩, hgenerated⟩
  · obtain ⟨s, hs', hkind, n, hn, hid, m, hm, hmid⟩ := h.host hf
    obtain rfl : s = x.2 := Option.some.inj (hs'.symm.trans hs)
    obtain ⟨m', hm', hid', hin⟩ := h.outlined.node_of_scope hp hx (by rw [hkind]; nofun)
    obtain rfl : m' = m := h.distinct.node_eq hm' (nodes_trans hn hm) (hid'.trans hmid.symm)
    exact (GeneratedFor.ne h.distinct (hid ▸ hgenerated) hn (nodes_trans hm hin) hname).symm
  · obtain ⟨s, b, hlex, -⟩ := mem_hidden h.outlined h.hidden_eq hids
    obtain rfl : s = x.2 := Option.some.inj (hlex.scope.symm.trans hs)
    obtain ⟨n, hn, hid, hin⟩ := h.outlined.node_of_scope hp hx hlex.kind
    exact (GeneratedFor.ne h.distinct (hid ▸ hgenerated) hn hin hname).symm

/-- The names that are declared inside a node differ from the one generated for it. -/
theorem Alongside.binding?_before (hi : i < t.scopes.length) {y : Nat × Scope}
    (heq : t.scopesOn i = pre ++ y :: post) (hkind : y.2.kind ≠ .program) (hx : x ∈ pre)
    (hxkind : x.2.kind ≠ .program) (hname : GeneratedFor root y.2.node name) : x.2.binding? name = none := by
  have hs : t.scopes[x.1]? = some x.2 := (scope_of_split heq).2 x hx
  obtain ⟨n, hn, hid, m, hm, hmid⟩ := h.outlined.node_of_before hi heq hkind hx
  rw [(h.outlined.declared _ _ hs).binding?, filter_eq_nil_iff.mpr]
  · rfl
  intro d hd
  obtain ⟨m', hm', hid', k, hk, hkname⟩ :=
    h.outlined.identifier_of_declared h.additions hs hxkind hd
  obtain rfl : m' = m := h.distinct.node_eq hm' (nodes_trans hn hm) (hid'.trans hmid.symm)
  simpa using GeneratedFor.ne h.distinct (hid ▸ hname) hn (nodes_trans hm hk) hkname

/-- A generated name means no less than in the scope that it was generated for, from wherever
`arguments` was resolved to that scope. -/
theorem Alongside.declaring?_past (hi : i < t.scopes.length) (hr : resolveFrom t i = .ok r)
    (hs : t.scopes[r.scope]? = some s) (hkind : s.kind ≠ .program) (hname : GeneratedFor root s.node name) :
    t'.declaring? i name = t'.declaring? r.scope name := by
  obtain ⟨pre, s₁, post, heq, hpre, -, -, -⟩ := resolveFrom_iff.mp hr
  obtain ⟨pre', s', post', heq', hs₁, hs', -, hbefore⟩ := h.split hi heq
  obtain rfl : s₁ = s := Option.some.inj (hs₁.symm.trans hs)
  refine declaring?_of_split h.mirrors.rooted heq' fun x' hx' => ?_
  obtain ⟨x, hx, hxs, hxs', -⟩ := hbefore x' hx'
  have hpass := hpre x hx
  have hxkind : x.2.kind ≠ .program := by
    intro hprogram
    have htransparent := hpass.1
    simp [Scope.isTransparent, hprogram] at htransparent
  rw [h.binding?_other hxs hxs' (fun new hgets => absurd hgets (h.not_gets hxs hpass new).1)
    fun _ => (h.not_gets hxs hpass name).2]
  exact h.binding?_before hi heq hkind hx hxkind hname

/-- **A generated name** is found in the scope that it was generated for, from wherever `arguments` was
resolved to that scope. -/
theorem Alongside.declaring?_new (hi : i < t.scopes.length) (hr : resolveFrom t i = .ok r)
    (hs : t.scopes[r.scope]? = some s) (hkind : s.kind ≠ .program) (hname : GeneratedFor root s.node name)
    (hb : ∀ s', t'.scopes[r.scope]? = some s' → s'.binding? name = some b) :
    t'.declaring? i name = some (r.scope, b) := by
  obtain ⟨s', hs', -⟩ := h.mirrors.scopes _ s hs
  rw [h.declaring?_past hi hr hs hkind hname]
  have hon := h.mirrors.rooted.scopesOn_eq hs'
  rw [← nil_append (_ :: _)] at hon
  exact declaring?_of_first hon (by simp) (hb s' hs')

theorem Alongside.resolveFrom_eq (hi : i < t.scopes.length) (hr : resolveFrom t i = .ok r) (harrow : r.arrow = none)
    (hhere : ∀ s s', t.scopes[r.scope]? = some s → t'.scopes[r.scope]? = some s' →
      s'.binding? argumentsName = s.binding? argumentsName) : resolveFrom t' i = .ok r := by
  obtain ⟨pre, s, post, heq, hpre, hstop, hb, hfirst⟩ := resolveFrom_iff.mp hr
  obtain ⟨pre', s', post', heq', hs, hs', hkind, hbefore⟩ := h.split hi heq
  have hnoArrow : ∀ x ∈ pre, x.2.kind ≠ .arrow := firstArrow_eq_none.mp (hfirst.symm.trans harrow)
  have hown : s'.ownArguments? = s.ownArguments? := by
    unfold Scope.ownArguments?
    rw [hhere s s' hs hs']
  refine resolveFrom_iff.mpr ⟨pre', s', post', heq', fun x' hx' => ?_, ?_, ?_, ?_⟩
  · obtain ⟨x, hx, hxs, hxs', hxkind⟩ := hbefore x' hx'
    have hpass := hpre x hx
    refine ⟨(isTransparent_lowered hxkind).mpr ?_, ?_⟩
    · have htransparent := hpass.1
      simpa [Scope.isTransparent, hnoArrow x hx] using htransparent
    · unfold Scope.ownArguments?
      rw [h.binding?_other hxs hxs' (fun new hgets => absurd hgets (h.not_gets hxs hpass new).1)
        fun _ => (h.not_gets hxs hpass argumentsName).2]
      exact hpass.2
  · rintro ⟨htransparent, hnone⟩
    refine hstop ⟨?_, hown ▸ hnone⟩
    simp [Scope.isTransparent, (isTransparent_lowered hkind).mp htransparent]
  · rw [hb, hown]
  · rw [harrow]
    refine (firstArrow_eq_none.mpr fun x' hx' => ?_).symm
    obtain ⟨x, -, -, -, hxkind⟩ := hbefore x' hx'
    rw [hxkind]
    cases x.2.kind <;> decide

end

/-! ## The declarations that keep arguments -/

/-- The body of a function that keeps its arguments is no function, and a scope that the body opens
declares no `arguments`. -/
def PlainBodies (a : Analysis) (t : ScopeTable) (root : Tree) : Prop :=
  ∀ b ∈ root.places, ∀ step ∈ b.path.head?, step.field = "body" → a.isHoistTarget step.owner.id →
    ∀ kind ∈ b.opens?, kind = .block ∧
      ∀ s ∈ t.scopes[t.number b.node.id]?, s.binding? argumentsName = none

instance (a : Analysis) (t : ScopeTable) (root : Tree) : Decidable (PlainBodies a t root) :=
  inferInstanceAs (Decidable (∀ b ∈ root.places, ∀ step ∈ b.path.head?, _))

/-- Arguments that are kept in a plain body are kept in the scope of the function. -/
theorem PlainBodies.own (hbodies : PlainBodies a t root) (h : Alongside a root t t' hosts hidden)
    {x : NodeId × Nat} (hx : x ∈ hosts) : x.2 = t.number x.1 := by
  obtain ⟨e, hbody, hvar, -⟩ := h.mirrors.kept x hx
  obtain ⟨q, hq, hid, hopens⟩ := h.mirrors.functions x hx
  rw [← hid] at hbody ⊢
  rcases hbody.variableScope? h.distinct h.outlined (List.Subset.refl _) hq hopens with
    hscope | ⟨b, hb, function, n, π, hpath, hfid, hbopens, -⟩
  · rw [← hvar, hscope]
    rfl
  · have htarget : a.isHoistTarget function.id := by
      rw [hfid, hid]
      exact h.mem_functions.mp (mem_map.mpr ⟨x, hx, rfl⟩)
    have hblock := (hbodies b hb ⟨function, "body", n⟩ (by rw [hpath]; rfl) rfl htarget .function
      hbopens).1
    cases hblock

theorem Alongside.resolveFrom_body (h : Alongside a root t t' hosts hidden) (hbodies : PlainBodies a t root)
    (hf : f ∈ hosts.map Prod.fst) (hs : t.scopes[i]? = some s) (hkind : s.kind = .function)
    (hnode : s.node = f) {e : Nat} (hbody : BodyScope root.places t f e) :
    e < t.scopes.length ∧ resolveFrom t e = .ok ⟨i, s.ownArguments?, none⟩ := by
  obtain ⟨q, hq, hopens, hid, hnumber⟩ := h.outlined.opener hs (by simp [hkind])
  rw [hkind] at hopens
  rw [← hnode, ← hid] at hbody
  rw [← hid] at hnumber
  have hstop : ¬ s.Passes := fun hpass => by simpa [Scope.isTransparent, hkind] using hpass.1
  obtain ⟨rest, hchain⟩ : ∃ rest, t.scopesOn i = (i, s) :: rest :=
    ⟨_, h.outlined.rooted.scopesOn_eq hs⟩
  rcases hbody.eq_or_own h.distinct h.outlined (List.Subset.refl _) hq hopens with
    rfl | ⟨b, hb, function, n, π, sb, hpath, hfid, hbopens, -, rfl, hsb, -, hparent⟩
  · rw [hnumber]
    refine ⟨(List.getElem?_eq_some_iff.mp hs).1, ?_⟩
    exact resolveFrom_iff.mpr ⟨[], s, rest, hchain, by simp, hstop, rfl, rfl⟩
  · have htarget : a.isHoistTarget function.id := by
      rw [hfid, hid, hnode]
      exact h.mem_functions.mp hf
    obtain ⟨hbkind, hnone⟩ := hbodies b hb ⟨function, "body", n⟩ (by rw [hpath]; rfl) rfl htarget _
      hbopens
    have hnone := hnone sb hsb
    have hpass : sb.Passes := by
      refine ⟨by simp [Scope.isTransparent, hbkind], ?_⟩
      unfold Scope.ownArguments?
      rw [hnone]
      rfl
    have hon : t.scopesOn (t.number b.node.id) = [(t.number b.node.id, sb)] ++ (i, s) :: rest := by
      rw [h.outlined.rooted.scopesOn_eq hsb, hparent, ← hchain, hnumber]
      rfl
    refine ⟨(List.getElem?_eq_some_iff.mp hsb).1, resolveFrom_iff.mpr
      ⟨_, s, rest, hon, by simpa using hpass, hstop, rfl, ?_⟩⟩
    exact (firstArrow_eq_none.mpr (by simp [hbkind])).symm

/-! ## Meanings -/

/-- There is `var name = arguments;` in the body of the function. -/
def Inserted (u : Tree) (f : NodeId) (name : Text) : Prop :=
  ∃ function body n π, function.id = f ∧
    ⟨bindingDeclaration f name, ⟨body, "body", some n⟩ :: ⟨function, "body", none⟩ :: π⟩ ∈ u.places

/-- What a reference means in the tree is what the identifier at its place means in the lowered tree. -/
structure MeaningKept (a : Analysis) (t t' : ScopeTable) (u : Tree) (r : Reference) (n' : Tree) :
    Prop where
  scope : t'.referenceScope n' = .ok r.scope
  /-- The same declaration in the same scope, or the same `arguments`, or none. -/
  unreplaced : a.replacement? r.identifier = none → n'.name? = r.name ∧
    ∀ name, r.name = some name →
      if name = argumentsName then resolveFrom t' r.scope = resolveFrom t r.scope
      else t'.declaring? r.scope name = t.declaring? r.scope name
  /-- The one declaration in the function that provides the `arguments`, and its value means them. -/
  carried : ∀ f, a.argumentTargets.get? r.identifier = some f →
    ∃ R s name, resolveFrom t r.scope = .ok R ∧ t.scopes[R.scope]? = some s ∧ s.kind = .function ∧
      s.node = f ∧ n'.name? = some name ∧ Inserted u f name ∧
      t'.declaring? r.scope name =
        some (R.scope, ⟨name, .variable, .made .declaratorOf f, [.made .bindingNameOf f]⟩) ∧
      ∃ e, keptReference f e ∈ t'.references ∧ resolveFrom t' e = .ok { R with arrow := none }
  /-- The same variable under its new name. -/
  renamed : a.argumentTargets.get? r.identifier = none → ∀ name,
    a.renamed.get? r.identifier = some name →
      ∃ R b, resolveFrom t r.scope = .ok R ∧ R.binding = some b ∧ n'.name? = some name ∧
        t'.declaring? r.scope name = some (R.scope, b.renamed name)

/-- Scopes of the same number are counterparts. -/
def SameScopes (t t' : ScopeTable) : Prop :=
  t'.scopes.length = t.scopes.length ∧ ∀ (i : Nat) (s : Scope), t.scopes[i]? = some s →
    ∃ s', t'.scopes[i]? = some s' ∧ s'.kind = loweredKind s.kind ∧ s'.parent = s.parent ∧
      (s.kind ≠ .program → s'.node = loweredNode s.kind s.node)

/-- Every reference that some function or variable provides keeps its meaning. -/
def NamesKept (a : Analysis) (root : Tree) (t : ScopeTable) (u : Tree) : Prop :=
  ∃ t', ofTree u = .ok t' ∧ SameScopes t t' ∧
    ∀ r ∈ t.references, r.identifier ∉ a.unresolved.map Unresolved.reference →
      ∃ p ∈ root.places, ∃ p' ∈ u.places, p.node.id = r.identifier ∧ Counterpart a p p' ∧
        MeaningKept a t t' u r p'.node

theorem newId_injective {m : Nat} (h : a.newId (.numbered m) = a.newId (.numbered n)) : m = n := by
  unfold Analysis.newId at h
  split at h
  · split at h
    · exact NodeId.numbered.inj (NodeId.renamed.inj h)
    · cases h
  · split at h
    · cases h
    · exact NodeId.numbered.inj h

theorem newId_ne_made {role : Role} {origin : NodeId} : a.newId (.numbered n) ≠ .made role origin := by
  unfold Analysis.newId
  split <;> nofun

section

variable (h : Alongside a root t t' hosts hidden) {ref : Reference} (href : ref ∈ t.references)
include h href

theorem Alongside.reference_lt : ref.scope < t.scopes.length :=
  h.outlined.rooted.references ref href

theorem Alongside.referenceScope {n' : Tree} (hid : n'.id = a.newId ref.identifier) :
    t'.referenceScope n' = .ok ref.scope := by
  have hnumbered : ∀ r ∈ t.references, ∃ k, r.identifier = .numbered k := by
    intro r hr
    obtain ⟨p, hp, -, -, rfl⟩ := h.outlined.references r hr
    exact h.distinct.numbered _ (node_mem_nodes hp)
  obtain ⟨k, hk⟩ := hnumbered ref href
  have hscope : ∀ r' ∈ t'.references, r'.identifier = n'.id → r'.scope = ref.scope := by
    intro r' hr' hsame
    rw [hid, hk] at hsame
    rcases h.mirrors.others r' hr' with ⟨r, hr, rfl⟩ | ⟨x, -, e, rfl⟩
    · obtain ⟨m, hm⟩ := hnumbered r hr
      change a.newId r.identifier = _ at hsame
      rw [hm] at hsame
      obtain rfl := newId_injective hsame
      obtain rfl := h.outlined.reference_eq h.distinct hr href (hm.trans hk.symm)
      rfl
    · exact absurd hsame.symm newId_ne_made
  have hfound : (t'.reference? n'.id).isSome := by
    refine find?_isSome.mpr ⟨_, h.mirrors.references ref href, ?_⟩
    simp [loweredReference, hid]
  obtain ⟨r', hr'⟩ := Option.isSome_iff_exists.mp hfound
  unfold ScopeTable.referenceScope
  rw [hr', ← hscope r' (mem_of_find?_eq_some hr') (by simpa using find?_some hr')]
  rfl

/-- In the scope that it comes from, `arguments` means the same if it is not hidden. -/
theorem Alongside.binding?_arguments (hargs : ref.name = some argumentsName) {r : Resolution}
    (hr : resolveFrom t ref.scope = .ok r) (hvisible : ∀ ids, (r.scope, ids) ∉ hidden)
    (hs : t.scopes[r.scope]? = some s) (hs' : t'.scopes[r.scope]? = some s') :
    s'.binding? argumentsName = s.binding? argumentsName := by
  obtain ⟨pre, s₁, post, heq, -⟩ := resolveFrom_iff.mp hr
  have hon : (r.scope, s₁) ∈ t.scopesOn ref.scope := by rw [heq]; simp
  obtain rfl : s₁ = s := Option.some.inj ((mem_scopesOn hon).symm.trans hs)
  exact h.binding?_other hs hs' (fun new hgets => h.name_ne_gets href hargs hon hgets)
    fun _ => hvisible

/-- **References without a new name.** -/
theorem Alongside.unreplaced (hnone : a.replacement? ref.identifier = none)
    (hresolved : ref.identifier ∉ a.unresolved.map Unresolved.reference) (hname : ref.name = some name) :
    if name = argumentsName then resolveFrom t' ref.scope = resolveFrom t ref.scope
    else t'.declaring? ref.scope name = t.declaring? ref.scope name := by
  have hi := h.reference_lt href
  split
  · subst name
    obtain ⟨r, hr⟩ := exists_resolveFrom h.outlined.rooted hi
    obtain ⟨harrow, hvisible⟩ := h.unreplaced_reference href hname hnone hresolved hr
    rw [hr]
    exact h.resolveFrom_eq hi hr harrow fun s s' hs hs' =>
      h.binding?_arguments href hname hr hvisible hs hs'
  · rename_i hne
    refine h.declaring?_eq hi fun x hx s' hs' => ?_
    exact h.binding?_other (mem_scopesOn hx) hs'
      (fun new hgets => h.name_ne_gets href hname hx hgets) fun heq => absurd heq hne

end

section

variable (h : SideBySide a root t t' hosts hidden) {ref : Reference} (href : ref ∈ t.references)
include h href

/-- **References that are carried past arrows.** -/
theorem SideBySide.carried (hbodies : PlainBodies a t root)
    (hf : a.argumentTargets.get? ref.identifier = some f) :
    ∃ R s name, resolveFrom t ref.scope = .ok R ∧ t.scopes[R.scope]? = some s ∧
      s.kind = .function ∧ s.node = f ∧ a.hoistedNames.get? f = some name ∧
      t'.declaring? ref.scope name =
        some (R.scope, ⟨name, .variable, .made .declaratorOf f, [.made .bindingNameOf f]⟩) ∧
      ∃ e, keptReference f e ∈ t'.references ∧ resolveFrom t' e = .ok { R with arrow := none } := by
  obtain ⟨⟨-, hargs, R, s, hR, -, hs, hkind, hnode, -⟩, name, hname, hgenerated⟩ :=
    h.carried_reference href hf
  have hmem : f ∈ hosts.map Prod.fst := h.mem_functions.mpr (by rw [hname]; rfl)
  have hkept : f ∈ keptIn hosts R.scope := (h.mem_keptIn hs).mpr ⟨hmem, hkind, hnode⟩
  obtain ⟨s₁, hs₁, hbinding⟩ := resolution_scope hR
  obtain rfl : s₁ = s := Option.some.inj (hs₁.symm.trans hs)
  refine ⟨R, s₁, name, hR, hs, hkind, hnode, hname, ?_, ?_⟩
  · exact h.declaring?_new (h.reference_lt href) hR hs (by rw [hkind]; nofun) (hnode ▸ hgenerated)
      fun s' hs' => h.binding?_kept hs hs' hkept hname
  · obtain ⟨x, hx, hfst⟩ := mem_map.mp hmem
    obtain ⟨e, hbody, -, hreference⟩ := h.mirrors.kept x hx
    rw [hfst] at hbody hreference
    obtain ⟨he, hresolve⟩ := h.resolveFrom_body hbodies hmem hs hkind hnode hbody
    refine ⟨e, hreference, ?_⟩
    rw [hbinding]
    exact h.resolveFrom_eq he hresolve rfl fun s₂ s' hs₂ hs' =>
      h.binding?_arguments href hargs hR (h.not_hidden_of_kept hs hkept) hs₂ hs'

/-- **References to hidden variables.** -/
theorem SideBySide.renamed (hname : a.renamed.get? ref.identifier = some name) :
    ∃ R b, resolveFrom t ref.scope = .ok R ∧ R.binding = some b ∧
      t'.declaring? ref.scope name = some (R.scope, b.renamed name) := by
  obtain ⟨-, R, ids, s, hR, hids, hs, hgenerated⟩ := h.renamed_reference href hname
  obtain ⟨s₁, b, hlex, -⟩ := mem_hidden h.outlined h.hidden_eq hids
  obtain ⟨s₂, hs₂, hbinding⟩ := resolution_scope hR
  obtain rfl : s₁ = s := Option.some.inj (hlex.scope.symm.trans hs)
  obtain rfl : s₂ = s₁ := Option.some.inj (hs₂.symm.trans hs)
  refine ⟨R, b, hR, hbinding.trans hlex.binding, ?_⟩
  exact h.declaring?_new (h.reference_lt href) hR hs hlex.kind hgenerated
    fun s' hs' => h.binding?_hidden hs hs' hids hgenerated hlex.binding

end

theorem alongside_of_lowerable (hd : root.Distinct) (hl : Lowerable strict root t a u) :
    ∃ t' hosts hidden, ofTree u = .ok t' ∧ Alongside a root t t' hosts hidden := by
  obtain ⟨hidden, h⟩ := analyzed hd hl.scopes_eq hl.analysis_eq
  have hkeys : ∀ f name, a.hoistedNames.get? f = some name → ∃ k, f = .numbered k := by
    intro f name hname
    obtain ⟨-, n, hn, rfl, -⟩ := h.recorded.provided.hoisted f name hname
    exact hd.numbered n hn
  obtain ⟨t', hosts, hscopes', hperm, hmirrors⟩ := mirrors_of_apply hd hkeys hl.scopes_eq hl.apply_eq
  exact ⟨t', hosts, hidden, hscopes', h, hperm, hmirrors⟩

theorem sideBySide_of_lowerable (hd : root.Distinct) (hl : Lowerable strict root t a u)
    (hbodies : PlainBodies a t root) :
    ∃ t' hosts hidden, ofTree u = .ok t' ∧ SideBySide a root t t' hosts hidden := by
  obtain ⟨t', hosts, hidden, hscopes', h⟩ := alongside_of_lowerable hd hl
  exact ⟨t', hosts, hidden, hscopes', h, fun x hx => hbodies.own h hx⟩

theorem inserted_of_apply (happly : apply a root = (u, none)) (hf : f ∈ hoistTargets a root) :
    ∃ name, a.hoistedNames.get? f = some name ∧ Inserted u f name := by
  obtain ⟨gs, hm, hperm⟩ := matches_of_apply happly
  obtain ⟨function, body, n, name, π, rfl, hname, hsub⟩ := hm.hoisted (hperm.mem_iff.mpr hf)
  refine ⟨name, hname, function, body, n, π, rfl, hsub ?_⟩
  exact mem_cons_self

end Lowering

open Lowering ArrowFree.Tree ScopeTable

/-- **Names keep their meaning.** If the body of every function that keeps its arguments is plain, each
reference of the tree means in the lowered tree the counterpart of what it meant in the tree. -/
theorem names_keep_meaning (s : Session) (t : Tree) (h : (s.transform t.numbered).fault = none) :
    ∃ scopes a, Lowerable s.strict t.numbered scopes a (s.transform t.numbered).tree ∧
      (PlainBodies a scopes t.numbered →
        NamesKept a t.numbered scopes (s.transform t.numbered).tree) := by
  obtain ⟨scopes, a, hl⟩ := transform_ok h
  have hd := distinct_numbered t
  refine ⟨scopes, a, hl, fun hbodies => ?_⟩
  obtain ⟨scopes', fs, hidden, hscopes', h⟩ := sideBySide_of_lowerable hd hl hbodies
  refine ⟨scopes', hscopes', ⟨h.mirrors.length, fun i s hs => ?_⟩, fun r hr hresolved => ?_⟩
  · obtain ⟨s', hs', hb⟩ := h.mirrors.scopes i s hs
    exact ⟨s', hs', hb.kind, hb.parent, hb.node⟩
  obtain ⟨p, hp, hident, -, heq⟩ := h.outlined.references r hr
  obtain ⟨gs, hm, -⟩ := matches_of_apply hl.apply_eq
  obtain ⟨p', hp', hc⟩ := hm.mem hp
  obtain ⟨hid', hname'⟩ := identifier_counterpart hc hident
  have hid : p.node.id = r.identifier := by rw [heq]
  have hname : p.node.name? = r.name := by rw [heq]
  rw [hid] at hid' hname'
  rw [hname] at hname'
  refine ⟨p, hp, p', hp', hid, hc, h.referenceScope hr hid', fun hnone => ?_, fun f hf => ?_,
    fun hnone name hrenamed => ?_⟩
  · rw [hname', hnone]
    exact ⟨rfl, fun name hrname => h.unreplaced hr hnone hresolved hrname⟩
  · obtain ⟨R, s, name, hR, hs, hkind, hnode, hhoisted, hdeclaring, hvalue⟩ := h.carried hr hbodies hf
    have hreplacement : a.replacement? r.identifier = some name := by
      rw [Analysis.replacement?, hf]
      exact hhoisted
    have hmem : f ∈ hoistTargets a t.numbered :=
      h.functions.mem_iff.mp (h.mem_functions.mpr (by rw [hhoisted]; rfl))
    obtain ⟨name₁, hhoisted₁, hinserted⟩ := inserted_of_apply hl.apply_eq hmem
    obtain rfl := Option.some.inj (hhoisted₁.symm.trans hhoisted)
    exact ⟨R, s, name₁, hR, hs, hkind, hnode, by rw [hname', hreplacement]; rfl, hinserted, hdeclaring,
      hvalue⟩
  · obtain ⟨R, b, hR, hb, hdeclaring⟩ := h.renamed hr hrenamed
    have hreplacement : a.replacement? r.identifier = some name := by
      rw [Analysis.replacement?, hnone]
      exact hrenamed
    exact ⟨R, b, hR, hb, by rw [hname', hreplacement]; rfl, hdeclaring⟩

/-- A function that gives its own `arguments` to an arrow, and in a block another variable of that name
to another arrow. Both variables get the same new name. -/
def argumentsTwice : Tree :=
  let arrow : Tree := .mk .arrowFunctionExpression none
    [.list [], .mk .identifier none [.text "arguments"], .bool true]
  .mk .functionExpression none [.null, .list [], .mk .blockStatement none [.list [
    .mk .expressionStatement none [arrow],
    .mk .blockStatement none [.list [
      .mk .variableDeclaration none [.list [.mk .variableDeclarator none
        [.mk .identifier none [.text "arguments"], .null]], .text "let"],
      .mk .expressionStatement none [arrow]]]]]]

theorem names_keep_meaning_argumentsTwice :
    (Session.transform {} argumentsTwice.numbered).fault = none ∧
      ∃ scopes a, PlainBodies a scopes argumentsTwice.numbered ∧
        a.argumentTargets.get? (.numbered 4) = some (.numbered 0) ∧
        a.renamed.get? (.numbered 11) = a.hoistedNames.get? (.numbered 0) ∧
        NamesKept a argumentsTwice.numbered scopes
          (Session.transform {} argumentsTwice.numbered).tree := by
  have hfault : (Session.transform {} argumentsTwice.numbered).fault = none := by decide +kernel
  obtain ⟨scopes, a, hl, hkept⟩ := names_keep_meaning {} argumentsTwice hfault
  have hanalysis : (do
      let scopes ← ofTree argumentsTwice.numbered
      let a ← analyze scopes argumentsTwice.numbered
      return (decide (PlainBodies a scopes argumentsTwice.numbered),
        a.argumentTargets.get? (.numbered 4),
        decide (a.renamed.get? (.numbered 11) = a.hoistedNames.get? (.numbered 0)))) =
      Except.ok (true, some (.numbered 0), true) := by decide +kernel
  rw [hl.scopes_eq] at hanalysis
  change (analyze scopes argumentsTwice.numbered >>= _) = _ at hanalysis
  rw [hl.analysis_eq] at hanalysis
  obtain ⟨hplain, hrest⟩ := Prod.mk.inj (Except.ok.inj hanalysis)
  obtain ⟨htarget, hsame⟩ := Prod.mk.inj hrest
  have hplain := of_decide_eq_true hplain
  exact ⟨hfault, scopes, a, hplain, htarget, of_decide_eq_true hsame, hkept hplain⟩

/-- A function whose body is another function. -/
def functionBodied : Tree :=
  .mk .functionExpression none [.null,
    .list [.mk .arrowFunctionExpression none
      [.list [], .mk .identifier none [.text "arguments"], .bool true]],
    .mk .functionExpression none [.null, .list [], .list []]]

/-- The declaration that keeps the arguments of the outer function ends up in the inner one, where the
reference does not see it. -/
theorem names_lost_functionBodied : (Session.transform {} functionBodied.numbered).fault = none ∧
      ¬ ∃ scopes a, Lowerable false functionBodied.numbered scopes a
          (Session.transform {} functionBodied.numbered).tree ∧
        NamesKept a functionBodied.numbered scopes
          (Session.transform {} functionBodied.numbered).tree := by
  refine ⟨by decide +kernel, ?_⟩
  rintro ⟨scopes, a, hl, t', ht', -, hkept⟩
  have hanalysis : (do
      let scopes ← ofTree functionBodied.numbered
      let a ← analyze scopes functionBodied.numbered
      return (scopes.references, a.argumentTargets.get? (.numbered 2), a.unresolved)) =
      Except.ok ([⟨.numbered 2, some argumentsName, 2⟩], some (.numbered 0), []) := by
    decide
  rw [hl.scopes_eq] at hanalysis
  change (analyze scopes functionBodied.numbered >>= _) = _ at hanalysis
  rw [hl.analysis_eq] at hanalysis
  obtain ⟨hreferences, hrest⟩ := Prod.mk.inj (Except.ok.inj hanalysis)
  obtain ⟨htarget, hunresolved⟩ := Prod.mk.inj hrest
  have hscopes : (ofTree (Session.transform {} functionBodied.numbered).tree).map
      (fun t => (t.scopesOn 2).map fun x => x.2.bindings) = .ok [[], [], []] := by decide +kernel
  rw [ht'] at hscopes
  have hbindings := Except.ok.inj hscopes
  have hnone : ∀ name, t'.declaring? 2 name = none := by
    intro name
    refine List.findSome?_eq_none_iff.mpr fun x hx => ?_
    have hx : x.2.bindings ∈ [[], [], []] := hbindings ▸ List.mem_map_of_mem hx
    have hx : x.2.bindings = [] := by simpa using hx
    unfold Scope.binding?
    rw [hx]
    rfl
  obtain ⟨p, -, p', -, -, -, hmeaning⟩ := hkept ⟨.numbered 2, some argumentsName, 2⟩
    (by rw [hreferences]; exact List.mem_singleton_self _) (by rw [hunresolved]; exact List.not_mem_nil)
  obtain ⟨R, s, name, -, -, -, -, -, -, hdeclaring, -⟩ := hmeaning.carried (.numbered 0) htarget
  exact absurd (hdeclaring.symm.trans (hnone name)) nofun

end ArrowFree
