import ArrowFree.Proofs.Facts
import ArrowFree.Proofs.Resolution

/-!
# Hidden variables

The references to a variable named `arguments` form a group. The group is hidden if an arrow lies between
one of them and the scope of the variable, or if the variable is a `var` of an arrow
(`exists_hidden_iff`). A hidden group holds all identifiers of the variable: those that declare it and
every reference that is resolved to it (`mem_hidden`).
-/

namespace ArrowFree

open List

namespace NodeMap

variable {α : Type} {m : NodeMap α} {id : NodeId} {v : α}

theorem mem_entries_of_get? (h : m.get? id = some v) : (id, v) ∈ m.entries := by
  obtain ⟨l₁, l₂, heq, -⟩ := lookup_eq_some_iff.mp h
  rw [heq]
  simp

/-- No key has two values. -/
def Keyed (m : NodeMap α) : Prop := (m.entries.map Prod.fst).Nodup

theorem get?_of_mem (hm : m.Keyed) (h : (id, v) ∈ m.entries) : m.get? id = some v := by
  obtain ⟨l₁, l₂, heq⟩ := append_of_mem h
  refine lookup_eq_some_iff.mpr ⟨l₁, l₂, heq, fun e he => ?_⟩
  unfold Keyed at hm
  rw [heq, map_append, nodup_append] at hm
  have hne := hm.2.2 e.1 (mem_map_of_mem he) id (by simp)
  simpa using hne.symm

theorem keys_setEntry (id : NodeId) (v : α) (es : List (NodeId × α)) :
    (setEntry id v es).map Prod.fst =
      if id ∈ es.map Prod.fst then es.map Prod.fst else es.map Prod.fst ++ [id] := by
  induction es with
  | nil => rfl
  | cons e es ih =>
    obtain ⟨k, w⟩ := e
    unfold setEntry
    by_cases hk : k = id
    · rw [if_pos hk, if_pos (by simp [hk])]
      rfl
    · rw [if_neg hk, map_cons, ih]
      by_cases hmem : id ∈ es.map Prod.fst
      · rw [if_pos hmem, if_pos (by simp [hmem])]
        rfl
      · rw [if_neg hmem, if_neg]
        · rfl
        · exact fun h => (mem_cons.mp h).elim (fun h => hk h.symm) hmem

theorem Keyed.set (h : m.Keyed) (id : NodeId) (v : α) : (m.set id v).Keyed := by
  unfold Keyed NodeMap.set
  rw [keys_setEntry]
  split
  · exact h
  · rename_i hnew
    exact nodup_append.mpr ⟨h, nodup_singleton _, by
      rintro k hk _ hid rfl
      exact hnew (mem_singleton.mp hid ▸ hk)⟩

end NodeMap

namespace Lowering

open ArrowFree.Tree ScopeTable

variable {t : ScopeTable} {r : Resolution} {i : Nat} {s : Scope} {b : Binding}
  {refs : List Reference} {ref : Reference}

theorem reaches_congr {scopes : ScopeTable} {r' : Resolution} (hscope : r.scope = r'.scope)
    (hbinding : r.binding = r'.binding) : r.reachesFunction scopes = r'.reachesFunction scopes := by
  unfold Resolution.reachesFunction
  rw [hscope, hbinding]

/-- A reference to a variable of this scope, or to its arguments object. -/
def RefersTo (t : ScopeTable) (i : Nat) (ref : Reference) : Prop :=
  ∃ r, resolveFrom t ref.scope = .ok r ∧ r.scope = i

/-- The variable `arguments` of a scope that is not the one of a function or of the program. -/
structure Lexical (t : ScopeTable) (i : Nat) (s : Scope) (b : Binding) : Prop where
  scope : t.scopes[i]? = some s
  binding : s.ownArguments? = some b
  not_reaches : (⟨i, some b, none⟩ : Resolution).reachesFunction t = false

theorem Lexical.kind (h : Lexical t i s b) : s.kind ≠ .program := by
  intro hkind
  have hno := h.not_reaches
  unfold Resolution.reachesFunction at hno
  rw [h.scope] at hno
  simp [Scope.isTransparent, hkind] at hno

theorem resolution_scope (h : resolveFrom t i = .ok r) :
    ∃ s, t.scopes[r.scope]? = some s ∧ r.binding = s.ownArguments? := by
  obtain ⟨pre, s, post, heq, -, -, hb, -⟩ := resolveFrom_iff.mp h
  exact ⟨s, (scope_of_split heq).1, hb⟩

/-- A reference that comes from no function refers to a variable. -/
theorem lexical_of_not_reaches (h : resolveFrom t i = .ok r) (hno : r.reachesFunction t = false) :
    ∃ s b, r.binding = some b ∧ Lexical t r.scope s b := by
  obtain ⟨s, hs, hb⟩ := resolution_scope h
  cases hbinding : r.binding with
  | none =>
    rw [reaches_of_none h hbinding] at hno
    cases hno
  | some b =>
    refine ⟨s, b, rfl, hs, hb.symm.trans hbinding, ?_⟩
    rw [← hno]
    exact reaches_congr rfl hbinding.symm

/-- All references to a variable are alike in this. -/
theorem Lexical.not_reaches_of {j : Nat} (h : Lexical t i s b) (hr : resolveFrom t j = .ok r) (hscope : r.scope = i) :
    r.reachesFunction t = false := by
  obtain ⟨s', hs', hb⟩ := resolution_scope hr
  rw [hscope, h.scope] at hs'
  cases hs'
  rw [← h.not_reaches]
  exact reaches_congr hscope (hb.trans h.binding)

/-! ## Groups -/

/-- A reference that would lose sight of its variable: an arrow lies in between, or the variable is a
`var` of an arrow. -/
def Conceals (t : ScopeTable) (r : Resolution) : Prop :=
  r.arrow.isSome ∨ ∃ s b, t.scopes[r.scope]? = some s ∧ r.binding = some b ∧ redeclares s b = true

theorem conceals_iff (hs : t.scopes[r.scope]? = some s) (hb : r.binding = some b) :
    Conceals t r ↔ r.arrow.isSome ∨ redeclares s b = true := by
  simp [Conceals, hs, hb]

/-- Some of these references would lose sight of the variable of a scope. -/
def ConcealedBy (t : ScopeTable) (refs : List Reference) (i : Nat) : Prop :=
  ∃ ref ∈ refs, ∃ r, resolveFrom t ref.scope = .ok r ∧ r.scope = i ∧ Conceals t r

theorem concealedBy_append (hr : resolveFrom t ref.scope = .ok r) :
    ConcealedBy t (refs ++ [ref]) i ↔ ConcealedBy t refs i ∨ r.scope = i ∧ Conceals t r := by
  unfold ConcealedBy
  simp only [mem_append, mem_singleton, or_and_right, exists_or, exists_eq_left, hr,
    Except.ok.injEq, exists_eq_left']

/-- The groups of the references looked at so far. -/
structure Grouped (t : ScopeTable) (refs : List Reference) (groups : NodeMap Group) : Prop where
  keyed : groups.Keyed
  sound : ∀ id g, groups.get? id = some g → ∃ s, Lexical t g.scope s g.binding ∧ s.node = id ∧
    ∀ d, d ∈ g.references ↔ ∃ ref ∈ refs, ref.identifier = d ∧ RefersTo t g.scope ref
  complete : ∀ ref ∈ refs, ∀ r, resolveFrom t ref.scope = .ok r → r.reachesFunction t = false →
    ∃ s g, t.scopes[r.scope]? = some s ∧ groups.get? s.node = some g
  hidden : ∀ id g, groups.get? id = some g → (g.hidden = true ↔ ConcealedBy t refs g.scope)

theorem refersTo_append {d : NodeId} :
    (∃ ref' ∈ refs ++ [ref], ref'.identifier = d ∧ RefersTo t i ref') ↔
      (∃ ref' ∈ refs, ref'.identifier = d ∧ RefersTo t i ref') ∨
        (ref.identifier = d ∧ RefersTo t i ref) := by
  simp only [mem_append, mem_singleton, or_and_right, exists_or, exists_eq_left]

theorem addReference_of_reaches (groups : NodeMap Group) (id : NodeId) (hreach : r.reachesFunction t = true) :
    addReference groups t id r = groups := by
  unfold addReference
  split
  · rw [if_pos hreach]
  · rfl

theorem addReference_of_lexical (groups : NodeMap Group) (id : NodeId) (hs : t.scopes[r.scope]? = some s)
    (hb : r.binding = some b) (hno : r.reachesFunction t = false) :
    ∃ g g', (groups.get? s.node).getD { scope := r.scope, binding := b } = g ∧
      addReference groups t id r = groups.set s.node g' ∧ g'.scope = g.scope ∧
      g'.binding = g.binding ∧ g'.references = g.references ++ [id] ∧
      (g'.hidden = true ↔ g.hidden = true ∨ Conceals t r) := by
  let g := (groups.get? s.node).getD { scope := r.scope, binding := b }
  refine ⟨g, { g with
    references := g.references ++ [id]
    hidden := g.hidden || r.arrow.isSome || redeclares s b }, rfl, ?_, rfl, rfl, rfl, ?_⟩
  · unfold addReference
    rw [hb, hs]
    simp [hno, g]
  · rw [conceals_iff hs hb]
    simp only [Bool.or_eq_true, or_assoc]

section

variable {root : Tree} {t : ScopeTable} {refs : List Reference} {groups : NodeMap Group}
  {ref : Reference} {r : Resolution}
variable {hidden : List (Nat × List NodeId)}

theorem Grouped.skip (hg : Grouped t refs groups) (hr : resolveFrom t ref.scope = .ok r)
    (hreach : r.reachesFunction t = true) : Grouped t (refs ++ [ref]) groups where
  keyed := hg.keyed
  sound id g hget := by
    obtain ⟨s, hlex, hnode, hrefs⟩ := hg.sound id g hget
    refine ⟨s, hlex, hnode, fun d => ?_⟩
    rw [refersTo_append, hrefs]
    refine ⟨Or.inl, fun hd => hd.resolve_right ?_⟩
    rintro ⟨-, r', hr', hscope⟩
    obtain rfl : r' = r := Except.ok.inj (hr'.symm.trans hr)
    rw [hlex.not_reaches_of hr hscope] at hreach
    cases hreach
  complete ref' href' r' hr' hno := by
    rcases mem_append.mp href' with href' | href'
    · exact hg.complete ref' href' r' hr' hno
    · rw [mem_singleton.mp href'] at hr'
      obtain rfl : r' = r := Except.ok.inj (hr'.symm.trans hr)
      rw [hreach] at hno
      cases hno
  hidden id g hget := by
    obtain ⟨s, hlex, -, -⟩ := hg.sound id g hget
    rw [concealedBy_append hr, hg.hidden id g hget]
    refine ⟨Or.inl, fun hd => hd.resolve_right ?_⟩
    rintro ⟨hscope, -⟩
    rw [hlex.not_reaches_of hr hscope] at hreach
    cases hreach

theorem Grouped.current (h : t.Outlined root.places) (hg : Grouped t refs groups)
    (hlex : Lexical t r.scope s b) {g : Group}
    (hget : (groups.get? s.node).getD { scope := r.scope, binding := b } = g) :
    g.scope = r.scope ∧ g.binding = b ∧
      (∀ d, d ∈ g.references ↔ ∃ ref ∈ refs, ref.identifier = d ∧ RefersTo t r.scope ref) ∧
      (g.hidden = true ↔ ConcealedBy t refs r.scope) := by
  cases hold : groups.get? s.node with
  | some g' =>
    rw [hold] at hget
    obtain rfl : g' = g := hget
    obtain ⟨s', hlex', hnode, hrefs⟩ := hg.sound _ _ hold
    have hscope : g'.scope = r.scope := by
      rw [← h.number_node hlex'.scope hlex'.kind, hnode, h.number_node hlex.scope hlex.kind]
    obtain rfl : s' = s := Option.some.inj (hlex'.scope.symm.trans (hscope ▸ hlex.scope))
    exact ⟨hscope, Option.some.inj (hlex'.binding.symm.trans hlex.binding), hscope ▸ hrefs,
      hscope ▸ hg.hidden _ _ hold⟩
  | none =>
    rw [hold] at hget
    obtain rfl := hget
    -- a group that does not exist yet has no reference
    have hnew : ∀ ref' ∈ refs, ∀ r', resolveFrom t ref'.scope = .ok r' → r'.scope ≠ r.scope := by
      intro ref' href' r' hr' hscope
      obtain ⟨s', g', hs', hg'⟩ := hg.complete ref' href' r' hr' (hlex.not_reaches_of hr' hscope)
      rw [hscope, hlex.scope] at hs'
      cases hs'
      rw [hold] at hg'
      cases hg'
    refine ⟨rfl, rfl, fun d => ⟨nofun, ?_⟩, nofun, ?_⟩
    · rintro ⟨ref', href', -, r', hr', hscope⟩
      exact absurd hscope (hnew ref' href' r' hr')
    · rintro ⟨ref', href', r', hr', hscope, -⟩
      exact absurd hscope (hnew ref' href' r' hr')

theorem Grouped.join (h : t.Outlined root.places) (hg : Grouped t refs groups)
    (hr : resolveFrom t ref.scope = .ok r) (hno : r.reachesFunction t = false) :
    Grouped t (refs ++ [ref]) (addReference groups t ref.identifier r) := by
  obtain ⟨s, b, hb, hlex⟩ := lexical_of_not_reaches hr hno
  obtain ⟨g, g', hget, heq, hscope', hbinding', hrefs', hhidden⟩ :=
    addReference_of_lexical groups ref.identifier hlex.scope hb hno
  obtain ⟨hscope, hbinding, hrefs, hconcealed⟩ := hg.current h hlex hget
  rw [heq]
  refine ⟨hg.keyed.set _ _, fun id g₁ hg₁ => ?_, fun ref' href' r' hr' hno' => ?_, fun id g₁ hg₁ => ?_⟩
  · rw [NodeMap.get?_set] at hg₁
    by_cases hid : id = s.node
    · rw [if_pos hid] at hg₁
      obtain rfl := Option.some.inj hg₁
      have hsame : g'.scope = r.scope := hscope'.trans hscope
      refine ⟨s, ?_, hid.symm, fun d => ?_⟩
      · rw [hsame, hbinding', hbinding]
        exact hlex
      · rw [hrefs', mem_append, hrefs, mem_singleton, refersTo_append, hsame]
        refine or_congr_right ⟨fun hd => ⟨hd.symm, r, hr, rfl⟩, fun hd => hd.1.symm⟩
    · rw [if_neg hid] at hg₁
      obtain ⟨s₁, hlex₁, hnode₁, hrefs₁⟩ := hg.sound id g₁ hg₁
      refine ⟨s₁, hlex₁, hnode₁, fun d => ?_⟩
      rw [hrefs₁, refersTo_append]
      refine ⟨Or.inl, fun hd => hd.resolve_right ?_⟩
      rintro ⟨-, r', hr', hscope₁⟩
      obtain rfl : r' = r := Except.ok.inj (hr'.symm.trans hr)
      obtain rfl : s₁ = s := Option.some.inj (hlex₁.scope.symm.trans (hscope₁ ▸ hlex.scope))
      exact hid hnode₁.symm
  · rcases mem_append.mp href' with href' | href'
    · obtain ⟨s₁, g₁, hs₁, hg₁⟩ := hg.complete ref' href' r' hr' hno'
      by_cases hid : s₁.node = s.node
      · exact ⟨s₁, g', hs₁, by rw [NodeMap.get?_set, if_pos hid]⟩
      · exact ⟨s₁, g₁, hs₁, by rw [NodeMap.get?_set, if_neg hid, hg₁]⟩
    · rw [mem_singleton.mp href'] at hr'
      obtain rfl : r' = r := Except.ok.inj (hr'.symm.trans hr)
      exact ⟨s, g', hlex.scope, by rw [NodeMap.get?_set, if_pos rfl]⟩
  · rw [NodeMap.get?_set] at hg₁
    rw [concealedBy_append hr]
    by_cases hid : id = s.node
    · rw [if_pos hid] at hg₁
      obtain rfl := Option.some.inj hg₁
      rw [hhidden, hconcealed, hscope', hscope, and_iff_right rfl]
    · rw [if_neg hid] at hg₁
      obtain ⟨s₁, hlex₁, hnode₁, -⟩ := hg.sound id g₁ hg₁
      rw [hg.hidden id g₁ hg₁]
      refine ⟨Or.inl, fun hd => hd.resolve_right ?_⟩
      rintro ⟨hscope₁, -⟩
      obtain rfl : s₁ = s := Option.some.inj (hlex₁.scope.symm.trans (hscope₁ ▸ hlex.scope))
      exact hid hnode₁.symm

/-- **The groups of a table.** -/
theorem grouped_of_references (h : t.Outlined root.places)
    (hgroups : refs.foldlM (fun groups ref => do
      return addReference groups t ref.identifier (← resolveFrom t ref.scope)) ({} : NodeMap Group) =
        .ok groups) : Grouped t refs groups := by
  refine foldlM_invariant hgroups ⟨nodup_nil, nofun, nofun, nofun⟩ fun {ys x c c'} _ hc hstep => ?_
  obtain ⟨r, hr, hstep⟩ := bind_ok.mp hstep
  obtain rfl := Except.ok.inj hstep
  cases hreach : r.reachesFunction t with
  | true =>
    rw [addReference_of_reaches c x.identifier hreach]
    exact hc.skip hr hreach
  | false => exact hc.join h hr hreach

/-! ## The hidden ones -/

/-- **Hidden variables.** A hidden variable is listed with the identifiers that declare it and with the
references that are resolved to it. -/
theorem mem_hidden (h : t.Outlined root.places) (hhidden : hiddenBindings t = .ok hidden) {ids : List NodeId}
    (hi : (i, ids) ∈ hidden) :
    ∃ s b, Lexical t i s b ∧ ∀ d, d ∈ ids ↔ d ∈ b.identifiers ∨
      ∃ ref ∈ t.references, ref.name = some argumentsName ∧ ref.identifier = d ∧ RefersTo t i ref := by
  obtain ⟨groups, hgroups, hhidden⟩ := bind_ok.mp hhidden
  obtain rfl := Except.ok.inj hhidden
  have hg := grouped_of_references h hgroups
  obtain ⟨⟨id, g⟩, hmem, heq⟩ := mem_map.mp hi
  obtain ⟨rfl, rfl⟩ := Prod.mk.inj heq
  obtain ⟨s, hlex, -, hrefs⟩ := hg.sound id g (NodeMap.get?_of_mem hg.keyed (mem_of_mem_filter hmem))
  refine ⟨s, g.binding, hlex, fun d => ?_⟩
  rw [mem_append, hrefs]
  simp [referencesTo, and_assoc]

/-- The hidden variables are those that some reference would lose sight of. -/
theorem exists_hidden_iff (h : t.Outlined root.places) (hhidden : hiddenBindings t = .ok hidden)
    (hlex : Lexical t i s b) :
    (∃ ids, (i, ids) ∈ hidden) ↔ ConcealedBy t (t.referencesTo argumentsName) i := by
  obtain ⟨groups, hgroups, hhidden⟩ := bind_ok.mp hhidden
  obtain rfl := Except.ok.inj hhidden
  have hg := grouped_of_references h hgroups
  constructor
  · rintro ⟨ids, hi⟩
    obtain ⟨⟨id, g⟩, hmem, heq⟩ := mem_map.mp hi
    obtain ⟨rfl, -⟩ := Prod.mk.inj heq
    obtain ⟨hentry, hflag⟩ := mem_filter.mp hmem
    exact (hg.hidden id g (NodeMap.get?_of_mem hg.keyed hentry)).mp hflag
  · intro hconcealed
    have hsome := hconcealed
    obtain ⟨ref, href, r, hr, rfl, -⟩ := hsome
    obtain ⟨s', g, hs', hget⟩ := hg.complete ref href r hr (hlex.not_reaches_of hr rfl)
    obtain rfl : s' = s := Option.some.inj (hs'.symm.trans hlex.scope)
    obtain ⟨hscope, -, -, hflag⟩ := hg.current h hlex (g := g) (by rw [hget]; rfl)
    rw [← hscope]
    exact ⟨_, mem_map.mpr ⟨(s'.node, g),
      mem_filter.mpr ⟨NodeMap.mem_entries_of_get? hget, hflag.mpr hconcealed⟩, rfl⟩⟩

theorem hidden_of_arrow (h : t.Outlined root.places) (hhidden : hiddenBindings t = .ok hidden)
    (href : ref ∈ t.references) (hname : ref.name = some argumentsName) (hr : resolveFrom t ref.scope = .ok r)
    (hno : r.reachesFunction t = false) (harrow : r.arrow.isSome) : ∃ ids, (r.scope, ids) ∈ hidden := by
  obtain ⟨s, b, -, hlex⟩ := lexical_of_not_reaches hr hno
  refine (exists_hidden_iff h hhidden hlex).mpr ⟨ref, ?_, r, hr, rfl, .inl harrow⟩
  exact mem_filter.mpr ⟨href, by simpa using hname⟩

end

end Lowering

end ArrowFree
