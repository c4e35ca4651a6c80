import ArrowFree.Proofs.Determined
import ArrowFree.Proofs.FunctionScopes

/-!
# The analysis of a function

The analysis of a function that is taken out of its tree finds what the analysis of the whole tree found
about it: the same functions provide the same references and the same variables are hidden
(`provided_iff`, `hiddenIn_iff`), and the names are generated for the same nodes. So the function alone can
be analysed if the tree can be (`exists_analyze_alone`), and the two analyses agree on everything in the
function but its own name, which belongs to what is around it (`agree_within`).
-/

namespace ArrowFree

open ArrowFree.Tree Lowering ScopeTable List

/-- Two analyses say the same of a node. -/
structure Lowering.AgreeOn (a b : Analysis) (n : Tree) : Prop where
  captures : n.isArrow → a.capturesThis n.id = b.capturesThis n.id
  hoisted : n.isOrdinaryFunction → a.hoistedNames.get? n.id = b.hoistedNames.get? n.id
  replaced : n.is .identifier → a.replacement? n.id = b.replacement? n.id

namespace FunctionIn

variable {root f m : Tree} {t u : ScopeTable} {π : Path} (h : FunctionIn root t π f u)
  {ref : Reference} {s : Scope} {p : Place}
include h

/-! ## Hidden variables -/

section

variable {o : Place} {kind : ScopeKind} (ho : o ∈ f.places) (hopens : o.opens? = some kind)
  {r r' : Resolution}
include ho hopens

theorem scope_iff {o' : Place} {kind' : ScopeKind} (ho' : o' ∈ f.places) (hopens' : o'.opens? = some kind')
    (hsame : Same t u o' r r') : r.scope = t.number o.node.id ↔ r'.scope = u.number o.node.id := by
  rw [hsame.scope, hsame.scope_alone]
  exact h.number_iff ho hopens ho' hopens'

theorem conceals_iff (hsame : Same t u o r r') : Conceals t r ↔ Conceals u r' := by
  obtain ⟨s, s', hs, hs', hkind, hkind', -⟩ := h.scope_within ho hopens
  unfold Conceals redeclares
  simp only [hsame.scope, hsame.scope_alone, hs, hs', hsame.binding, hsame.arrow, Option.some.injEq,
    exists_eq_left', exists_and_left, hkind, hkind']

theorem concealedBy_iff : ConcealedBy t (t.referencesTo argumentsName) (t.number o.node.id) ↔
      ConcealedBy u (u.referencesTo argumentsName) (u.number o.node.id) := by
  unfold referencesTo
  constructor
  · rintro ⟨ref, href, r, hr, hscope, hconceals⟩
    obtain ⟨href, hname⟩ := mem_filter.mp href
    obtain ⟨ref', htwins⟩ := h.twins_of_scope href hr ho hopens hscope
    obtain ⟨o', ho', kind', hopens', r₁, r', hr₁, hr', hsame⟩ := htwins.resolved
    obtain rfl : r₁ = r := Except.ok.inj (hr₁.symm.trans hr)
    exact ⟨ref', mem_filter.mpr ⟨htwins.mem_alone, htwins.name ▸ hname⟩, r', hr',
      (h.scope_iff ho hopens ho' hopens' hsame).mp hscope,
      (h.conceals_iff ho' hopens' hsame).mp hconceals⟩
  · rintro ⟨ref', href', r', hr', hscope, hconceals⟩
    obtain ⟨href', hname⟩ := mem_filter.mp href'
    obtain ⟨ref, htwins⟩ := h.twins_of_alone href'
    obtain ⟨o', ho', kind', hopens', r, r₁, hr, hr₁, hsame⟩ := htwins.resolved
    obtain rfl : r₁ = r' := Except.ok.inj (hr₁.symm.trans hr')
    exact ⟨ref, mem_filter.mpr ⟨htwins.mem, htwins.name ▸ hname⟩, r, hr,
      (h.scope_iff ho hopens ho' hopens' hsame).mpr hscope,
      (h.conceals_iff ho' hopens' hsame).mpr hconceals⟩

/-- A reference to a variable within the function is one in both tables. -/
theorem refersTo_iff {ref' : Reference} (htwins : Twins t u f ref ref') :
    RefersTo t (t.number o.node.id) ref ↔ RefersTo u (u.number o.node.id) ref' := by
  obtain ⟨o', ho', kind', hopens', r, r', hr, hr', hsame⟩ := htwins.resolved
  unfold RefersTo
  simp only [hr, hr', Except.ok.injEq, exists_eq_left']
  exact h.scope_iff ho hopens ho' hopens' hsame

theorem names_iff {b : Binding} {d : NodeId} :
    Names t (t.number o.node.id) b d ↔ Names u (u.number o.node.id) b d := by
  refine or_congr_right ⟨?_, ?_⟩
  · rintro ⟨ref, href, hname, hid, hrefers⟩
    obtain ⟨r, hr, hscope⟩ := id hrefers
    obtain ⟨ref', htwins⟩ := h.twins_of_scope href hr ho hopens hscope
    exact ⟨ref', htwins.mem_alone, htwins.name ▸ hname, htwins.identifier ▸ hid,
      (h.refersTo_iff ho hopens htwins).mp hrefers⟩
  · rintro ⟨ref', href', hname, hid, hrefers⟩
    obtain ⟨ref, htwins⟩ := h.twins_of_alone href'
    exact ⟨ref, htwins.mem, htwins.name.trans hname, htwins.identifier.trans hid,
      (h.refersTo_iff ho hopens htwins).mpr hrefers⟩

/-- **The hidden variables within a function** are hidden in both tables. -/
theorem hiddenIn_iff {s' : Scope} (hs : t.scopes[t.number o.node.id]? = some s)
    (hs' : u.scopes[u.number o.node.id]? = some s') {b : Binding} :
    HiddenIn t (t.number o.node.id) s b ↔ HiddenIn u (u.number o.node.id) s' b := by
  obtain ⟨s₁, s₁', hs₁, hs₁', -, -, -, -, hbindings⟩ := h.scope_within ho hopens
  obtain rfl : s = s₁ := Option.some.inj (hs.symm.trans hs₁)
  obtain rfl : s' = s₁' := Option.some.inj (hs'.symm.trans hs₁')
  have hown : s.ownArguments? = s'.ownArguments? := by
    unfold Scope.ownArguments? Scope.binding?
    rw [hbindings]
  have hreaches : Resolution.reachesFunction t ⟨_, some b, none⟩ =
      Resolution.reachesFunction u ⟨_, some b, none⟩ :=
    h.reaches_eq ho hopens ⟨rfl, rfl, rfl, rfl⟩
  refine and_congr ⟨fun hlex => ?_, fun hlex => ?_⟩ (h.concealedBy_iff ho hopens)
  · exact ⟨hs', hown.symm.trans hlex.binding, hreaches.symm.trans hlex.not_reaches⟩
  · exact ⟨hs, hown.trans hlex.binding, hreaches.trans hlex.not_reaches⟩

end

/-! ## Providers and names -/

theorem generated_iff (hm : m ∈ f.nodes) {name : Text} :
    GeneratedFor root m.id name ↔ GeneratedFor f m.id name := by
  have hroot := nodes_trans (node_mem_nodes h.place) hm
  constructor
  · rintro ⟨n, hn, hid, hname⟩
    exact ⟨m, hm, rfl, h.distinct.node_eq hn hroot hid ▸ hname⟩
  · rintro ⟨n, hn, hid, hname⟩
    exact ⟨m, hroot, rfl, h.distinct_alone.node_eq hn hm hid ▸ hname⟩

theorem provider_mem {g : NodeId} (hprovided : ProvidedBy u g ref) :
    ∃ m ∈ f.nodes, m.id = g ∧ f.find? g = some m := by
  obtain ⟨-, -, r, s, -, -, hs, hkind, rfl, -⟩ := hprovided
  exact find?_node h.distinct_alone h.outlined_alone hs (by rw [hkind]; nofun)

/-- A function within the function provides the same references in both. -/
theorem exists_provided_iff (hm : m ∈ f.nodes) :
    (∃ ref, ProvidedBy t m.id ref) ↔ ∃ ref, ProvidedBy u m.id ref := by
  constructor
  · rintro ⟨ref, hprovided⟩
    obtain ⟨href, -, r, s, hr, -, hs, hkind, hnode, -⟩ := id hprovided
    obtain ⟨p, hp, hopens, hid, hnumber⟩ := h.outlined.opener hs (by rw [hkind]; nofun)
    have hroot := nodes_trans (node_mem_nodes h.place) hm
    obtain rfl := h.distinct.node_eq (node_mem_nodes hp) hroot (hid.trans hnode)
    obtain ⟨q, hq, rfl⟩ := h.mem_within hp hm
    rw [h.opens?_under hq] at hopens
    obtain ⟨ref', htwins⟩ := h.twins_of_scope href hr hq hopens (hid ▸ hnumber.symm)
    exact ⟨ref', (h.provided_iff htwins _).mp hprovided⟩
  · rintro ⟨ref', hprovided⟩
    obtain ⟨ref, htwins⟩ := h.twins_of_alone hprovided.1
    exact ⟨ref, (h.provided_iff htwins _).mpr hprovided⟩

/-! ## Two analyses -/

/-- **The function alone can be analysed** if the tree can be: it asks for no name that was not given
before. -/
theorem exists_analyze_alone {a : Analysis} (ha : analyze t root = .ok a) :
    ∃ b, analyze u f = .ok b := by
  obtain ⟨hidden₁, hanalyzed⟩ := analyzed h.distinct h.scopes_eq ha
  obtain ⟨hhoisted, hidden, hhidden, hnamed⟩ := nameable_of_analyze h.distinct ha
  have hroot : ∀ {m}, m ∈ f.nodes → m ∈ root.nodes := nodes_trans (node_mem_nodes h.place)
  refine exists_analyze h.distinct_alone h.alone_eq (fun arrow target hhoists => ?_)
    fun hidden' x hhidden' hx => ?_
  · obtain ⟨refs, hrefs, hne⟩ := hhoists.collects
    obtain ⟨n, hn⟩ := exists_mem_of_ne_nil refs hne
    obtain ⟨ref', -, hprovided⟩ := provided_of_collected h.distinct_alone h.outlined_alone hhoists.mem
      hhoists.isArrow hrefs hhoists.target_eq hn
    obtain ⟨m, hm, rfl, hfind⟩ := h.provider_mem hprovided
    rw [hfind]
    obtain ⟨ref, hprovided⟩ := (h.exists_provided_iff hm).mpr ⟨ref', hprovided⟩
    obtain ⟨name, hname, -⟩ := hanalyzed.exists_hoisted ha hprovided
    exact hhoisted m (hroot hm) (by rw [hname]; rfl)
  · obtain ⟨j, ids⟩ := x
    obtain ⟨s', b, hlex, -⟩ := mem_hidden h.outlined_alone hhidden' hx
    obtain ⟨o, ho, hopens, hid, hnumber⟩ := h.outlined_alone.opener hlex.scope hlex.kind
    obtain rfl : u.number o.node.id = j := hid ▸ hnumber
    obtain ⟨s, -, hs, -, -, -, hnode, -⟩ := h.scope_within ho hopens
    obtain ⟨hlex', hconcealed⟩ := (h.hiddenIn_iff ho hopens hs hlex.scope).mpr
      ⟨hlex, (exists_hidden_iff h.outlined_alone hhidden' hlex).mp ⟨ids, hx⟩⟩
    obtain ⟨ids', hids'⟩ := (exists_hidden_iff h.outlined hhidden hlex').mpr hconcealed
    have hmem := node_mem_nodes ho
    rw [hlex.scope, Option.bind_some, ← hid, h.distinct_alone.find?_id hmem]
    exact hnamed _ hids' s hs o.node (hroot hmem) hnode.symm

/-- What names a variable in the function, the name of the function apart, names one of a scope within
the function. -/
theorem names_within {o : Occurrence} (ho : o ∈ f.occurrences) (hfield : o.field ≠ "id")
    (hp : p ∈ o.tree.places) {i : Nat} {v : Binding} (hlex : Lexical t i s v) (hnames : Names t i v p.node.id) :
    ∃ o' ∈ f.places, ∃ kind, o'.opens? = some kind ∧ i = t.number o'.node.id := by
  rcases hnames with hin | ⟨ref, href, -, hid, r, hr, rfl⟩
  · obtain ⟨d, hdec, -, hid⟩ := (hlex.mem_identifiers h.outlined _).mp hin
    exact h.declared_within ho hfield hp hdec hid
  · have hmem : p.node ∈ f.nodes := mem_nodes_iff.mpr (.inr ⟨o, ho, node_mem_nodes hp⟩)
    obtain ⟨ref', htwins⟩ := h.twins_of_node href hmem hid.symm
    obtain ⟨o', ho', kind, hopens, r₁, r', hr₁, -, hsame⟩ := htwins.resolved
    obtain rfl : r₁ = r := Except.ok.inj (hr₁.symm.trans hr)
    exact ⟨o', ho', kind, hopens, hsame.scope⟩

section

variable {a b : Analysis} (ha : analyze t root = .ok a) (hb : analyze u f = .ok b)
include ha hb

theorem argumentTargets_eq (hm : m ∈ f.nodes) :
    a.argumentTargets.get? m.id = b.argumentTargets.get? m.id := by
  obtain ⟨hidden, hanalyzed⟩ := analyzed h.distinct h.scopes_eq ha
  obtain ⟨hidden', hanalyzed'⟩ := analyzed h.distinct_alone h.alone_eq hb
  refine Option.ext fun g => ?_
  rw [hanalyzed.argumentTargets_iff ha, hanalyzed'.argumentTargets_iff hb]
  constructor
  · rintro ⟨ref, hid, hprovided⟩
    obtain ⟨ref', htwins⟩ := h.twins_of_node hprovided.1 hm hid.symm
    exact ⟨ref', htwins.identifier.symm.trans hid, (h.provided_iff htwins g).mp hprovided⟩
  · rintro ⟨ref', hid, hprovided⟩
    obtain ⟨ref, htwins⟩ := h.twins_of_alone hprovided.1
    exact ⟨ref, htwins.identifier.trans hid, (h.provided_iff htwins g).mpr hprovided⟩

theorem hoistedNames_eq (hm : m ∈ f.nodes) : a.hoistedNames.get? m.id = b.hoistedNames.get? m.id := by
  obtain ⟨hidden, hanalyzed⟩ := analyzed h.distinct h.scopes_eq ha
  obtain ⟨hidden', hanalyzed'⟩ := analyzed h.distinct_alone h.alone_eq hb
  refine Option.ext fun name => ?_
  rw [hanalyzed.hoistedNames_iff ha, hanalyzed'.hoistedNames_iff hb, h.exists_provided_iff hm,
    h.generated_iff hm]

theorem renamed_eq {o : Occurrence} (ho : o ∈ f.occurrences) (hfield : o.field ≠ "id")
    (hp : p ∈ o.tree.places) : a.renamed.get? p.node.id = b.renamed.get? p.node.id := by
  obtain ⟨hidden, hanalyzed⟩ := analyzed h.distinct h.scopes_eq ha
  obtain ⟨hidden', hanalyzed'⟩ := analyzed h.distinct_alone h.alone_eq hb
  refine Option.ext fun name => ?_
  rw [hanalyzed.renamed_iff, hanalyzed'.renamed_iff]
  constructor
  · rintro ⟨i, s, v, hhidden, hnames, hname⟩
    obtain ⟨o', ho', kind, hopens, rfl⟩ := h.names_within ho hfield hp hhidden.1 hnames
    obtain ⟨s₁, s', hs₁, hs', -, -, hnode, hnode', -⟩ := h.scope_within ho' hopens
    obtain rfl : s = s₁ := Option.some.inj (hhidden.1.scope.symm.trans hs₁)
    rw [hnode, h.generated_iff (node_mem_nodes ho'), ← hnode'] at hname
    exact ⟨_, s', v, (h.hiddenIn_iff ho' hopens hs₁ hs').mp hhidden,
      (h.names_iff ho' hopens).mp hnames, hname⟩
  · rintro ⟨i, s', v, hhidden, hnames, hname⟩
    obtain ⟨o', ho', kind, hopens, rfl⟩ := h.alone.names_within ho hfield hp hhidden.1 hnames
    obtain ⟨s, s₁, hs, hs₁, -, -, hnode, hnode', -⟩ := h.scope_within ho' hopens
    obtain rfl : s' = s₁ := Option.some.inj (hhidden.1.scope.symm.trans hs₁)
    rw [hnode', ← h.generated_iff (node_mem_nodes ho'), ← hnode] at hname
    exact ⟨_, s, v, (h.hiddenIn_iff ho' hopens hs hs₁).mpr hhidden,
      (h.names_iff ho' hopens).mpr hnames, hname⟩

/-- **The two analyses agree** on what is in the function, its own name apart. -/
theorem agree_within {o : Occurrence} (ho : o ∈ f.occurrences) (hfield : o.field ≠ "id")
    (hm : m ∈ o.tree.nodes) : AgreeOn a b m := by
  have hin : m ∈ f.nodes := mem_nodes_iff.mpr (.inr ⟨o, ho, hm⟩)
  refine ⟨fun harrow => ?_, fun _ => h.hoistedNames_eq ha hb hin, fun _ => ?_⟩
  · rw [capturesThis_of_analyze h.distinct ha (nodes_trans (node_mem_nodes h.place) hin) harrow,
      capturesThis_of_analyze h.distinct_alone hb hin harrow]
  · unfold Analysis.replacement?
    rw [h.argumentTargets_eq ha hb hin]
    cases htarget : b.argumentTargets.get? m.id with
    | none =>
      obtain ⟨p, hp, rfl⟩ := mem_map.mp hm
      exact h.renamed_eq ha hb ho hfield hp
    | some g =>
      obtain ⟨hidden', hanalyzed'⟩ := analyzed h.distinct_alone h.alone_eq hb
      obtain ⟨ref, -, hprovided⟩ := (hanalyzed'.argumentTargets_iff hb).mp htarget
      obtain ⟨n, hn, rfl, -⟩ := h.provider_mem hprovided
      exact h.hoistedNames_eq ha hb hn

omit ha in
/-- The function alone leaves no reference unresolved: it provides its own arguments. -/
theorem unresolved_alone : b.unresolved = [] := by
  have hnone : f.places.filter (unprovided u) = [] := by
    refine filter_eq_nil_iff.mpr fun p hp => ?_
    rcases mem_places_iff.mp hp with ⟨-, rfl⟩ | ⟨o, ho, q, hq, rfl⟩
    · simp [unprovided]
    · rw [unprovided_of_function (s := o.step f) (by simp [Place.under]) h.ordinary]
      exact Bool.false_ne_true
  rw [unresolved_eq h.outlined_alone h.distinct_alone hb, hnone]
  rfl

end

end FunctionIn

end ArrowFree
