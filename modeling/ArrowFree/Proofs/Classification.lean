import ArrowFree.Proofs.Determined

/-!
# What becomes of each reference

The analysis finds references to `arguments` by looking into arrows, skipping the functions within, and it
decides on them by looking outwards along the scopes. Both views agree: an arrow collects a reference
exactly if the walk from the reference passes an arrow on its way to a function or to the program, and
the function that provides it is the one that owns the arrow. So each reference is carried, reported or
renamed for a reason that can be read off its resolution (`Classified`), and for one reason only
(`Exclusive`).
-/

namespace ArrowFree

open List

variable {p : Place} {n : Tree}

namespace Tree

variable {π : Path}

/-- The arrow around a node that all other arrows around it are in. -/
structure OutermostArrow (root n x : Tree) : Prop where
  mem : x ∈ root.nodes
  isArrow : x.isArrow
  around : n ∈ x.nodes
  outer : ∀ y ∈ root.nodes, y.isArrow → n ∈ y.nodes → y ∈ x.nodes

variable {root : Tree} (hd : root.Distinct)
include hd

theorem Distinct.filter_place (hp : p ∈ root.places) :
    root.places.filter (fun q => q.node.id = p.node.id) = [p] := by
  have hnodup := hd.nodup
  rw [nodes, map_map] at hnodup
  exact filter_eq_of_nodup_map hnodup hp

/-- A node around another one is on the path to it. -/
theorem Distinct.path_through {y : Tree} (hn : ⟨n, π⟩ ∈ root.places) (hy : y ∈ root.nodes) (hin : n ∈ y.nodes)
    (hne : n ≠ y) : ∃ q s ρ, π = q ++ s :: ρ ∧ s.owner = y ∧ ⟨y, ρ⟩ ∈ root.places := by
  obtain ⟨⟨y, ρ⟩, hρ, rfl⟩ := mem_map.mp hy
  obtain ⟨⟨n, σ⟩, hσ, rfl⟩ := mem_map.mp hin
  have hpath : π = σ ++ ρ := congrArg Place.path (hd.place_eq hn (under_mem_places hρ hσ) rfl)
  rcases eq_nil_or_concat σ with rfl | ⟨q, s, rfl⟩
  · exact absurd (mem_places_nil.mp hσ).1 hne
  · rw [concat_eq_append] at hσ hpath
    rw [append_assoc, singleton_append] at hpath
    exact ⟨q, s, ρ, hpath, (mem_places_nil.mp (owner_mem_places hσ)).1, hρ⟩

/-- The last arrow on a path is the outermost one. -/
theorem outermostArrow_of_path (hnode : n.isArrow = false) {q : Path} {s : Step}
    (hn : ⟨n, q ++ s :: π⟩ ∈ root.places) (hs : s.owner.isArrow) (hπ : ∀ s' ∈ π, s'.owner.isArrow = false) :
    OutermostArrow root n s.owner where
  mem := node_mem_nodes (owner_mem_places hn)
  isArrow := hs
  around := node_mem_nodes (mem_owner_places hn)
  outer y hy harrow hin := by
    have hself : s.owner ∈ s.owner.nodes :=
      node_mem_nodes (mem_places_nil.mpr ⟨rfl, isNode_of_mem_places (owner_mem_places hn)⟩)
    obtain ⟨q', s', ρ, heq, rfl, hplace⟩ := hd.path_through hn hy hin fun h => by
      rw [h, harrow] at hnode
      cases hnode
    rcases append_eq_append_iff.mp heq with ⟨c, -, hc⟩ | ⟨c, -, hc⟩
    · cases c with
      | nil =>
        cases hc
        exact hself
      | cons s₁ c =>
        -- the other arrow would be further out than the last one
        have hin' : s' ∈ π := (cons.inj hc).2 ▸ mem_append_right _ mem_cons_self
        rw [hπ s' hin'] at harrow
        cases harrow
    · cases c with
      | nil =>
        cases hc
        exact hself
      | cons s₁ c =>
        rw [(cons.inj hc).2] at hplace
        exact node_mem_nodes (mem_owner_places hplace)

end Tree

namespace Lowering

open ArrowFree.Tree ScopeTable

variable {ref : Reference} {r : Resolution} {s : Scope}

/-- Some reference to the `arguments` of a scope is past an arrow. -/
def SeenPastArrow (root : Tree) (t : ScopeTable) (i : Nat) : Prop :=
  ∃ m ∈ root.nodes, m.name? = some argumentsName ∧
    ∃ r, resolve t m = .ok r ∧ r.scope = i ∧ r.arrow.isSome

/-- What the analysis makes of a reference to `arguments`, as its resolution and the scope in which it ends
say. -/
structure Classified (root : Tree) (t : ScopeTable) (a : Analysis) (n : Tree) (r : Resolution)
    (s : Scope) : Prop where
  collected : (∃ x ∈ root.nodes, x.isArrow ∧ ∃ refs, collectReferences t x = .ok refs ∧ n ∈ refs) ↔
    r.arrow.isSome ∧ r.reachesFunction t = true
  target : ∀ x ∈ root.nodes, x.isArrow → ∀ refs, collectReferences t x = .ok refs → n ∈ refs →
    hoistTarget t x = .ok (if s.kind = .program then none else some s.node)
  carried : ∀ f, a.argumentTargets.get? n.id = some f ↔
    (r.arrow.isSome ∧ r.reachesFunction t = true ∧ s.kind = .function) ∧ f = s.node
  reported : n.id ∈ a.unresolved.map Unresolved.reference ↔ r.arrow.isSome ∧ s.kind = .program
  reportedOnce : r.arrow.isSome → s.kind = .program → ∃ x, OutermostArrow root n x ∧
    a.unresolved.filter (fun u => u.reference = n.id) = [⟨x.id, n.id, n.location⟩]
  renamed : (a.renamed.get? n.id).isSome ↔ r.reachesFunction t = false ∧
    (SeenPastArrow root t r.scope ∨
      s.kind = .arrow ∧ ∃ b, s.binding? argumentsName = some b ∧ b.type = .variable)

/-- No identifier is dealt with in two ways. -/
structure Exclusive (a : Analysis) : Prop where
  carried_reported : ∀ d, (a.argumentTargets.get? d).isSome →
    d ∉ a.unresolved.map Unresolved.reference
  carried_renamed : ∀ d, (a.argumentTargets.get? d).isSome → a.renamed.get? d = none
  reported_renamed : ∀ d, d ∈ a.unresolved.map Unresolved.reference → a.renamed.get? d = none

section

variable {root : Tree} {t : ScopeTable} (h : t.Outlined root.places) (hd : root.Distinct)
include h hd

theorem resolve_reference (href : ref ∈ t.references) :
    ∃ p ∈ root.places, p.node.is .identifier ∧ p.isReference ∧
      ref = ⟨p.node.id, p.node.name?, t.enclosing p.path⟩ ∧
      resolve t p.node = resolveFrom t (t.enclosing p.path) := by
  obtain ⟨p, hp, hident, hisRef, rfl⟩ := h.references ref href
  refine ⟨p, hp, hident, hisRef, rfl, ?_⟩
  obtain ⟨ref', href'⟩ : ∃ ref', t.reference? p.node.id = some ref' :=
    Option.isSome_iff_exists.mp (find?_isSome.mpr ⟨_, href, by simp⟩)
  have hid : ref'.identifier = p.node.id := by simpa using find?_some href'
  obtain rfl := h.reference_eq hd (mem_of_find?_eq_some href') href hid
  rw [resolve, referenceScope, href']
  rfl

omit hd in
theorem unprovided_iff (hp : p ∈ root.places) (hname : p.node.name? = some argumentsName)
    (hisRef : p.isReference) (hresolve : resolve t p.node = resolveFrom t (t.enclosing p.path))
    (hr : resolve t p.node = .ok r) (hs : t.scopes[r.scope]? = some s) :
    unprovided t p ↔ r.arrow.isSome ∧ s.kind = .program := by
  have hfrom := hresolve.symm.trans hr
  have hreach (hkind : s.kind = .program) : r.reachesFunction t := by
    rw [Resolution.reachesFunction, hs]
    simp [Scope.isTransparent, hkind]
  have hprogram : ((resolve t p.node).toOption.any fun r =>
      (t.scopes[r.scope]?).any fun s => s.kind = .program) = decide (s.kind = .program) := by
    rw [hr]
    show (t.scopes[r.scope]?).any _ = _
    rw [hs]
    rfl
  rw [unprovided, hname, hisRef, hprogram]
  simp only [Bool.and_eq_true, decide_eq_true_eq, any_eq_true, all_eq_true,
    Bool.not_eq_true', true_and, and_true]
  constructor
  · rintro ⟨⟨⟨st, hst, harrow⟩, hall⟩, hkind⟩
    obtain ⟨q, ρ, hpath⟩ := append_of_mem hst
    refine ⟨passes_arrow h (hpath ▸ h.closed p hp) harrow (fun s' hs' => hall s' ?_)
      (hpath ▸ hfrom) (hreach hkind), hkind⟩
    exact hpath ▸ mem_append_left _ hs'
  · rintro ⟨harrow, hkind⟩
    obtain ⟨arrow, harrow⟩ := Option.isSome_iff_exists.mp harrow
    obtain ⟨q, st, ρ, hpath, hst, -⟩ :=
      arrow_of_resolution h (h.closed p hp) (resolveFrom_ok.mp hfrom) harrow
    have howner := owner?_of_reaches hfrom (hreach hkind)
    exact ⟨⟨⟨st, hpath ▸ by simp, hst⟩, (owner_program_iff h (h.closed p hp) howner hs).mp hkind⟩,
      hkind⟩

omit h in
theorem leftOver_eq (hp : p ∈ root.places) (hident : p.node.is .identifier)
    (harrow : p.path.any fun s => s.owner.isArrow) :
    ∃ x, OutermostArrow root p.node x ∧ leftOver p = ⟨x.id, p.node.id, p.node.location⟩ := by
  obtain ⟨n, π⟩ := p
  have hnode : n.isArrow = false := by
    rw [isArrow, of_decide_eq_true hident]
    rfl
  obtain ⟨st, hst, harrow⟩ := any_eq_true.mp harrow
  obtain ⟨s, hfind⟩ := Option.isSome_iff_exists.mp (find?_isSome.mpr
    ⟨st, mem_reverse.mpr hst, harrow⟩ : (π.reverse.find? fun s => s.owner.isArrow).isSome)
  obtain ⟨hs, as, bs, hsplit, has⟩ := find?_eq_some_iff_append.mp hfind
  have hpath : π = bs.reverse ++ s :: as.reverse := by
    rw [← reverse_reverse π, hsplit, reverse_append, reverse_cons, append_assoc]
    rfl
  subst hpath
  have houter : ∀ s' ∈ as.reverse, s'.owner.isArrow = false := by
    intro s' hs'
    simpa using has s' (mem_reverse.mp hs')
  refine ⟨s.owner, outermostArrow_of_path hd hnode hp hs houter, ?_⟩
  rw [leftOver, outermostArrow_append hs houter]
  rfl

end

namespace Analyzed

variable {root : Tree} {t : ScopeTable} {hidden : List (Nat × List NodeId)} {a : Analysis}
  (h : Analyzed a root t hidden)
include h

/-- A renamed reference means a variable of its own. -/
theorem not_reaches_of_renamed (href : ref ∈ t.references) (hr : resolveFrom t ref.scope = .ok r)
    (hsome : (a.renamed.get? ref.identifier).isSome) : r.reachesFunction t = false := by
  obtain ⟨name, hname⟩ := Option.isSome_iff_exists.mp hsome
  obtain ⟨-, r', ids, -, hr', hi, -⟩ := h.renamed_reference href hname
  obtain rfl : r = r' := Except.ok.inj (hr.symm.trans hr')
  obtain ⟨s, b, hlex, -⟩ := mem_hidden h.outlined h.hidden_eq hi
  exact hlex.not_reaches_of hr rfl

/-- **Renamed references** are those to a variable that some reference would lose sight of. -/
theorem renamed_reference_iff (href : ref ∈ t.references) (hname : ref.name = some argumentsName)
    (hr : resolveFrom t ref.scope = .ok r) (hs : t.scopes[r.scope]? = some s) :
    (a.renamed.get? ref.identifier).isSome ↔ r.reachesFunction t = false ∧
      (SeenPastArrow root t r.scope ∨
        s.kind = .arrow ∧ ∃ b, s.binding? argumentsName = some b ∧ b.type = .variable) := by
  constructor
  · intro hsome
    have hno := h.not_reaches_of_renamed href hr hsome
    obtain ⟨name, hrenamed⟩ := Option.isSome_iff_exists.mp hsome
    obtain ⟨-, r', ids, -, hr', hi, -⟩ := h.renamed_reference href hrenamed
    obtain rfl : r = r' := Except.ok.inj (hr.symm.trans hr')
    obtain ⟨s', b, -, hlex⟩ := lexical_of_not_reaches hr hno
    obtain ⟨ref', href', r', hr', hscope, hconceals⟩ :=
      (exists_hidden_iff h.outlined h.hidden_eq hlex).mp ⟨ids, hi⟩
    obtain ⟨hmem, hargs⟩ := mem_filter.mp href'
    refine ⟨hno, hconceals.imp (fun harrow => ?_) ?_⟩
    · obtain ⟨q, hq, -, -, rfl, hresolve⟩ := resolve_reference h.outlined h.distinct hmem
      exact ⟨q.node, node_mem_nodes hq, by simpa using hargs, r', hresolve.trans hr', hscope, harrow⟩
    · rintro ⟨s₁, b₁, hs₁, hb₁, hvar⟩
      rw [hscope, hs] at hs₁
      cases hs₁
      obtain ⟨s₂, hs₂, hb₂⟩ := resolution_scope hr'
      rw [hscope, hs] at hs₂
      cases hs₂
      simp only [redeclares, Bool.and_eq_true, decide_eq_true_eq] at hvar
      exact ⟨hvar.1, b₁, (Option.filter_eq_some_iff.mp (hb₂.symm.trans hb₁)).1, hvar.2⟩
  · rintro ⟨hno, hcases⟩
    obtain ⟨s', b, hb, hlex⟩ := lexical_of_not_reaches hr hno
    obtain rfl : s = s' := Option.some.inj (hs.symm.trans hlex.scope)
    have hmem {ref : Reference} (href : ref ∈ t.references) (hname : ref.name = some argumentsName) :
        ref ∈ t.referencesTo argumentsName := mem_filter.mpr ⟨href, by simpa using hname⟩
    have hconcealed : ConcealedBy t (t.referencesTo argumentsName) r.scope := by
      rcases hcases with ⟨m, hm, hargs, r', hr', hscope, harrow⟩ | ⟨hkind, b', hb', hvar⟩
      · obtain ⟨ref', href', hid, hfrom⟩ := resolve_ok hr'
        obtain ⟨q, hq, -, -, rfl, -⟩ := resolve_reference h.outlined h.distinct href'
        obtain rfl : q.node = m := h.distinct.node_eq (node_mem_nodes hq) hm hid
        exact ⟨_, hmem href' hargs, r', hfrom, hscope, .inl harrow⟩
      · refine ⟨_, hmem href hname, r, hr, rfl, .inr ⟨s, b, hs, hb, ?_⟩⟩
        have hsame := (Option.filter_eq_some_iff.mp hlex.binding).1
        obtain rfl : b' = b := Option.some.inj (hb'.symm.trans hsame)
        simp [redeclares, hkind, hvar]
    obtain ⟨ids, hi⟩ := (exists_hidden_iff h.outlined h.hidden_eq hlex).mpr hconcealed
    obtain ⟨s', b', -, hids⟩ := mem_hidden h.outlined h.hidden_eq hi
    exact h.recorded.complete _ hi _ ((hids _).mpr (.inr ⟨_, href, hname, rfl, r, hr, rfl⟩))

/-- No variable is renamed in the scope of a function whose arguments are kept. -/
theorem hoistTarget_not_hidden {x : Nat × List NodeId} (hx : x ∈ hidden) (hs : t.scopes[x.1]? = some s) :
    a.isHoistTarget s.node = false := by
  obtain ⟨i, ids⟩ := x
  rw [← Bool.not_eq_true]
  intro htarget
  obtain ⟨name, hname⟩ := Option.isSome_iff_exists.mp htarget
  obtain ⟨⟨ref, -, -, r, s', hr, hreach, hs', hkind, hnode, -⟩, -⟩ :=
    h.recorded.provided.hoisted _ _ hname
  obtain ⟨s₁, b, hlex, -⟩ := mem_hidden h.outlined h.hidden_eq hx
  obtain rfl : s = s₁ := Option.some.inj (hs.symm.trans hlex.scope)
  have hscope : r.scope = i := by
    rw [← h.outlined.number_node hs' (by rw [hkind]; nofun), hnode,
      h.outlined.number_node hs hlex.kind]
  rw [hlex.not_reaches_of hr hscope] at hreach
  cases hreach

variable (ha : analyze t root = .ok a)
include ha

theorem exclusive : Exclusive a where
  carried_reported d hsome := by
    obtain ⟨f, hf⟩ := Option.isSome_iff_exists.mp hsome
    obtain ⟨ref, rfl, hprovided⟩ := (h.argumentTargets_iff ha).mp hf
    exact hprovided.resolved h.outlined h.distinct ha
  carried_renamed d hsome := by
    obtain ⟨f, hf⟩ := Option.isSome_iff_exists.mp hsome
    obtain ⟨ref, rfl, href, -, r, s, hr, hreach, -⟩ := (h.argumentTargets_iff ha).mp hf
    rw [← Option.not_isSome_iff_eq_none]
    intro hrenamed
    rw [h.not_reaches_of_renamed href hr hrenamed] at hreach
    cases hreach
  reported_renamed d hin := by
    rw [unresolved_eq h.outlined h.distinct ha, map_map] at hin
    obtain ⟨p, hp, rfl⟩ := mem_map.mp hin
    obtain ⟨hp, hleft⟩ := mem_filter.mp hp
    obtain ⟨r, s, hresolve, hs, hkind⟩ := resolve_of_unprovided hleft
    obtain ⟨ref, href, hid, hr⟩ := resolve_ok hresolve
    rw [← Option.not_isSome_iff_eq_none]
    intro hrenamed
    have hno := h.not_reaches_of_renamed href hr (hid ▸ hrenamed)
    rw [Resolution.reachesFunction, hs] at hno
    simp [Scope.isTransparent, hkind] at hno

theorem reported_of_place (hp : p ∈ root.places) :
    a.unresolved.filter (fun u => u.reference = p.node.id) =
      if unprovided t p then [leftOver p] else [] := by
  rw [unresolved_eq h.outlined h.distinct ha, filter_map, filter_filter]
  have hcomm : root.places.filter (fun q =>
      ((fun u : Unresolved => decide (u.reference = p.node.id)) ∘ leftOver) q && unprovided t q) =
        [p].filter (unprovided t) := by
    rw [← h.distinct.filter_place hp, filter_filter]
    exact filter_congr fun q _ => Bool.and_comm ..
  rw [hcomm, filter_singleton]
  cases unprovided t p <;> rfl

/-- **The classification of one reference.** -/
theorem classified (ht : ofTree root = .ok t) (hn : n ∈ root.nodes) (hname : n.name? = some argumentsName)
    (hrecorded : (t.reference? n.id).isSome) :
    ∃ r s, resolve t n = .ok r ∧ t.scopes[r.scope]? = some s ∧ Classified root t a n r s := by
  obtain ⟨ref, hfind⟩ := Option.isSome_iff_exists.mp hrecorded
  have href := mem_of_find?_eq_some hfind
  obtain ⟨p, hp, hident, hisRef, rfl, hresolve⟩ := resolve_reference h.outlined h.distinct href
  have hid : p.node.id = n.id := by simpa using find?_some hfind
  obtain rfl : p.node = n := h.distinct.node_eq (node_mem_nodes hp) hn hid
  obtain ⟨r, hr⟩ := resolve_of_recorded h.outlined.rooted hfind
  have hfrom := hresolve.symm.trans hr
  obtain ⟨s, hs, -⟩ := resolution_scope hfrom
  have hleft := unprovided_iff h.outlined hp hname hisRef hresolve hr hs
  have hreport := h.reported_of_place ha hp
  -- what an arrow collects has the resolution of the reference
  have hcollected {x : Tree} (hx : x ∈ root.nodes) (harrow : x.isArrow) {refs : List Tree}
      (hrefs : collectReferences t x = .ok refs) (hin : p.node ∈ refs) :
      (r.arrow.isSome ∧ r.reachesFunction t) ∧
        hoistTarget t x = .ok (if s.kind = .program then none else some s.node) := by
    obtain ⟨target, htarget⟩ := hoistTarget_ok h.distinct ht hx harrow
    obtain ⟨ref', href', hid', -, r', s', hr', hreach, hs', rfl, hpassed⟩ :=
      target_of_collected h.distinct h.outlined hx harrow hrefs htarget hin
    obtain rfl := h.outlined.reference_eq h.distinct href' href hid'
    obtain rfl : r = r' := Except.ok.inj (hfrom.symm.trans hr')
    obtain rfl : s = s' := Option.some.inj (hs.symm.trans hs')
    exact ⟨⟨hpassed, hreach⟩, htarget⟩
  refine ⟨r, s, hr, hs, ?_, fun x hx harrow refs hrefs hin => (hcollected hx harrow hrefs hin).2,
    fun f => ?_, ?_, fun harrow hkind => ?_, h.renamed_reference_iff href hname hfrom hs⟩
  · constructor
    · rintro ⟨x, hx, harrow, refs, hrefs, hin⟩
      exact (hcollected hx harrow hrefs hin).1
    · rintro ⟨harrow, hreach⟩
      obtain ⟨arrow, harrow⟩ := Option.isSome_iff_exists.mp harrow
      obtain ⟨x, hx, hisArrow, hin⟩ :=
        collected_of_reference h.distinct h.outlined href hname hfrom harrow hreach
      obtain ⟨refs, hrefs⟩ := collectReferences_ok h.distinct ht hx hisArrow
      obtain ⟨m, hm, hsame⟩ := mem_map.mp (hin refs hrefs)
      obtain ⟨q, hq, rfl, -⟩ := mem_collected hrefs hm
      have hroot := nodes_trans hx (node_mem_nodes (mem_placesAt_skip.mp hq).1)
      have hnode : q.node = p.node := h.distinct.node_eq hroot hn hsame
      exact ⟨x, hx, hisArrow, refs, hrefs, hnode ▸ hm⟩
  · rw [h.argumentTargets_iff ha]
    constructor
    · rintro ⟨ref', hid', href', -, r', s', hr', hreach, hs', hkind, rfl, harrow⟩
      obtain rfl := h.outlined.reference_eq h.distinct href' href hid'
      obtain rfl : r = r' := Except.ok.inj (hfrom.symm.trans hr')
      obtain rfl : s = s' := Option.some.inj (hs.symm.trans hs')
      exact ⟨⟨harrow, hreach, hkind⟩, rfl⟩
    · rintro ⟨⟨harrow, hreach, hkind⟩, rfl⟩
      exact ⟨_, rfl, href, hname, r, s, hfrom, hreach, hs, hkind, rfl, harrow⟩
  · rw [← hleft]
    constructor
    · intro hin
      obtain ⟨u, hu, hsame⟩ := mem_map.mp hin
      have hmem : u ∈ a.unresolved.filter fun u => u.reference = p.node.id :=
        mem_filter.mpr ⟨hu, decide_eq_true hsame⟩
      rw [hreport] at hmem
      by_contra hnot
      rw [if_neg hnot] at hmem
      cases hmem
    · intro hunprovided
      rw [if_pos hunprovided] at hreport
      obtain ⟨hu, hsame⟩ := mem_filter.mp (hreport ▸ mem_singleton_self (leftOver p))
      exact mem_map.mpr ⟨_, hu, of_decide_eq_true hsame⟩
  · have hunprovided := hleft.mpr ⟨harrow, hkind⟩
    have hany : p.path.any fun s => s.owner.isArrow := by
      simp only [unprovided, Bool.and_eq_true] at hunprovided
      exact hunprovided.1.1.2
    obtain ⟨x, houter, heq⟩ := leftOver_eq h.distinct hp hident hany
    exact ⟨x, houter, by rw [hreport, if_pos hunprovided, heq]⟩

end Analyzed

/-- **The classification of references.** What becomes of a recorded reference to `arguments` is what its
resolution says, no identifier is dealt with in two ways, and no function whose arguments are kept in a
variable has a renamed variable in its scope. -/
theorem references_classified {tree : Tree} {t : ScopeTable} {a : Analysis}
    (ht : ofTree tree.numbered = .ok t) (ha : analyze t tree.numbered = .ok a) :
    (∀ n ∈ tree.numbered.nodes, n.name? = some argumentsName → (t.reference? n.id).isSome →
      ∃ r s, resolve t n = .ok r ∧ t.scopes[r.scope]? = some s ∧
        Classified tree.numbered t a n r s) ∧
      Exclusive a ∧
      ∃ hidden, hiddenBindings t = .ok hidden ∧
        ∀ x ∈ hidden, ∀ s, t.scopes[x.1]? = some s → a.isHoistTarget s.node = false := by
  obtain ⟨hidden, h⟩ := analyzed (distinct_numbered tree) ht ha
  exact ⟨fun n hn hname hrecorded => h.classified ha ht hn hname hrecorded, h.exclusive ha, hidden,
    h.hidden_eq, fun x hx s hs => h.hoistTarget_not_hidden hx hs⟩

/-- An arrow in a function, an arrow in an arrow at program level and an arrow in one with a parameter
`arguments`, each with a reference. -/
def referencesOfEachKind : Tree :=
  let name : Tree := .mk .identifier none [.text "arguments"]
  let arrow (params : List Tree) (body : Tree) : Tree :=
    .mk .arrowFunctionExpression none [.list params, body, .bool true]
  let statement (e : Tree) : Tree := .mk .expressionStatement none [e]
  .mk .program none [.list [
    statement (.mk .functionExpression none [.null, .list [],
      .mk .blockStatement none [.list [statement (arrow [] name)]]]),
    statement (arrow [] (arrow [] name)),
    statement (arrow [name] (arrow [] name))]]

/-- The reference of this identity is recorded, and its resolution is as said. -/
def ResolvesAs (t : ScopeTable) (id : NodeId) (P : Resolution → Scope → Bool) : Prop :=
  ∃ n ∈ referencesOfEachKind.numbered.nodes, n.id = id ∧ n.name? = some argumentsName ∧
    (t.reference? n.id).isSome ∧
    ((resolve t n).toOption.all fun r => (t.scopes[r.scope]?).all (P r)) = true

instance (t : ScopeTable) (id : NodeId) (P : Resolution → Scope → Bool) :
    Decidable (ResolvesAs t id P) :=
  inferInstanceAs (Decidable (∃ n ∈ referencesOfEachKind.numbered.nodes, _))

/-- One reference is carried, one reported and one renamed. -/
theorem references_classified_each : ∃ t a, ofTree referencesOfEachKind.numbered = .ok t ∧
      analyze t referencesOfEachKind.numbered = .ok a ∧
      a.argumentTargets.get? (.numbered 6) = some (.numbered 2) ∧
      (∃ n x, n.id = .numbered 10 ∧ OutermostArrow referencesOfEachKind.numbered n x ∧
        a.unresolved.filter (fun u => u.reference = n.id) = [⟨x.id, n.id, n.location⟩]) ∧
      (a.renamed.get? (.numbered 15)).isSome := by
  have hrun : (do
      let t ← ofTree referencesOfEachKind.numbered
      let _ ← analyze t referencesOfEachKind.numbered
      return decide (
        (ResolvesAs t (.numbered 6) fun r s => r.arrow.isSome && r.reachesFunction t &&
          s.kind = .function && s.node = .numbered 2) ∧
        (ResolvesAs t (.numbered 10) fun r s => r.arrow.isSome && s.kind = .program) ∧
        (ResolvesAs t (.numbered 15) fun r _ => r.arrow.isSome && ! r.reachesFunction t))) =
        Except.ok true := by
    decide +kernel
  obtain ⟨t, ht, hrun⟩ := bind_ok.mp hrun
  obtain ⟨a, ha, hrun⟩ := bind_ok.mp hrun
  obtain ⟨hcarried, hreported, hrenamed⟩ := of_decide_eq_true (Except.ok.inj hrun)
  have hall := (references_classified ht ha).1
  have hclass {id : NodeId} {P : Resolution → Scope → Bool} (h : ResolvesAs t id P) :
      ∃ n ∈ referencesOfEachKind.numbered.nodes, ∃ r s, n.id = id ∧ n.name? = some argumentsName ∧
        resolve t n = .ok r ∧ P r s = true ∧ Classified referencesOfEachKind.numbered t a n r s := by
    obtain ⟨n, hn, hid, hname, hrecorded, hP⟩ := h
    obtain ⟨r, s, hr, hs, hclassified⟩ := hall n hn hname hrecorded
    refine ⟨n, hn, r, s, hid, hname, hr, ?_, hclassified⟩
    rw [hr] at hP
    change (t.scopes[r.scope]?).all (P r) = true at hP
    rwa [hs] at hP
  refine ⟨t, a, ht, ha, ?_, ?_, ?_⟩
  · obtain ⟨n, -, r, s, hid, -, -, hP, hclassified⟩ := hclass hcarried
    simp only [Bool.and_eq_true, decide_eq_true_eq] at hP
    rw [← hid]
    exact (hclassified.carried _).mpr ⟨⟨hP.1.1.1, hP.1.1.2, hP.1.2⟩, hP.2.symm⟩
  · obtain ⟨n, -, r, s, hid, -, -, hP, hclassified⟩ := hclass hreported
    simp only [Bool.and_eq_true, decide_eq_true_eq] at hP
    obtain ⟨x, houter, hfilter⟩ := hclassified.reportedOnce hP.1 hP.2
    exact ⟨n, x, hid, houter, hfilter⟩
  · obtain ⟨n, hn, r, s, hid, hname, hr, hP, hclassified⟩ := hclass hrenamed
    simp only [Bool.and_eq_true, Bool.not_eq_true'] at hP
    rw [← hid]
    exact hclassified.renamed.mpr ⟨hP.2, .inl ⟨n, hn, hname, r, hr, rfl, hP.1⟩⟩

end Lowering

end ArrowFree
