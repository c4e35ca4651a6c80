import ArrowFree.Proofs.HiddenVariables
import ArrowFree.Proofs.Names

/-!
# What the analysis records of `arguments`

A reference is carried past arrows only if a function provides it (`ProvidedBy`), and that function has a
generated name. Of the references to `arguments` those that an arrow lies in front of are carried,
renamed or reported; the others keep their name unless their variable is hidden
(`unreplaced_reference`).
-/

namespace ArrowFree.Lowering

open ArrowFree.Tree ScopeTable List

variable {name name' : Text} {root n : Tree} {r : Resolution} {s : Scope} {i : Nat}

/-! ## Generated names -/

theorem Generated.eq {target : Tree} (h : Generated target name) (h' : Generated target name') :
    name = name' := by
  obtain ⟨taken, htaken, rfl⟩ := h
  obtain ⟨taken', htaken', rfl⟩ := h'
  rw [Except.ok.inj (htaken.symm.trans htaken')]

/-- The name is the one that is generated for the node of this identity. -/
def GeneratedFor (root : Tree) (id : NodeId) (name : Text) : Prop :=
  ∃ n ∈ root.nodes, n.id = id ∧ Generated n name

theorem GeneratedFor.eq (hd : root.Distinct) {id : NodeId} (h : GeneratedFor root id name)
    (h' : GeneratedFor root id name') : name = name' := by
  obtain ⟨n, hn, hid, hname⟩ := h
  obtain ⟨n', hn', hid', hname'⟩ := h'
  obtain rfl : n = n' := hd.node_eq hn hn' (hid.trans hid'.symm)
  exact hname.eq hname'

theorem GeneratedFor.ne (hd : root.Distinct) {m : Tree} {other : Text} (h : GeneratedFor root n.id name)
    (hn : n ∈ root.nodes) (hm : m ∈ n.nodes) (hother : m.name? = some other) : other ≠ name := by
  obtain ⟨n', hn', hid, hname⟩ := h
  obtain rfl : n' = n := hd.node_eq hn' hn hid
  exact hname.ne hm hother

/-- The names given so far. -/
def Naming (root : Tree) (names : NodeMap Text) : Prop :=
  ∀ id name, names.get? id = some name → GeneratedFor root id name

theorem Naming.nameFor {names names' : NodeMap Text} (h : Naming root names) (hn : n ∈ root.nodes)
    (hname : nameFor baseName names n = (names', .ok name)) :
    Naming root names' ∧ GeneratedFor root n.id name := by
  unfold Lowering.nameFor at hname
  cases hget : names.get? n.id with
  | some name' =>
    rw [hget] at hname
    obtain ⟨rfl, heq⟩ := Prod.mk.inj hname
    obtain rfl := Except.ok.inj heq
    exact ⟨h, h _ _ hget⟩
  | none =>
    rw [hget] at hname
    cases htaken : identifierNames n with
    | error f =>
      rw [htaken] at hname
      cases (Prod.mk.inj hname).2
    | ok taken =>
      rw [htaken] at hname
      obtain ⟨rfl, heq⟩ := Prod.mk.inj hname
      obtain ⟨-, -, rfl⟩ := map_ok.mp heq
      have hnew : GeneratedFor root n.id (freshName baseName taken) := ⟨n, hn, rfl, taken, htaken, rfl⟩
      refine ⟨fun id name hid => ?_, hnew⟩
      rw [NodeMap.get?_set] at hid
      split at hid
      · rename_i heq
        rw [heq, ← Option.some.inj hid]
        exact hnew
      · exact h id name hid

/-! ## Provided references -/

/-- The function whose arguments a reference to `arguments` means. -/
def ProvidedBy (t : ScopeTable) (f : NodeId) (ref : Reference) : Prop :=
  ref ∈ t.references ∧ ref.name = some argumentsName ∧
    ∃ r s, resolveFrom t ref.scope = .ok r ∧ r.reachesFunction t = true ∧
      t.scopes[r.scope]? = some s ∧ s.kind = .function ∧ s.node = f ∧ r.arrow.isSome

/-- What is recorded once these arrows have been looked at. -/
structure Provided (root : Tree) (t : ScopeTable) (arrows : List Tree) (a : Analysis) : Prop where
  names : Naming root a.names
  targets : ∀ d f, a.argumentTargets.get? d = some f →
    ∃ ref, ref.identifier = d ∧ ProvidedBy t f ref ∧ (a.hoistedNames.get? f).isSome
  hoisted : ∀ f name, a.hoistedNames.get? f = some name →
    (∃ ref, ProvidedBy t f ref) ∧ GeneratedFor root f name
  collected : ∀ arrow ∈ arrows, ∃ refs, collectReferences t arrow = .ok refs ∧
    ∀ d ∈ refs.map Tree.id,
      (a.argumentTargets.get? d).isSome ∨ d ∈ a.unresolved.map Unresolved.reference

theorem kind_of_reaches {t : ScopeTable} (hreach : r.reachesFunction t = true)
    (hs : t.scopes[r.scope]? = some s) (hkind : s.kind ≠ .program) : s.kind = .function := by
  unfold Resolution.reachesFunction at hreach
  rw [hs] at hreach
  cases hk : s.kind with
  | program => exact absurd hk hkind
  | function => rfl
  | arrow => simp [Scope.isTransparent, hk] at hreach
  | block => simp [Scope.isTransparent, hk] at hreach

section

variable {root arrow : Tree} {t : ScopeTable} (hd : root.Distinct) (h : t.Outlined root.places)
  {a : Analysis}
include hd h

theorem find?_node (hs : t.scopes[i]? = some s) (hkind : s.kind ≠ .program) :
    ∃ n ∈ root.nodes, n.id = s.node ∧ root.find? s.node = some n := by
  obtain ⟨p, hp, -, hid, -⟩ := h.opener hs hkind
  have hn := node_mem_nodes hp
  exact ⟨p.node, hn, hid, hid ▸ hd.find?_id hn⟩

/-- What an arrow collects is provided by the function that owns the arrow. -/
theorem provided_of_collected {refs : List Tree} {target : NodeId} (hmem : arrow ∈ root.nodes)
    (hisArrow : arrow.isArrow) (hrefs : collectReferences t arrow = .ok refs)
    (htarget : hoistTarget t arrow = .ok (some target)) (hn : n ∈ refs) :
    ∃ ref, ref.identifier = n.id ∧ ProvidedBy t target ref := by
  obtain ⟨ref, href, hid, hargs, r, s, hr, hreach, hs, heq, harrow⟩ :=
    target_of_collected hd h hmem hisArrow hrefs htarget hn
  have hkind : s.kind ≠ .program := fun hp => by simp [hp] at heq
  rw [if_neg hkind] at heq
  exact ⟨ref, hid, href, hargs, r, s, hr, hreach, hs, kind_of_reaches hreach hs hkind,
    (Option.some.inj heq).symm, harrow⟩

theorem Provided.step {arrows : List Tree} {a' : Analysis} (hc : Provided root t arrows a)
    (hmem : arrow ∈ root.nodes) (hisArrow : arrow.isArrow) (hstep : Analysis.addArrow root t a arrow = .ok a') :
    Provided root t (arrows ++ [arrow]) a' := by
  obtain ⟨refs, hrefs, -, -, hcases⟩ := addArrow_ok hstep
  -- What was collected before stays, and what this arrow collects is dealt with below.
  have hcollect : (∀ d, (a.argumentTargets.get? d).isSome → (a'.argumentTargets.get? d).isSome) →
      a.unresolved.map Unresolved.reference ⊆ a'.unresolved.map Unresolved.reference →
      (∀ d ∈ refs.map Tree.id,
        (a'.argumentTargets.get? d).isSome ∨ d ∈ a'.unresolved.map Unresolved.reference) →
      ∀ x ∈ arrows ++ [arrow], ∃ refs', collectReferences t x = .ok refs' ∧ ∀ d ∈ refs'.map Tree.id,
        (a'.argumentTargets.get? d).isSome ∨ d ∈ a'.unresolved.map Unresolved.reference := by
    intro htargets hunresolved hhere x hx
    rcases mem_append.mp hx with hx | hx
    · obtain ⟨refs', hrefs', hall⟩ := hc.collected x hx
      exact ⟨refs', hrefs', fun d hd' => (hall d hd').imp (htargets d) (hunresolved ·)⟩
    · rw [mem_singleton.mp hx]
      exact ⟨refs, hrefs, hhere⟩
  rcases hcases with ⟨rfl, htargets, hhoisted, hnames, hunresolved⟩ |
    ⟨-, htargets, hhoisted, hnames, hunresolved, -⟩ |
    ⟨target, name, hne, htarget, hname, htargets, hhoisted, hunresolved⟩
  · refine ⟨hnames ▸ hc.names, ?_, hhoisted ▸ hc.hoisted, hcollect ?_ ?_ (by simp)⟩
    · rw [htargets, hhoisted]
      exact hc.targets
    · exact fun d hd' => htargets ▸ hd'
    · rw [hunresolved]
      exact List.Subset.refl _
  · refine ⟨hnames ▸ hc.names, ?_, hhoisted ▸ hc.hoisted, hcollect ?_ ?_ ?_⟩
    · rw [htargets, hhoisted]
      exact hc.targets
    · exact fun d hd' => htargets ▸ hd'
    · exact fun d hd' => (hunresolved d).mpr (Or.inl hd')
    · exact fun d hd' => Or.inr ((hunresolved d).mpr (Or.inr hd'))
  · have hprovided : ∀ n ∈ refs, ∃ ref, ref.identifier = n.id ∧ ProvidedBy t target ref :=
      fun n hn => provided_of_collected hd h hmem hisArrow hrefs htarget hn
    obtain ⟨n, hn⟩ := exists_mem_of_ne_nil refs hne
    obtain ⟨ref, -, href⟩ := hprovided n hn
    obtain ⟨-, -, r, s, -, -, hs, hkind, hnode, -⟩ := href
    obtain ⟨f, hf, hfid, hfind⟩ := find?_node hd h hs (by rw [hkind]; nofun)
    rw [← hnode, hfind, Option.getD_some] at hname
    obtain ⟨hnaming, hgenerated⟩ := hc.names.nameFor hf hname
    rw [hfid, hnode] at hgenerated
    refine ⟨hnaming, fun d g hg => ?_, fun g name' hg => ?_, hcollect ?_ ?_ ?_⟩
    · rw [htargets, NodeMap.get?_setAll] at hg
      rw [hhoisted, NodeMap.get?_set]
      split at hg
      · rename_i hin
        obtain ⟨m, hm, rfl⟩ := mem_map.mp hin
        obtain ⟨ref, hid, href⟩ := hprovided m hm
        obtain rfl := Option.some.inj hg
        exact ⟨ref, hid, href, by simp⟩
      · obtain ⟨ref, hid, href, hsome⟩ := hc.targets d g hg
        refine ⟨ref, hid, href, ?_⟩
        split
        · rfl
        · exact hsome
    · rw [hhoisted, NodeMap.get?_set] at hg
      split at hg
      · rename_i heq
        obtain rfl := Option.some.inj hg
        obtain ⟨ref, -, href⟩ := hprovided n hn
        rw [heq]
        exact ⟨⟨ref, href⟩, hgenerated⟩
      · exact hc.hoisted g name' hg
    · intro d hd'
      rw [htargets, NodeMap.get?_setAll]
      split
      · rfl
      · exact hd'
    · rw [hunresolved]
      exact List.Subset.refl _
    · intro d hd'
      rw [htargets, NodeMap.get?_setAll, if_pos hd']
      exact Or.inl rfl

/-! ## The whole analysis -/

/-- What is recorded of `arguments`, with the hidden variables. -/
structure Recorded (root : Tree) (t : ScopeTable) (hidden : List (Nat × List NodeId)) (a : Analysis) :
    Prop where
  provided : Provided root t (root.nodes.filter Tree.isArrow) a
  renamed : ∀ d name, a.renamed.get? d = some name → ∃ x ∈ hidden, d ∈ x.2 ∧
    ∃ s, t.scopes[x.1]? = some s ∧ GeneratedFor root s.node name
  complete : ∀ x ∈ hidden, ∀ d ∈ x.2, (a.renamed.get? d).isSome

/-- **The analysis of `arguments`.** -/
theorem recorded_of_analyze (ha : analyze t root = .ok a) :
    ∃ hidden, hiddenBindings t = .ok hidden ∧ Recorded root t hidden a := by
  obtain ⟨b, hidden, hb, hhidden, ha⟩ := analyze_ok ha
  refine ⟨hidden, hhidden, ?_⟩
  obtain ⟨hprovided, hempty⟩ : Provided root t (root.nodes.filter Tree.isArrow) b ∧ b.renamed = {} := by
    refine foldlM_invariant (P := fun ys c => Provided root t ys c ∧ c.renamed = {}) hb
      ⟨⟨nofun, nofun, nofun, nofun⟩, rfl⟩ fun {ys x c c'} hys hc hstep => ?_
    have hx : x ∈ root.nodes.filter Tree.isArrow := hys.subset (by simp)
    obtain ⟨hmem, hisArrow⟩ := mem_filter.mp hx
    obtain ⟨-, -, -, hrenamed, -⟩ := addArrow_ok hstep
    exact ⟨hc.1.step hd h hmem hisArrow hstep, hrenamed.trans hc.2⟩
  refine foldlM_invariant (P := fun ys c => Recorded root t ys c) ha
    ⟨hprovided, fun d name hget => ?_, nofun⟩ fun {ys x c c'} hys hc hstep => ?_
  · rw [hempty] at hget
    cases hget
  · have hx : (x.1, x.2) ∈ hidden := hys.subset (by simp)
    obtain ⟨s, v, hlex, -⟩ := mem_hidden h hhidden hx
    obtain ⟨n, hn, hid, hfind⟩ := find?_node hd h hlex.scope hlex.kind
    obtain ⟨name, hname, heq⟩ := addHidden_ok hstep
    rw [hlex.scope, Option.bind_some, hfind, Option.getD_some] at hname
    obtain ⟨hnaming, hgenerated⟩ := hc.provided.names.nameFor hn hname
    rw [hid] at hgenerated
    have hrenamed : c'.renamed = c.renamed.setAll x.2 name := congrArg Analysis.renamed heq
    refine ⟨?_, fun d name' hget => ?_, fun y hy d hd' => ?_⟩
    · rw [heq]
      exact ⟨hnaming, hc.provided.targets, hc.provided.hoisted, hc.provided.collected⟩
    · rw [hrenamed, NodeMap.get?_setAll] at hget
      split at hget
      · obtain rfl := Option.some.inj hget
        exact ⟨x, by simp, ‹_›, s, hlex.scope, hgenerated⟩
      · obtain ⟨y, hy, hrest⟩ := hc.renamed d name' hget
        exact ⟨y, mem_append_left _ hy, hrest⟩
    · rw [hrenamed, NodeMap.get?_setAll]
      split
      · rfl
      · rename_i hnot
        rcases mem_append.mp hy with hy | hy
        · exact hc.complete y hy d hd'
        · exact absurd (mem_singleton.mp hy ▸ hd') hnot

end

/-! ## Declarations and references -/

section

variable {root : Tree} {t : ScopeTable} {hidden : List (Nat × List NodeId)} {a : Analysis}

theorem Lexical.mem_identifiers (h : t.Outlined root.places) {b : Binding} (hlex : Lexical t i s b)
    (d : NodeId) :
    d ∈ b.identifiers ↔
      ∃ e ∈ t.declarationsIn root.places i, e.name = argumentsName ∧ e.identifier = d := by
  have hb := (Option.filter_eq_some_iff.mp hlex.binding).1
  rw [(h.declared i s hlex.scope).binding?] at hb
  rw [Declaration.identifiers_merged hb]
  simp [and_assoc]

/-- A tree with its table, its hidden variables and what was recorded. -/
structure Analyzed (a : Analysis) (root : Tree) (t : ScopeTable) (hidden : List (Nat × List NodeId)) :
    Prop where
  distinct : root.Distinct
  outlined : t.Outlined root.places
  additions : ∀ p ∈ root.places, p.additions = .ok p.added
  hidden_eq : hiddenBindings t = .ok hidden
  recorded : Recorded root t hidden a

theorem analyzed (hd : root.Distinct) (ht : ofTree root = .ok t) (ha : analyze t root = .ok a) :
    ∃ hidden, Analyzed a root t hidden := by
  have ho := outlined_ofTree hd ht
  obtain ⟨hidden, hhidden, hrecorded⟩ := recorded_of_analyze hd ho ha
  exact ⟨hidden, hd, ho, (ofTree_ok.mp ht).1, hhidden, hrecorded⟩

namespace Analyzed

variable (h : Analyzed a root t hidden)
variable {i : Nat} {d : Declaration}
include h

theorem replacement?_declared (hdec : d ∈ t.declarationsIn root.places i) :
    a.replacement? d.identifier = a.renamed.get? d.identifier := by
  unfold Analysis.replacement?
  cases hget : a.argumentTargets.get? d.identifier with
  | none => rfl
  | some f =>
    obtain ⟨ref, hid, href, -⟩ := h.recorded.provided.targets _ _ hget
    exact absurd hid.symm (h.outlined.declared_ne_reference h.additions h.distinct hdec href.1)

theorem renamed_declaration (hdec : d ∈ t.declarationsIn root.places i)
    (hname : a.replacement? d.identifier = some name) :
    d.name = argumentsName ∧ ∃ ids s, (i, ids) ∈ hidden ∧ t.scopes[i]? = some s ∧
      GeneratedFor root s.node name := by
  rw [h.replacement?_declared hdec] at hname
  obtain ⟨⟨j, ids⟩, hj, hids, s, hs, hgenerated⟩ := h.recorded.renamed _ _ hname
  obtain ⟨s', b, hlex, hmem⟩ := mem_hidden h.outlined h.hidden_eq hj
  rcases (hmem d.identifier).mp hids with hin | ⟨ref, href, -, hid, -⟩
  · obtain ⟨e, he, hargs, hid⟩ := (hlex.mem_identifiers h.outlined d.identifier).mp hin
    obtain ⟨rfl, hsame⟩ := declared_once h.additions h.distinct hdec he hid.symm
    exact ⟨hsame.trans hargs, ids, s, hj, hs, hgenerated⟩
  · exact absurd hid.symm (h.outlined.declared_ne_reference h.additions h.distinct hdec href)

theorem hidden_declaration {ids : List NodeId} (hi : (i, ids) ∈ hidden) (hdec : d ∈ t.declarationsIn root.places i)
    (hargs : d.name = argumentsName) :
    ∃ name s, a.replacement? d.identifier = some name ∧ t.scopes[i]? = some s ∧
      GeneratedFor root s.node name := by
  obtain ⟨s, b, hlex, hmem⟩ := mem_hidden h.outlined h.hidden_eq hi
  have hin := (hmem d.identifier).mpr
    (Or.inl ((hlex.mem_identifiers h.outlined d.identifier).mpr ⟨d, hdec, hargs, rfl⟩))
  obtain ⟨name, hname⟩ := Option.isSome_iff_exists.mp (h.recorded.complete _ hi _ hin)
  rw [← h.replacement?_declared hdec] at hname
  obtain ⟨-, -, s', -, hs', hgenerated⟩ := h.renamed_declaration hdec hname
  exact ⟨name, s', hname, hs', hgenerated⟩

section

variable {ref : Reference} (href : ref ∈ t.references)
include href

/-- A carried reference is carried from the function that provides it. -/
theorem carried_reference {f : NodeId} (hf : a.argumentTargets.get? ref.identifier = some f) :
    ProvidedBy t f ref ∧ ∃ name, a.hoistedNames.get? f = some name ∧ GeneratedFor root f name := by
  obtain ⟨ref', hid, hprovided, hsome⟩ := h.recorded.provided.targets _ _ hf
  obtain rfl := h.outlined.reference_eq h.distinct hprovided.1 href hid
  obtain ⟨name, hname⟩ := Option.isSome_iff_exists.mp hsome
  exact ⟨hprovided, name, hname, (h.recorded.provided.hoisted f name hname).2⟩

theorem renamed_reference (hname : a.renamed.get? ref.identifier = some name) :
    ref.name = some argumentsName ∧ ∃ r ids s, resolveFrom t ref.scope = .ok r ∧
      (r.scope, ids) ∈ hidden ∧ t.scopes[r.scope]? = some s ∧ GeneratedFor root s.node name := by
  obtain ⟨⟨i, ids⟩, hi, hids, s, hs, hgenerated⟩ := h.recorded.renamed _ _ hname
  obtain ⟨s', b, hlex, hmem⟩ := mem_hidden h.outlined h.hidden_eq hi
  rcases (hmem ref.identifier).mp hids with hin | ⟨ref', href', hargs, hid, r, hr, rfl⟩
  · obtain ⟨e, he, -, hid⟩ := (hlex.mem_identifiers h.outlined _).mp hin
    exact absurd hid (h.outlined.declared_ne_reference h.additions h.distinct he href)
  · obtain rfl := h.outlined.reference_eq h.distinct href' href hid
    exact ⟨hargs, r, ids, s, hr, hi, hs, hgenerated⟩

/-- **A reference that keeps its name** lies behind no arrow, and its variable is not hidden. -/
theorem unreplaced_reference (hname : ref.name = some argumentsName)
    (hnone : a.replacement? ref.identifier = none)
    (hresolved : ref.identifier ∉ a.unresolved.map Unresolved.reference)
    (hr : resolveFrom t ref.scope = .ok r) : r.arrow = none ∧ ∀ ids, (r.scope, ids) ∉ hidden := by
  have htarget : a.argumentTargets.get? ref.identifier = none := by
    cases hf : a.argumentTargets.get? ref.identifier with
    | none => rfl
    | some f =>
      obtain ⟨-, name, hhoisted, -⟩ := h.carried_reference href hf
      rw [Analysis.replacement?, hf] at hnone
      cases hhoisted.symm.trans hnone
  have hrenamed : a.renamed.get? ref.identifier = none := by
    rwa [Analysis.replacement?, htarget] at hnone
  have hvisible : ∀ ids, (r.scope, ids) ∉ hidden := by
    intro ids hin
    obtain ⟨s, b, -, hmem⟩ := mem_hidden h.outlined h.hidden_eq hin
    have hids := (hmem ref.identifier).mpr (Or.inr ⟨ref, href, hname, rfl, r, hr, rfl⟩)
    have hsome := h.recorded.complete _ hin _ hids
    rw [hrenamed] at hsome
    cases hsome
  refine ⟨?_, hvisible⟩
  cases harrow : r.arrow with
  | none => rfl
  | some arrow =>
    cases hreach : r.reachesFunction t with
    | true =>
      obtain ⟨x, hx, hisArrow, hcollected⟩ :=
        collected_of_reference h.distinct h.outlined href hname hr harrow hreach
      obtain ⟨refs, hrefs, hall⟩ :=
        h.recorded.provided.collected x (mem_filter.mpr ⟨hx, hisArrow⟩)
      rcases hall _ (hcollected refs hrefs) with hsome | hin
      · rw [htarget] at hsome
        cases hsome
      · exact absurd hin hresolved
    | false =>
      obtain ⟨ids, hin⟩ := hidden_of_arrow h.outlined h.hidden_eq href hname hr hreach
        (by rw [harrow]; rfl)
      exact absurd hin (hvisible ids)

end

end Analyzed

end

end ArrowFree.Lowering
