import ArrowFree.Proofs.Analyzable
import ArrowFree.Proofs.Strictness

/-!
# What an analysis holds

The analysis fills its maps arrow by arrow. What they hold in the end can be said without that order: a
reference is carried from a function exactly if the function provides it (`argumentTargets_iff`), a function
has a variable for its arguments exactly if it provides some reference (`hoistedNames_iff`), and an
identifier is renamed exactly if it names a hidden variable (`renamed_iff`). Every node that was given a name
can be named in any analysis (`nameable_of_analyze`).
-/

namespace ArrowFree.Lowering

open ArrowFree.Tree ScopeTable List

variable {name : Text}

/-! ## Nodes that were named -/

/-- The nodes that have a name can be named. -/
def AllNameable (root : Tree) (names : NodeMap Text) : Prop :=
  ∀ m ∈ root.nodes, (names.get? m.id).isSome → Nameable m

theorem mem_or_null (root : Tree) (id : NodeId) :
    (root.find? id).getD .null ∈ root.nodes ∨ (root.find? id).getD .null = .null := by
  cases hfind : root.find? id with
  | none => exact .inr rfl
  | some m => exact .inl (mem_of_find?_eq_some hfind)

section

variable {root : Tree} (hd : root.Distinct)
include hd

theorem AllNameable.nameFor {names names' : NodeMap Text} (h : AllNameable root names) {n : Tree}
    (hn : n ∈ root.nodes ∨ n = .null) (hname : nameFor baseName names n = (names', .ok name)) :
    AllNameable root names' ∧ (n ∈ root.nodes → Nameable n) := by
  unfold Lowering.nameFor at hname
  cases hget : names.get? n.id with
  | some name' =>
    rw [hget] at hname
    obtain ⟨rfl, -⟩ := Prod.mk.inj hname
    exact ⟨h, fun hmem => h n hmem (by rw [hget]; rfl)⟩
  | none =>
    rw [hget] at hname
    cases htaken : identifierNames n with
    | error f =>
      rw [htaken] at hname
      cases (Prod.mk.inj hname).2
    | ok taken =>
      rw [htaken] at hname
      obtain ⟨rfl, heq⟩ := Prod.mk.inj hname
      obtain ⟨x, hx, -⟩ := map_ok.mp heq
      have hnameable : Nameable n := ⟨⟨taken, htaken⟩, x, hx⟩
      refine ⟨fun m hm hsome => ?_, fun _ => hnameable⟩
      rw [NodeMap.get?_set] at hsome
      split at hsome
      · rename_i hid
        rcases hn with hn | rfl
        · exact hd.node_eq hm hn hid ▸ hnameable
        · obtain ⟨k, hk⟩ := hd.numbered m hm
          cases hk.symm.trans hid
      · exact h m hm hsome

variable {t : ScopeTable} {a : Analysis}

theorem nameable_of_analyze (ha : analyze t root = .ok a) :
    (∀ m ∈ root.nodes, (a.hoistedNames.get? m.id).isSome → Nameable m) ∧
      ∃ hidden, hiddenBindings t = .ok hidden ∧
        ∀ x ∈ hidden, ∀ s, t.scopes[x.1]? = some s → ∀ m ∈ root.nodes, m.id = s.node → Nameable m := by
  obtain ⟨b, hidden, hb, hhidden, ha⟩ := analyze_ok ha
  have hfound : ∀ {m id}, m ∈ root.nodes → m.id = id → (root.find? id).getD .null = m := by
    rintro m _ hm rfl
    rw [hd.find?_id hm]
    rfl
  have harrows : AllNameable root b.names ∧
      ∀ m ∈ root.nodes, (b.hoistedNames.get? m.id).isSome → Nameable m := by
    refine foldlM_invariant (P := fun _ c => AllNameable root c.names ∧
      ∀ m ∈ root.nodes, (c.hoistedNames.get? m.id).isSome → Nameable m) hb ⟨nofun, nofun⟩
      fun {ys x c c'} _ hc hstep => ?_
    obtain ⟨refs, -, -, -, hcases⟩ := addArrow_ok hstep
    rcases hcases with ⟨-, -, hhoisted, hnames, -⟩ | ⟨-, -, hhoisted, hnames, -⟩ |
      ⟨target, name, -, -, hname, -, hhoisted, -⟩
    · rwa [hnames, hhoisted]
    · rwa [hnames, hhoisted]
    · obtain ⟨hall, hnew⟩ := hc.1.nameFor hd (mem_or_null root target) hname
      refine ⟨hall, fun m hm hsome => ?_⟩
      rw [hhoisted, NodeMap.get?_set] at hsome
      split at hsome
      · rename_i hid
        have hm' := hfound hm hid
        exact hm' ▸ hnew (hm' ▸ hm)
      · exact hc.2 m hm hsome
  have hhoisted : a.hoistedNames = b.hoistedNames := by
    refine foldlM_invariant (P := fun _ c => c.hoistedNames = b.hoistedNames) ha rfl
      fun _ hc hstep => ?_
    obtain ⟨name, -, heq⟩ := addHidden_ok hstep
    rw [heq]
    exact hc
  refine ⟨hhoisted ▸ harrows.2, hidden, hhidden, ?_⟩
  refine (foldlM_invariant (P := fun ys c => AllNameable root c.names ∧ ∀ x ∈ ys, ∀ s,
    t.scopes[x.1]? = some s → ∀ m ∈ root.nodes, m.id = s.node → Nameable m) ha ⟨harrows.1, nofun⟩
    fun {ys x c c'} _ hc hstep => ?_).2
  obtain ⟨name, hname, -⟩ := addHidden_ok hstep
  have htarget : (t.scopes[x.1]?.bind fun s => root.find? s.node).getD .null ∈ root.nodes ∨
      (t.scopes[x.1]?.bind fun s => root.find? s.node).getD .null = .null := by
    cases t.scopes[x.1]? with
    | none => exact .inr rfl
    | some s => exact mem_or_null root s.node
  obtain ⟨hall, hnew⟩ := hc.1.nameFor hd htarget hname
  refine ⟨hall, fun y hy s hs m hm hid => ?_⟩
  rcases mem_append.mp hy with hy | hy
  · exact hc.2 y hy s hs m hm hid
  · rw [mem_singleton.mp hy] at hs
    rw [hs, Option.bind_some, hfound hm hid] at hnew
    exact hnew hm

end

/-! ## Carried references -/

section

variable {root : Tree} {t : ScopeTable} {hidden : List (Nat × List NodeId)} {a : Analysis}
  {f d : NodeId} {ref : Reference}

theorem ProvidedBy.eq {g : NodeId} (hf : ProvidedBy t f ref) (hg : ProvidedBy t g ref) : f = g := by
  obtain ⟨-, -, r, s, hr, -, hs, -, rfl, -⟩ := hf
  obtain ⟨-, -, r', s', hr', -, hs', -, rfl, -⟩ := hg
  obtain rfl : r = r' := Except.ok.inj (hr.symm.trans hr')
  obtain rfl : s = s' := Option.some.inj (hs.symm.trans hs')
  rfl

theorem ProvidedBy.resolved (h : t.Outlined root.places) (hd : root.Distinct) (ha : analyze t root = .ok a)
    (hf : ProvidedBy t f ref) : ref.identifier ∉ a.unresolved.map Unresolved.reference := by
  intro hin
  rw [unresolved_eq h hd ha, map_map] at hin
  obtain ⟨p, hp, hid⟩ := mem_map.mp hin
  obtain ⟨hp, hunprovided⟩ := mem_filter.mp hp
  obtain ⟨r, s, hresolve, hs, hkind⟩ := resolve_of_unprovided hunprovided
  obtain ⟨href, -, r', s', hr', -, hs', hkind', -⟩ := hf
  obtain ⟨ref', href', hid', hr⟩ := resolve_ok hresolve
  obtain rfl := h.reference_eq hd href' href (hid'.trans hid)
  obtain rfl : r = r' := Except.ok.inj (hr.symm.trans hr')
  obtain rfl : s = s' := Option.some.inj (hs.symm.trans hs')
  rw [hkind'] at hkind
  cases hkind

namespace Analyzed

variable (h : Analyzed a root t hidden) (ha : analyze t root = .ok a)
include h ha

/-- **Carried references** are those that a function provides past an arrow. -/
theorem argumentTargets_iff :
    a.argumentTargets.get? d = some f ↔ ∃ ref, ref.identifier = d ∧ ProvidedBy t f ref := by
  constructor
  · intro hget
    obtain ⟨ref, hid, hprovided, -⟩ := h.recorded.provided.targets d f hget
    exact ⟨ref, hid, hprovided⟩
  · rintro ⟨ref, rfl, hprovided⟩
    have hprovided' := hprovided
    obtain ⟨href, hname, r, s, hr, hreach, -, -, -, harrow⟩ := hprovided'
    obtain ⟨arrow, harrow⟩ := Option.isSome_iff_exists.mp harrow
    obtain ⟨x, hx, hisArrow, hcollected⟩ :=
      collected_of_reference h.distinct h.outlined href hname hr harrow hreach
    obtain ⟨refs, hrefs, hall⟩ := h.recorded.provided.collected x (mem_filter.mpr ⟨hx, hisArrow⟩)
    rcases hall _ (hcollected refs hrefs) with hsome | hin
    · obtain ⟨g, hg⟩ := Option.isSome_iff_exists.mp hsome
      rw [hg, (h.carried_reference href hg).1.eq hprovided]
    · exact absurd hin (hprovided.resolved h.outlined h.distinct ha)

theorem exists_hoisted (hprovided : ProvidedBy t f ref) :
    ∃ name, a.hoistedNames.get? f = some name ∧ GeneratedFor root f name :=
  (h.carried_reference hprovided.1 ((h.argumentTargets_iff ha).mpr ⟨ref, rfl, hprovided⟩)).2

/-- **The variables for arguments** belong to the functions that provide a reference. -/
theorem hoistedNames_iff :
    a.hoistedNames.get? f = some name ↔ (∃ ref, ProvidedBy t f ref) ∧ GeneratedFor root f name := by
  constructor
  · exact h.recorded.provided.hoisted f name
  · rintro ⟨⟨ref, hprovided⟩, hname⟩
    obtain ⟨name', hhoisted, hname'⟩ := h.exists_hoisted ha hprovided
    rw [hhoisted, hname'.eq h.distinct hname]

end Analyzed

/-! ## Hidden variables -/

/-- An identifier of the variable of a scope: one that declares it, or a reference to it. -/
def Names (t : ScopeTable) (i : Nat) (b : Binding) (d : NodeId) : Prop :=
  d ∈ b.identifiers ∨
    ∃ ref ∈ t.references, ref.name = some argumentsName ∧ ref.identifier = d ∧ RefersTo t i ref

/-- A variable of a scope that some reference would lose sight of, with its scope. -/
def HiddenIn (t : ScopeTable) (i : Nat) (s : Scope) (b : Binding) : Prop :=
  Lexical t i s b ∧ ConcealedBy t (t.referencesTo argumentsName) i

namespace Analyzed

variable (h : Analyzed a root t hidden)
include h

theorem names_once {i j : Nat} {s s' : Scope} {b b' : Binding} (hi : Lexical t i s b) (hj : Lexical t j s' b')
    (hd : Names t i b d) (hd' : Names t j b' d) : i = j := by
  rcases hd with hd | ⟨ref, href, -, hid, r, hr, rfl⟩
  · obtain ⟨e, he, -, rfl⟩ := (hi.mem_identifiers h.outlined d).mp hd
    rcases hd' with hd' | ⟨ref, href, -, hid, -⟩
    · obtain ⟨e', he', -, hid⟩ := (hj.mem_identifiers h.outlined _).mp hd'
      exact (declared_once h.additions h.distinct he he' hid.symm).1
    · exact absurd hid.symm (h.outlined.declared_ne_reference h.additions h.distinct he href)
  · rcases hd' with hd' | ⟨ref', href', -, hid', r', hr', rfl⟩
    · obtain ⟨e, he, -, hid'⟩ := (hj.mem_identifiers h.outlined d).mp hd'
      exact absurd (hid'.trans hid.symm)
        (h.outlined.declared_ne_reference h.additions h.distinct he href)
    · obtain rfl := h.outlined.reference_eq h.distinct href href' (hid.trans hid'.symm)
      rw [Except.ok.inj (hr.symm.trans hr')]

/-- **Renamed identifiers** are those that name a hidden variable. -/
theorem renamed_iff : a.renamed.get? d = some name ↔
      ∃ i s b, HiddenIn t i s b ∧ Names t i b d ∧ GeneratedFor root s.node name := by
  have hsound : ∀ {name}, a.renamed.get? d = some name →
      ∃ i s b, HiddenIn t i s b ∧ Names t i b d ∧ GeneratedFor root s.node name := by
    intro name hget
    obtain ⟨⟨i, ids⟩, hi, hids, s, hs, hname⟩ := h.recorded.renamed d name hget
    obtain ⟨s', b, hlex, hmem⟩ := mem_hidden h.outlined h.hidden_eq hi
    obtain rfl : s = s' := Option.some.inj (hs.symm.trans hlex.scope)
    exact ⟨i, s, b, ⟨hlex, (exists_hidden_iff h.outlined h.hidden_eq hlex).mp ⟨ids, hi⟩⟩,
      (hmem d).mp hids, hname⟩
  refine ⟨hsound, ?_⟩
  rintro ⟨i, s, b, ⟨hlex, hconcealed⟩, hd, hname⟩
  obtain ⟨ids, hi⟩ := (exists_hidden_iff h.outlined h.hidden_eq hlex).mpr hconcealed
  obtain ⟨s', b', hlex', hmem⟩ := mem_hidden h.outlined h.hidden_eq hi
  obtain rfl : s = s' := Option.some.inj (hlex.scope.symm.trans hlex'.scope)
  obtain rfl : b = b' := Option.some.inj (hlex.binding.symm.trans hlex'.binding)
  obtain ⟨name', hget⟩ := Option.isSome_iff_exists.mp (h.recorded.complete _ hi d ((hmem d).mpr hd))
  obtain ⟨j, s₁, b₁, ⟨hlex₁, -⟩, hd₁, hname₁⟩ := hsound hget
  obtain rfl := h.names_once hlex hlex₁ hd hd₁
  obtain rfl : s = s₁ := Option.some.inj (hlex.scope.symm.trans hlex₁.scope)
  rw [hget, hname₁.eq h.distinct hname]

end Analyzed

end

end ArrowFree.Lowering
