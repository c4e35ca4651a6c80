import ArrowFree.Proofs.ArgumentFacts
import ArrowFree.Proofs.LoweredScopes

/-!
# What names mean in the scopes of a lowered tree

A scope gets generated names: those of the variables that keep the arguments of functions in it, and
the new name of its hidden variable `arguments`. All other names mean in a lowered scope what they meant
before (`binding?_other`). Where each function keeps its arguments in its own scope, a scope gets at most
one name, which means the declaration that it was made for (`binding?_kept`, `binding?_hidden`).
-/

namespace ArrowFree

open List

/-- A variable under a new name: the identifiers that declare it are replaced, and so is a parameter,
which is its own declaration. -/
def Binding.renamed (b : Binding) (name : Text) : Binding :=
  ⟨name, b.type, if b.type = .parameter then .renamed b.node else b.node,
    b.identifiers.map NodeId.renamed⟩

namespace Lowering

open ArrowFree.Tree ScopeTable

variable {a : Analysis}
variable {ds ds' : List Declaration} {name : Text} {d : Declaration} {b : Binding}
  {fs : List NodeId}

/-! ## Lowered declarations -/

theorem loweredDeclaration_of_none (hnone : a.replacement? d.identifier = none)
    (hparameter : d.type = .parameter → d.node = d.identifier) : loweredDeclaration a d = d := by
  unfold loweredDeclaration Analysis.newName Analysis.newId
  rw [hnone]
  by_cases htype : d.type = .parameter
  · rw [if_pos htype, hparameter htype, hnone]
    cases d
    simp_all
  · rw [if_neg htype]
    rfl

theorem loweredDeclaration_of_some (hname : a.replacement? d.identifier = some name)
    (hparameter : d.type = .parameter → d.node = d.identifier) :
    loweredDeclaration a d = ⟨name, d.type, if d.type = .parameter then .renamed d.node else d.node,
      .renamed d.identifier⟩ := by
  unfold loweredDeclaration Analysis.newName Analysis.newId
  rw [hname]
  by_cases htype : d.type = .parameter
  · rw [if_pos htype, if_pos htype, hparameter htype, hname]
    rfl
  · rw [if_neg htype, if_neg htype]
    rfl

theorem merged_renamed (h : Declaration.merged ds = some b)
    (hname : ∀ d ∈ ds, a.replacement? d.identifier = some name ∧ (d.type = .parameter → d.node = d.identifier)) :
    Declaration.merged (ds.map (loweredDeclaration a)) = some (b.renamed name) := by
  have hids : ∀ es ⊆ ds, (es.map (loweredDeclaration a)).map Declaration.identifier =
      (es.map Declaration.identifier).map NodeId.renamed := by
    intro es hes
    rw [map_map, map_map]
    refine map_congr_left ?_
    intro d hd
    rw [Function.comp, loweredDeclaration_of_some (hname d (hes hd)).1 (hname d (hes hd)).2]
    rfl
  cases ds with
  | nil => cases h
  | cons d ds =>
    have hall := hids (d :: ds) (List.Subset.refl _)
    obtain ⟨hd, hparameter⟩ := hname d mem_cons_self
    rw [← Option.some.inj h, Binding.renamed, ← hall, map_cons,
      loweredDeclaration_of_some hd hparameter]
    rfl

theorem Interleaved.filter_lowered (h : Interleaved a ds fs ds')
    (hkept : ∀ f ∈ fs, (keptArguments a f).name ≠ name) :
    (ds'.filter fun d => d.name = name) =
      (ds.map (loweredDeclaration a)).filter fun d => d.name = name := by
  induction h with
  | nil => rfl
  | lowered d h ih =>
    rw [filter_append, ih hkept, map_append, filter_append]
    rfl
  | kept f h ih =>
    rw [filter_append, ih fun g hg => hkept g (mem_append_left _ hg),
      filter_cons_of_neg (by simpa using hkept f (by simp)), filter_nil, append_nil]

theorem Interleaved.filter_kept (h : Interleaved a ds fs ds')
    (hlowered : ∀ d ∈ ds, (loweredDeclaration a d).name ≠ name) :
    (ds'.filter fun d => d.name = name) =
      (fs.map (keptArguments a)).filter fun d => d.name = name := by
  induction h with
  | nil => rfl
  | lowered d h ih =>
    rw [filter_append, ih fun e he => hlowered e (mem_append_left _ he),
      filter_cons_of_neg (by simpa using hlowered d (by simp)), filter_nil, append_nil]
  | kept f h ih =>
    rw [filter_append, ih hlowered, map_append, filter_append]
    rfl

theorem filter_map_eq {α : Type} {f : α → α} {p : α → Bool} {xs : List α}
    (h : ∀ x ∈ xs, f x = x ∨ p (f x) = false ∧ p x = false) : (xs.map f).filter p = xs.filter p := by
  induction xs with
  | nil => rfl
  | cons x xs ih =>
    obtain ⟨hx, hxs⟩ := forall_mem_cons.mp h
    rcases hx with hx | ⟨hfx, hx⟩
    · rw [map_cons, hx, filter_cons, filter_cons, ih hxs]
    · rw [map_cons, filter_cons_of_neg (by simp [hfx]), filter_cons_of_neg (by simp [hx]),
        ih hxs]

/-! ## Both tables -/

/-- The tables of a tree and of the lowered tree, with what was recorded. -/
structure Alongside (a : Analysis) (root : Tree) (t t' : ScopeTable) (hosts : List (NodeId × Nat))
    (hidden : List (Nat × List NodeId)) : Prop extends Analyzed a root t hidden where
  functions : (hosts.map Prod.fst).Perm (hoistTargets a root)
  mirrors : Mirrors a root.places root.places hosts t t'

/-- The generated names that a scope gets. -/
def Gets (root : Tree) (hosts : List (NodeId × Nat)) (hidden : List (Nat × List NodeId)) (i : Nat)
    (s : Scope) (name : Text) : Prop :=
  (∃ f, (f, i) ∈ hosts ∧ GeneratedFor root f name) ∨
    (∃ ids, (i, ids) ∈ hidden) ∧ GeneratedFor root s.node name

namespace Alongside

variable {root : Tree} {t t' : ScopeTable} {hosts : List (NodeId × Nat)}
  {hidden : List (Nat × List NodeId)} (h : Alongside a root t t' hosts hidden) {f : NodeId}
include h

theorem mem_functions : f ∈ hosts.map Prod.fst ↔ (a.hoistedNames.get? f).isSome := by
  rw [h.functions.mem_iff]
  constructor
  · intro hf
    obtain ⟨n, hn, rfl⟩ := mem_map.mp hf
    have hn := (mem_filter.mp hn).2
    rw [Bool.and_eq_true] at hn
    exact hn.2
  · intro hf
    obtain ⟨name, hname⟩ := Option.isSome_iff_exists.mp hf
    obtain ⟨⟨ref, -, -, r, s, -, -, hs, hkind, hnode, -⟩, -⟩ := h.recorded.provided.hoisted f name hname
    obtain ⟨p, hp, hopens, hid, -⟩ := h.outlined.opener hs (by rw [hkind]; nofun)
    refine mem_map.mpr ⟨p.node, mem_filter.mpr ⟨node_mem_nodes hp, ?_⟩, hid.trans hnode⟩
    rw [Bool.and_eq_true]
    refine ⟨?_, ?_⟩
    · rcases opens?_eq_some hopens with ⟨-, hk⟩ | ⟨hordinary, -⟩ | hk
      · rw [hkind] at hk
        cases hk
      · exact hordinary
      · rw [hkind] at hk
        cases hk
    · rw [hid, hnode]
      exact hf

theorem nodup_functions : (hosts.map Prod.fst).Nodup := by
  rw [h.functions.nodup_iff]
  exact h.distinct.nodup.sublist (filter_sublist.map Tree.id)

/-- Arguments are kept in the scope of a function: the one that they belong to, or one inside it. -/
theorem host {i : Nat} (hf : (f, i) ∈ hosts) :
    ∃ s, t.scopes[i]? = some s ∧ s.kind = .function ∧
      ∃ n ∈ root.nodes, n.id = f ∧ ∃ m ∈ n.nodes, m.id = s.node := by
  obtain ⟨e, hbody, hvar, -⟩ := h.mirrors.kept _ hf
  obtain ⟨q, hq, rfl, hopens⟩ := h.mirrors.functions _ hf
  rcases hbody.variableScope? h.distinct h.outlined (List.Subset.refl _) hq hopens with
    hscope | ⟨b, hb, function, n, π, hpath, hid, hbopens, hscope⟩
  · obtain rfl : t.number q.node.id = i := by rwa [hscope] at hvar
    obtain ⟨s, hs, hkind, hnode, -⟩ := h.outlined.opened q hq .function hopens
    refine ⟨s, hs, hkind, q.node, node_mem_nodes hq, rfl, q.node, ?_, hnode.symm⟩
    exact self_mem_nodes (isNode_of_mem_places hq)
  · obtain rfl : t.number b.node.id = i := by rwa [hscope] at hvar
    obtain ⟨s, hs, hkind, hnode, -⟩ := h.outlined.opened b hb .function hbopens
    have hin := node_mem_owner_nodes hb (s := ⟨function, "body", n⟩) (by rw [hpath]; simp)
    have hclosed := h.outlined.closed b hb
    rw [hpath] at hclosed
    exact ⟨s, hs, hkind, function, node_mem_nodes hclosed.1, hid, b.node, hin, hnode.symm⟩

section

variable {i : Nat} {s s' : Scope} (hs : t.scopes[i]? = some s) (hs' : t'.scopes[i]? = some s')

include hs hs' in
theorem holds : ∃ ds', s.Holds (t.declarationsIn root.places i) ∧ s'.Holds ds' ∧
    Interleaved a (t.declarationsIn root.places i) (keptIn hosts i) ds' := by
  obtain ⟨s₁, hs₁, hb⟩ := h.mirrors.scopes i s hs
  obtain rfl : s₁ = s' := Option.some.inj (hs₁.symm.trans hs')
  obtain ⟨ds', hds', hi⟩ := hb.holds
  exact ⟨ds', h.outlined.declared i s hs, hds', hi⟩

include hs hs' in
/-- **Names that the scope does not get** mean what they meant. -/
theorem binding?_other (hfresh : ∀ new, Gets root hosts hidden i s new → new ≠ name)
    (harguments : name = argumentsName → ∀ ids, (i, ids) ∉ hidden) : s'.binding? name = s.binding? name := by
  obtain ⟨ds', hds, hds', hi⟩ := h.holds hs hs'
  have hkept : ∀ f ∈ keptIn hosts i, (keptArguments a f).name ≠ name := by
    intro f hf
    have hmem := mem_keptIn.mp hf
    obtain ⟨new, hnew⟩ := Option.isSome_iff_exists.mp
      (h.mem_functions.mp (mem_map.mpr ⟨_, hmem, rfl⟩))
    rw [keptArguments, hnew]
    exact hfresh new (Or.inl ⟨f, hmem, (h.recorded.provided.hoisted f new hnew).2⟩)
  rw [hds.binding?, hds'.binding?, hi.filter_lowered hkept]
  refine congrArg _ (filter_map_eq fun d hd => ?_)
  cases hnew : a.replacement? d.identifier with
  | none =>
    exact Or.inl (loweredDeclaration_of_none hnew (node_of_parameter h.additions hd))
  | some new =>
    obtain ⟨hargs, ids, s₁, hids, hs₁, hgenerated⟩ := h.renamed_declaration hd hnew
    rw [hs] at hs₁
    cases hs₁
    refine Or.inr ⟨?_, ?_⟩
    · rw [loweredDeclaration_of_some hnew (node_of_parameter h.additions hd)]
      simpa using hfresh new (Or.inr ⟨⟨ids, hids⟩, hgenerated⟩)
    · simpa [hargs] using fun heq => harguments heq.symm ids hids

theorem declared_ne (hs : t.scopes[i]? = some s) (hkind : s.kind ≠ .program)
    (hname : GeneratedFor root s.node name) (hdec : d ∈ t.declarationsIn root.places i) : d.name ≠ name := by
  obtain ⟨n, hn, hid, m, hm, hdname⟩ := h.outlined.identifier_of_declared h.additions hs hkind hdec
  exact GeneratedFor.ne h.distinct (hid ▸ hname) hn hm hdname

end

end Alongside

/-- The tables when each function keeps its arguments in its own scope. -/
structure SideBySide (a : Analysis) (root : Tree) (t t' : ScopeTable) (hosts : List (NodeId × Nat))
    (hidden : List (Nat × List NodeId)) : Prop extends Alongside a root t t' hosts hidden where
  own : ∀ x ∈ hosts, x.2 = t.number x.1

namespace SideBySide

variable {root : Tree} {t t' : ScopeTable} {hosts : List (NodeId × Nat)}
  {hidden : List (Nat × List NodeId)} (h : SideBySide a root t t' hosts hidden) {i : Nat}
  {s s' : Scope} (hs : t.scopes[i]? = some s) (hs' : t'.scopes[i]? = some s')
variable {f : NodeId}
include h hs

theorem mem_keptIn :
    f ∈ keptIn hosts i ↔ f ∈ hosts.map Prod.fst ∧ s.kind = .function ∧ s.node = f := by
  rw [Lowering.mem_keptIn]
  constructor
  · intro hf
    obtain ⟨s₁, hs₁, hkind, -⟩ := h.host hf
    obtain ⟨q, hq, hid, hopens⟩ := h.mirrors.functions _ hf
    obtain ⟨s₂, hs₂, -, hnode, -⟩ := h.outlined.opened q hq .function hopens
    obtain rfl : s₁ = s := Option.some.inj (hs₁.symm.trans hs)
    rw [hid, ← h.own _ hf] at hs₂
    obtain rfl : s₂ = s₁ := Option.some.inj (hs₂.symm.trans hs)
    exact ⟨mem_map.mpr ⟨_, hf, rfl⟩, hkind, hnode.trans hid⟩
  · rintro ⟨hf, hkind, rfl⟩
    obtain ⟨⟨f, j⟩, hmem, hfst⟩ := mem_map.mp hf
    obtain rfl : f = s.node := hfst
    have hj : j = t.number s.node := h.own _ hmem
    rw [hj, h.outlined.number_node hs (by rw [hkind]; nofun)] at hmem
    exact hmem

/-- A function that keeps its arguments hides no variable of that name. -/
theorem not_hidden_of_kept (hf : f ∈ keptIn hosts i) (ids : List NodeId) : (i, ids) ∉ hidden := by
  intro hi
  obtain ⟨hmem, hkind, hnode⟩ := (h.mem_keptIn hs).mp hf
  obtain ⟨name, hname⟩ := Option.isSome_iff_exists.mp (h.mem_functions.mp hmem)
  obtain ⟨⟨ref, -, -, r, s₁, hr, hreach, hs₁, hkind₁, hnode₁, -⟩, -⟩ :=
    h.recorded.provided.hoisted f name hname
  have hscope : r.scope = i := by
    rw [← h.outlined.number_node hs₁ (by rw [hkind₁]; nofun), hnode₁, ← hnode,
      h.outlined.number_node hs (by rw [hkind]; nofun)]
  obtain ⟨s₂, b, hlex, -⟩ := mem_hidden h.outlined h.hidden_eq hi
  rw [hlex.not_reaches_of hr hscope] at hreach
  cases hreach

include hs'

/-- **The variable that keeps arguments** is declared once, in the scope of the function. -/
theorem binding?_kept (hf : f ∈ keptIn hosts i) (hname : a.hoistedNames.get? f = some name) :
    s'.binding? name = some ⟨name, .variable, .made .declaratorOf f, [.made .bindingNameOf f]⟩ := by
  obtain ⟨ds', -, hds', hi⟩ := h.holds hs hs'
  obtain ⟨-, hkind, hnode⟩ := (h.mem_keptIn hs).mp hf
  have hgenerated : GeneratedFor root s.node name := by
    rw [hnode]
    exact (h.recorded.provided.hoisted f name hname).2
  have hlowered : ∀ d ∈ t.declarationsIn root.places i, (loweredDeclaration a d).name ≠ name := by
    intro d hd
    cases hnew : a.replacement? d.identifier with
    | none =>
      rw [loweredDeclaration_of_none hnew (node_of_parameter h.additions hd)]
      exact h.declared_ne hs (by rw [hkind]; nofun) hgenerated hd
    | some new =>
      obtain ⟨-, ids, -, hids, -⟩ := h.renamed_declaration hd hnew
      exact absurd hids (h.not_hidden_of_kept hs hf ids)
  have honly : keptIn hosts i = [f] := by
    have hnodup : (keptIn hosts i).Nodup := h.nodup_functions.sublist (filter_sublist.map _)
    have hperm := (perm_ext_iff_of_nodup hnodup (nodup_singleton f)).mpr
    refine perm_singleton.mp (hperm fun g => ?_)
    rw [mem_singleton]
    constructor
    · intro hg
      exact ((h.mem_keptIn hs).mp hg).2.2.symm.trans hnode
    · rintro rfl
      exact hf
  rw [hds'.binding?, hi.filter_kept hlowered, honly, map_singleton,
    filter_cons_of_pos (by simp [keptArguments, hname]), keptArguments, hname]
  rfl

/-- **A hidden variable** is found under its new name. -/
theorem binding?_hidden {ids : List NodeId} (hi : (i, ids) ∈ hidden) (hname : GeneratedFor root s.node name)
    (hb : s.ownArguments? = some b) : s'.binding? name = some (b.renamed name) := by
  obtain ⟨ds', hds, hds', hinterleaved⟩ := h.holds hs hs'
  obtain ⟨s₁, b₁, hlex, -⟩ := mem_hidden h.outlined h.hidden_eq hi
  obtain rfl : s₁ = s := Option.some.inj (hlex.scope.symm.trans hs)
  have hnone : keptIn hosts i = [] := by
    refine eq_nil_iff_forall_not_mem.mpr ?_
    intro f hf
    exact h.not_hidden_of_kept hs hf ids hi
  have hrenamed : ∀ d ∈ t.declarationsIn root.places i, d.name = argumentsName →
      a.replacement? d.identifier = some name := by
    intro d hd hargs
    obtain ⟨new, s₂, hnew, hs₂, hgenerated⟩ := h.hidden_declaration hi hd hargs
    rw [hs] at hs₂
    cases hs₂
    rw [hnew, hgenerated.eq h.distinct hname]
  have hsame : ∀ d ∈ t.declarationsIn root.places i,
      ((loweredDeclaration a d).name = name ↔ d.name = argumentsName) := by
    intro d hd
    cases hnew : a.replacement? d.identifier with
    | none =>
      rw [loweredDeclaration_of_none hnew (node_of_parameter h.additions hd)]
      refine ⟨fun heq => absurd heq (h.declared_ne hs hlex.kind hname hd), fun hargs => ?_⟩
      rw [hrenamed d hd hargs] at hnew
      cases hnew
    | some new =>
      obtain ⟨hargs, -⟩ := h.renamed_declaration hd hnew
      obtain rfl := Option.some.inj (hnew.symm.trans (hrenamed d hd hargs))
      rw [loweredDeclaration_of_some hnew (node_of_parameter h.additions hd)]
      exact ⟨fun _ => hargs, fun _ => rfl⟩
  have hfilter : (((t.declarationsIn root.places i).map (loweredDeclaration a)).filter
      fun d => d.name = name) = ((t.declarationsIn root.places i).filter
        fun d => d.name = argumentsName).map (loweredDeclaration a) := by
    rw [filter_map]
    exact congrArg _ (filter_congr fun d hd => decide_eq_decide.mpr (hsame d hd))
  have hbinding := (Option.filter_eq_some_iff.mp hb).1
  rw [hds.binding?] at hbinding
  rw [hds'.binding?, hinterleaved.filter_lowered (by simp [hnone]), hfilter]
  refine merged_renamed hbinding ?_
  intro d hd
  obtain ⟨hd, hargs⟩ := mem_filter.mp hd
  exact ⟨hrenamed d hd (by simpa using hargs), node_of_parameter h.additions hd⟩

end SideBySide

end Lowering

end ArrowFree
