import ArrowFree.Lowering.Analysis
import ArrowFree.Proofs.Additions
import ArrowFree.Proofs.Numbering

/-!
# What the analysis records

The analysis is a fold over the arrows of a tree, followed by a fold over its hidden variables. One lemma
says what one arrow adds (`addArrow_ok`) and one what a hidden variable adds (`addHidden_ok`); from them
follows what the maps of the finished analysis hold.
-/

namespace ArrowFree

open List

namespace NodeMap

variable {α : Type}

theorem get?_setAll (m : NodeMap α) (ids : List NodeId) (v : α) (k : NodeId) :
    (m.setAll ids v).get? k = if k ∈ ids then some v else m.get? k := by
  unfold setAll
  induction ids generalizing m with
  | nil => simp
  | cons id ids ih =>
    rw [foldl_cons, ih, get?_set]
    by_cases hk : k ∈ ids
    · simp [hk]
    · by_cases hid : k = id
      · simp [hid]
      · simp [hk, hid]

end NodeMap

namespace Lowering

variable {arrow : Tree}

theorem foldlM_invariant {α β : Type} {f : β → α → Except Fault β} {P : List α → β → Prop}
    {b b' : β} {xs : List α} (h : xs.foldlM f b = .ok b') (start : P [] b)
    (step : ∀ {ys x c c'}, ys ++ [x] <+: xs → P ys c → f c x = .ok c' → P (ys ++ [x]) c') :
    P xs b' := by
  have go : ∀ zs ys c, ys ++ zs = xs → P ys c → zs.foldlM f c = .ok b' → P xs b' := by
    intro zs
    induction zs with
    | nil =>
      intro ys c hxs hc hf
      rw [append_nil] at hxs
      obtain rfl := Except.ok.inj hf
      exact hxs ▸ hc
    | cons z zs ih =>
      intro ys c hxs hc hf
      rw [foldlM_cons] at hf
      obtain ⟨c', hc', hf⟩ := bind_ok.mp hf
      have hsplit : (ys ++ [z]) ++ zs = xs := by rw [← hxs, append_assoc]; rfl
      exact ih (ys ++ [z]) c' hsplit (step ⟨zs, hsplit⟩ hc hc') hf
  exact go xs [] b rfl start h

variable {root : Tree} {scopes : ScopeTable} {a a' : Analysis}

/-! ## One step -/

theorem withName_ok {target : Tree} {name : Text} (h : a.withName target = .ok (a', name)) :
    ∃ names, nameFor baseName a.names target = (names, .ok name) ∧ a' = { a with names := names } := by
  unfold Analysis.withName at h
  split at h
  · rename_i names name' heq
    obtain ⟨rfl, rfl⟩ := Prod.mk.inj (Except.ok.inj h)
    exact ⟨names, heq, rfl⟩
  · cases h

/-- The references that are recorded already are left out. -/
def newReferences (us : List Unresolved) (refs : List Tree) : List Tree :=
  refs.filter fun n => n.id ∉ us.map Unresolved.reference

theorem addUnresolved_eq (a : Analysis) (arrow : NodeId) (refs : List Tree) :
    ∃ us, a.addUnresolved arrow refs = { a with unresolved := us } ∧
      (∀ d, d ∈ us.map Unresolved.reference ↔
        d ∈ a.unresolved.map Unresolved.reference ∨ d ∈ refs.map Tree.id) ∧
      ((refs.map Tree.id).Nodup → us = a.unresolved ++
        (newReferences a.unresolved refs).map fun n => ⟨arrow, n.id, n.location⟩) := by
  unfold Analysis.addUnresolved newReferences
  induction refs generalizing a with
  | nil => exact ⟨a.unresolved, rfl, by simp, by simp⟩
  | cons x refs ih =>
    rw [foldl_cons]
    by_cases hx : (a.unresolved.any fun u => u.reference = x.id) = true
    · rw [if_pos hx]
      obtain ⟨us, heq, hus, hlist⟩ := ih a
      have hin : x.id ∈ a.unresolved.map Unresolved.reference := by
        obtain ⟨u, hu, hid⟩ := any_eq_true.mp hx
        exact mem_map.mpr ⟨u, hu, by simpa using hid⟩
      refine ⟨us, heq, fun d => ?_, fun hnodup => ?_⟩
      · rw [hus, map_cons, mem_cons]
        constructor
        · rintro (h | h)
          · exact Or.inl h
          · exact Or.inr (Or.inr h)
        · rintro (h | rfl | h)
          · exact Or.inl h
          · exact Or.inl hin
          · exact Or.inr h
      · rw [filter_cons_of_neg (by simpa using hin)]
        exact hlist (nodup_cons.mp hnodup).2
    · rw [if_neg hx]
      obtain ⟨us, heq, hus, hlist⟩ :=
        ih { a with unresolved := a.unresolved ++ [⟨arrow, x.id, x.location⟩] }
      have hout : x.id ∉ a.unresolved.map Unresolved.reference := by
        rw [mem_map]
        rintro ⟨u, hu, hid⟩
        exact hx (any_eq_true.mpr ⟨u, hu, by simpa using hid⟩)
      refine ⟨us, heq, fun d => ?_, fun hnodup => ?_⟩
      · rw [hus]
        simp only [map_append, map_cons, map_nil, mem_append, mem_cons,
          not_mem_nil, or_false, or_assoc]
      · obtain ⟨hnot, hnodup⟩ := nodup_cons.mp hnodup
        rw [hlist hnodup, filter_cons_of_pos (by simpa using hout), append_assoc,
          map_cons, singleton_append]
        congr 2
        -- no reference behind is the one that was just recorded
        refine congrArg (List.map _) (filter_congr fun n hn => ?_)
        have hne : n.id ≠ x.id := fun hid => hnot (hid ▸ mem_map_of_mem hn)
        simp [hne]

theorem addArrow_ok (h : Analysis.addArrow root scopes a arrow = .ok a') :
    ∃ refs, collectReferences scopes arrow = .ok refs ∧
      a'.thisCaptures = a.thisCaptures.set arrow.id (capturesThis arrow) ∧ a'.renamed = a.renamed ∧
      ((refs = [] ∧ a'.argumentTargets = a.argumentTargets ∧ a'.hoistedNames = a.hoistedNames ∧
        a'.names = a.names ∧ a'.unresolved = a.unresolved) ∨
      (hoistTarget scopes arrow = .ok none ∧ a'.argumentTargets = a.argumentTargets ∧
        a'.hoistedNames = a.hoistedNames ∧ a'.names = a.names ∧
        (∀ d, d ∈ a'.unresolved.map Unresolved.reference ↔
          d ∈ a.unresolved.map Unresolved.reference ∨ d ∈ refs.map Tree.id) ∧
        ((refs.map Tree.id).Nodup → a'.unresolved = a.unresolved ++
          (newReferences a.unresolved refs).map fun n => ⟨arrow.id, n.id, n.location⟩)) ∨
      ∃ target name, refs ≠ [] ∧ hoistTarget scopes arrow = .ok (some target) ∧
        nameFor baseName a.names ((root.find? target).getD .null) = (a'.names, .ok name) ∧
        a'.argumentTargets = a.argumentTargets.setAll (refs.map Tree.id) target ∧
        a'.hoistedNames = a.hoistedNames.set target name ∧ a'.unresolved = a.unresolved) := by
  unfold Analysis.addArrow at h
  obtain ⟨refs, hrefs, h⟩ := bind_ok.mp h
  refine ⟨refs, hrefs, ?_⟩
  split at h
  · rename_i hempty
    obtain rfl := Except.ok.inj h
    exact ⟨rfl, rfl, Or.inl ⟨List.isEmpty_iff.mp hempty, rfl, rfl, rfl, rfl⟩⟩
  · rename_i hempty
    obtain ⟨target, htarget, h⟩ := bind_ok.mp h
    cases target with
    | none =>
      obtain rfl := Except.ok.inj h
      obtain ⟨us, heq, hus⟩ := addUnresolved_eq
        { a with thisCaptures := a.thisCaptures.set arrow.id (capturesThis arrow) } arrow.id refs
      rw [heq]
      exact ⟨rfl, rfl, Or.inr (Or.inl ⟨htarget, rfl, rfl, rfl, hus⟩)⟩
    | some target =>
      obtain ⟨⟨b, name⟩, hname, h⟩ := bind_ok.mp h
      obtain ⟨names, hfor, rfl⟩ := withName_ok hname
      obtain rfl := Except.ok.inj h
      exact ⟨rfl, rfl, Or.inr (Or.inr ⟨target, name, fun hnil => hempty (List.isEmpty_iff.mpr hnil),
        htarget, hfor, rfl, rfl, rfl⟩)⟩

theorem addHidden_ok {hidden : Nat × List NodeId}
    (h : Analysis.addHidden root scopes a hidden = .ok a') :
    ∃ name, nameFor baseName a.names
        ((scopes.scopes[hidden.1]?.bind fun s => root.find? s.node).getD .null) =
          (a'.names, .ok name) ∧
      a' = { a with names := a'.names, renamed := a.renamed.setAll hidden.2 name } := by
  unfold Analysis.addHidden at h
  obtain ⟨⟨b, name⟩, hname, h⟩ := bind_ok.mp h
  obtain ⟨names, hfor, rfl⟩ := withName_ok hname
  obtain rfl := Except.ok.inj h
  exact ⟨name, hfor, rfl⟩

theorem analyze_ok (h : analyze scopes root = .ok a) :
    ∃ b hidden, (root.nodes.filter Tree.isArrow).foldlM (Analysis.addArrow root scopes) {} = .ok b ∧
      hiddenBindings scopes = .ok hidden ∧
      hidden.foldlM (Analysis.addHidden root scopes) b = .ok a := by
  unfold analyze at h
  obtain ⟨b, hb, h⟩ := bind_ok.mp h
  obtain ⟨hidden, hhidden, h⟩ := bind_ok.mp h
  exact ⟨b, hidden, hb, hhidden, h⟩

/-! ## Captured `this` -/

/-- For each arrow the analysis knows whether it uses the `this` around it. -/
theorem capturesThis_of_analyze (hd : root.Distinct) (h : analyze scopes root = .ok a)
    (hmem : arrow ∈ root.nodes) (harrow : arrow.isArrow) : a.capturesThis arrow.id = capturesThis arrow := by
  obtain ⟨b, hidden, hb, -, ha⟩ := analyze_ok h
  have hin : ∀ {ys : List Tree}, ys <+: root.nodes.filter Tree.isArrow → ∀ n ∈ ys, n ∈ root.nodes :=
    fun hys n hn => mem_of_mem_filter (hys.subset hn)
  have hfirst : ∀ n ∈ root.nodes.filter Tree.isArrow,
      b.thisCaptures.get? n.id = some (capturesThis n) := by
    refine foldlM_invariant (P := fun ys b => ∀ n ∈ ys, b.thisCaptures.get? n.id =
      some (capturesThis n)) hb (by simp) fun {ys x c c'} hys hc hstep n hn => ?_
    obtain ⟨-, -, hcaptures, -⟩ := addArrow_ok hstep
    rw [hcaptures, NodeMap.get?_set]
    by_cases hid : n.id = x.id
    · rw [if_pos hid, hd.node_eq (hin hys n hn) (hin hys x (by simp)) hid]
    · rw [if_neg hid]
      rcases mem_append.mp hn with hn | hn
      · exact hc n hn
      · exact absurd (congrArg Tree.id (mem_singleton.mp hn)) hid
  have hsecond : a.thisCaptures = b.thisCaptures := by
    refine foldlM_invariant (P := fun _ c => c.thisCaptures = b.thisCaptures) ha rfl
      fun _ hc hstep => ?_
    obtain ⟨name, -, heq⟩ := addHidden_ok hstep
    rw [heq]
    exact hc
  unfold Analysis.capturesThis
  rw [hsecond, hfirst arrow (mem_filter.mpr ⟨hmem, harrow⟩)]
  rfl

end Lowering

end ArrowFree
