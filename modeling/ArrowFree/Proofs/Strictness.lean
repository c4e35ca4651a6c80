import ArrowFree.Proofs.ArgumentFacts
import ArrowFree.Proofs.Compiled

/-!
# Strict and lenient runs

An `arguments` inside an arrow that no function provides is reported once, although every arrow around
it collects it. The analysis looks at the arrows in pre-order, so that the outermost arrow comes first and
records all of them in the order of the program; the arrows within only find what is recorded already
(`unresolved_eq`). A lenient run has one warning for each, and a strict run ends at the first; where
there are none the two are the same (`strict_agrees_with_lenient`).
-/

namespace ArrowFree

open List

namespace Lowering

open ArrowFree.Tree ScopeTable

variable {p : Place} {π : Path} {s : Step}

/-- A reference to `arguments` inside an arrow and outside all functions that means the `arguments` of
the program. -/
def unprovided (t : ScopeTable) (p : Place) : Bool :=
  p.node.name? = some argumentsName && p.isReference && p.path.any (fun s => s.owner.isArrow) &&
    p.path.all (fun s => ! s.owner.isOrdinaryFunction) &&
    (resolve t p.node).toOption.any fun r => (t.scopes[r.scope]?).any fun s => s.kind = .program

theorem resolve_of_unprovided {t : ScopeTable} (h : unprovided t p) :
    ∃ r s, resolve t p.node = .ok r ∧ t.scopes[r.scope]? = some s ∧ s.kind = .program := by
  obtain ⟨-, hprogram⟩ := Bool.and_eq_true_iff.mp h
  obtain ⟨r, hr, hprogram⟩ := (Option.any_eq_true _ _).mp hprogram
  obtain ⟨s, hs, hkind⟩ := (Option.any_eq_true _ _).mp hprogram
  cases hresolve : resolve t p.node with
  | error f =>
    rw [hresolve] at hr
    cases hr
  | ok r' =>
    rw [hresolve] at hr
    obtain rfl := Option.some.inj hr
    exact ⟨r', s, rfl, hs, of_decide_eq_true hkind⟩

/-- What an arrow records of a reference in it. -/
def recordedBy (arrow : NodeId) (p : Place) : Unresolved := ⟨arrow, p.node.id, p.node.location⟩

/-- The outermost arrow on a path. -/
def outermostArrow (π : Path) : Option NodeId :=
  (π.reverse.find? fun s => s.owner.isArrow).map fun s => s.owner.id

/-- What there is to record of a reference: the outermost arrow comes first. -/
def leftOver (p : Place) : Unresolved := recordedBy ((outermostArrow p.path).getD .unset) p

theorem outermostArrow_append {q : Path} (hs : s.owner.isArrow) (hπ : ∀ s' ∈ π, s'.owner.isArrow = false) :
    outermostArrow (q ++ s :: π) = some s.owner.id := by
  unfold outermostArrow
  rw [reverse_append, reverse_cons, append_assoc, find?_append,
    find?_eq_none.mpr fun s' hs' => by simp [hπ s' (mem_reverse.mp hs')], Option.none_or,
    singleton_append, find?_cons_of_pos (by exact hs)]
  rfl

/-! ## Who owns a place -/

section

variable {root : Tree} {t : ScopeTable} (h : t.Outlined root.places)
include h

/-- A place belongs to the program exactly if no function is around it. -/
theorem owner_program_iff (hk : π.Known root.places) {i : Nat} {s : Scope}
    (hi : t.owner? (t.enclosing π) = some i) (hs : t.scopes[i]? = some s) :
    s.kind = .program ↔ ∀ st ∈ π, st.owner.isOrdinaryFunction = false := by
  induction π with
  | nil =>
    obtain ⟨s₀, hs₀, hkind, hon⟩ := h.rooted.scopesOn_zero
    have howner : t.owner? 0 = some 0 := by
      unfold owner?
      rw [hon, find?_cons_of_pos (by simp [Scope.isTransparent, hkind])]
      rfl
    obtain rfl : 0 = i := Option.some.inj (howner.symm.trans hi)
    obtain rfl : s₀ = s := Option.some.inj (hs₀.symm.trans hs)
    exact iff_of_true hkind (by simp)
  | cons st π ih =>
    cases hordinary : st.owner.isOrdinaryFunction with
    | false =>
      rw [owner?_step h hk.1 hordinary] at hi
      rw [ih hk.2 hi, forall_mem_cons]
      exact (and_iff_right hordinary).symm
    | true =>
      obtain ⟨sc, hsc, hkind, -, hon⟩ := h.scopesOn_opens hk.1 (opens?_of_ordinary hordinary π)
      unfold owner? at hi
      rw [hon, find?_cons_of_pos (by simp [Scope.isTransparent, hkind])] at hi
      cases hi
      obtain rfl : sc = s := Option.some.inj (hsc.symm.trans hs)
      refine iff_of_false (by simp [hkind]) fun hno => ?_
      rw [hno st mem_cons_self] at hordinary
      cases hordinary

/-- At program level, what comes from a function or from the program comes from the program. -/
theorem reaches_iff_program (hk : π.Known root.places) (hno : ∀ st ∈ π, st.owner.isOrdinaryFunction = false)
    {r : Resolution} (hr : resolveFrom t (t.enclosing π) = .ok r) :
    r.reachesFunction t = (t.scopes[r.scope]?).any fun s => s.kind = .program := by
  obtain ⟨pre, s, post, heq, -⟩ := resolveFrom_iff.mp hr
  have hs : t.scopes[r.scope]? = some s := (scope_of_split heq).1
  rw [hs, Option.any_some, Bool.eq_iff_iff, decide_eq_true_eq]
  constructor
  · intro hreach
    exact (owner_program_iff h hk (owner?_of_reaches hr hreach) hs).mpr hno
  · intro hkind
    unfold Resolution.reachesFunction
    rw [hs]
    simp [Scope.isTransparent, hkind]

/-! ## What one arrow records -/

variable (hd : root.Distinct) {x : Tree} {π : Path} (hx : ⟨x, π⟩ ∈ root.places) (harrow : x.isArrow)
include hd hx harrow

omit h in
/-- Inside an arrow the nodes that it does not look into are the ordinary functions. -/
theorem skips_iff_ordinary (hp : p ∈ x.places) (hs : s ∈ p.path) :
    (s.owner.id ≠ x.id && s.owner.isOrdinaryFunction) = s.owner.isOrdinaryFunction := by
  by_cases hid : s.owner.id = x.id
  · obtain ⟨q, ρ, hpath⟩ := append_of_mem hs
    have hplace : ⟨p.node, q ++ s :: ρ⟩ ∈ x.places := hpath ▸ hp
    have howner := nodes_trans (node_mem_nodes hx) (node_mem_nodes (owner_mem_places hplace))
    have hsame : s.owner = x := hd.node_eq howner (node_mem_nodes hx) hid
    rw [hsame, not_ordinary_of_isArrow harrow, Bool.and_false]
  · simp [hid]

/-- A reference in an arrow at program level is left over exactly if the arrow collects it. -/
theorem under_unprovided (hno : ∀ s ∈ π, s.owner.isOrdinaryFunction = false) (hp : p ∈ x.places) :
    unprovided t (p.under π) =
      (p.path.all (fun s => ! (s.owner.id ≠ x.id && s.owner.isOrdinaryFunction)) &&
        (p.node.name? = some argumentsName && p.isReference &&
          (resolve t p.node).toOption.any (·.reachesFunction t))) := by
  rcases mem_places_iff.mp hp with ⟨-, rfl⟩ | ⟨o, -, q, -, rfl⟩
  · -- the arrow is no identifier
    have hname : x.name? = none := if_neg fun hident => by
      rw [isArrow, of_decide_eq_true hident] at harrow
      cases harrow
    simp [unprovided, Place.under, hname]
  · generalize hp' : q.under [o.step x] = p at hp
    have href : (p.under π).isReference = p.isReference := by
      subst hp'
      obtain ⟨n, ρ⟩ := q
      cases ρ <;> rfl
    have hwithin : (p.under π).path.any (fun s => s.owner.isArrow) :=
      any_eq_true.mpr ⟨o.step x, by simp [← hp', Place.under], harrow⟩
    have hall : (p.under π).path.all (fun s => ! s.owner.isOrdinaryFunction) =
        p.path.all (fun s => ! (s.owner.id ≠ x.id && s.owner.isOrdinaryFunction)) := by
      rw [Place.under, all_append, (all_eq_true (l := π)).mpr fun s hs => by simp [hno s hs],
        Bool.and_true]
      rw [Bool.eq_iff_iff, all_eq_true, all_eq_true]
      exact forall₂_congr fun s hs => by rw [skips_iff_ordinary hd hx harrow hp hs]
    unfold unprovided
    rw [href, hwithin, hall, Bool.and_true]
    cases hskip : p.path.all (fun s => ! (s.owner.id ≠ x.id && s.owner.isOrdinaryFunction)) with
    | false => simp
    | true =>
      rw [Bool.true_and, Bool.and_true]
      congr 1
      show (resolve t p.node).toOption.any _ = _
      cases hresolve : resolve t p.node with
      | error f => rfl
      | ok r =>
        have hunder := under_mem_places hx hp
        obtain ⟨ref, hmem, hid, hr⟩ := resolve_ok hresolve
        obtain ⟨p', hp', -, -, rfl⟩ := h.references ref hmem
        obtain rfl : p' = p.under π := hd.place_eq hp' hunder hid
        rw [hskip] at hall
        refine (reaches_iff_program h (h.closed _ hunder) (fun s hs => ?_) hr).symm
        simpa using all_eq_true.mp hall s hs

/-- The references that an arrow at program level collects. -/
theorem collected_eq {refs : List Tree} (hrefs : collectReferences t x = .ok refs)
    (hno : ∀ s ∈ π, s.owner.isOrdinaryFunction = false) :
    refs = ((x.placesAt (fun _ => false) π).filter (unprovided t)).map Place.node := by
  have hfilter := filterMapM_filter (q := fun p => p.node.name? = some argumentsName &&
    p.isReference && (resolve t p.node).toOption.any (·.reachesFunction t)) (g := Place.node) hrefs
    fun p _ o ho => ?_
  · rw [hfilter, ownPlaces, placesAt_skip, filter_filter, placesAt_eq_map, filter_map,
      map_map]
    refine congrArg _ (filter_congr fun p hp => ?_)
    rw [Function.comp_apply, under_unprovided h hd hx harrow hno hp, Bool.and_comm]
  · split at ho
    · rename_i hname
      obtain ⟨r, hr, ho⟩ := bind_ok.mp ho
      cases ho
      rw [hname, hr]
      rfl
    · rename_i hname
      cases ho
      rw [Bool.not_eq_true] at hname
      rw [hname]
      rfl

omit h hd hx harrow in
/-- Nothing is left over in a function. -/
theorem unprovided_of_function (hs : s ∈ p.path) (hordinary : s.owner.isOrdinaryFunction) :
    unprovided t p = false := by
  have hall : p.path.all (fun s => ! s.owner.isOrdinaryFunction) = false :=
    all_eq_false.mpr ⟨s, hs, by simp [hordinary]⟩
  rw [unprovided, hall, Bool.and_false, Bool.false_and]

omit h hd hx harrow in
/-- The left-over references at a place that are not recorded yet. -/
def leftAt (t : ScopeTable) (a : Analysis) (ps : List Place) : List Place :=
  (ps.filter (unprovided t)).filter fun p => p.node.id ∉ a.unresolved.map Unresolved.reference

/-- **What one arrow records** is what is left over in it and not recorded yet. -/
theorem addArrow_unresolved {a a' : Analysis} (hstep : Analysis.addArrow root t a x = .ok a') :
    a'.unresolved = a.unresolved ++
      (leftAt t a (x.placesAt (fun _ => false) π)).map (recordedBy x.id) := by
  obtain ⟨refs, hrefs, -, -, hcases⟩ := addArrow_ok hstep
  have hlevel : ∀ target, hoistTarget t x = .ok target →
      (target = none ↔ ∀ s ∈ π, s.owner.isOrdinaryFunction = false) := by
    intro target htarget
    obtain ⟨i, s, hi, hs, rfl⟩ := owner?_of_hoistTarget htarget
    rw [owner?_number h hx harrow] at hi
    rw [← owner_program_iff h (h.closed _ hx) hi hs]
    split <;> simp_all
  by_cases hno : ∀ s ∈ π, s.owner.isOrdinaryFunction = false
  · have hcollected := collected_eq h hd hx harrow hrefs hno
    rcases hcases with ⟨rfl, -, -, -, hsame⟩ | ⟨-, -, -, -, -, hadded⟩ | ⟨target, -, -, htarget, -⟩
    · rw [leftAt, map_eq_nil_iff.mp hcollected.symm, hsame]
      simp
    · have hnodup : (refs.map Tree.id).Nodup := by
        refine (hd.subtree (node_mem_nodes hx)).nodup.sublist (List.Sublist.map _ ?_)
        rw [hcollected, nodes, places, placesAt_eq_map, filter_map, map_map]
        exact filter_sublist.map _
      rw [hadded hnodup, newReferences, hcollected, filter_map, map_map]
      rfl
    · cases (hlevel _ htarget).mpr hno
  · obtain ⟨s, hs, hordinary⟩ : ∃ s ∈ π, s.owner.isOrdinaryFunction := by simpa using hno
    have hempty : (x.placesAt (fun _ => false) π).filter (unprovided t) = [] := by
      refine filter_eq_nil_iff.mpr fun p hp => ?_
      rw [placesAt_eq_map] at hp
      obtain ⟨q, -, rfl⟩ := mem_map.mp hp
      rw [unprovided_of_function (mem_append_right _ hs) hordinary]
      exact Bool.false_ne_true
    rw [leftAt, hempty, filter_nil, map_nil, append_nil]
    rcases hcases with ⟨-, -, -, -, hsame⟩ | ⟨htarget, -⟩ | ⟨-, -, -, -, -, -, -, hsame⟩
    · rw [hsame]
    · exact absurd ((hlevel _ htarget).mp rfl) hno
    · rw [hsame]

end

/-! ## What all arrows record -/

section

variable {root : Tree} {t : ScopeTable} (h : t.Outlined root.places) (hd : root.Distinct)
variable {a a' : Analysis} {π : Path} {u : Tree}
include h hd

theorem foldlM_recorded {xs : List Tree} (hxs : ∀ x ∈ xs, x.isArrow ∧ ∃ π, ⟨x, π⟩ ∈ root.places ∧
      ∀ p ∈ x.placesAt (fun _ => false) π, unprovided t p →
        p.node.id ∈ a.unresolved.map Unresolved.reference) (hf : xs.foldlM (Analysis.addArrow root t) a = .ok a') :
    a'.unresolved = a.unresolved := by
  refine foldlM_invariant (P := fun _ c => c.unresolved = a.unresolved) hf rfl
    fun {ys x c c'} hys hc hstep => ?_
  obtain ⟨harrow, π, hx, hall⟩ := hxs x (hys.subset (by simp))
  have hnone : leftAt t c (x.placesAt (fun _ => false) π) = [] := by
    refine filter_eq_nil_iff.mpr fun p hp => ?_
    obtain ⟨hp, hleft⟩ := mem_filter.mp hp
    rw [hc]
    simpa using hall p hp hleft
  rw [addArrow_unresolved h hd hx harrow hstep, hnone, map_nil, append_nil, hc]

omit h hd in
theorem foldlM_occurrences {os : List Occurrence} {f : Occurrence → List Place}
    (hos : ∀ o ∈ os, ∀ a a', (∀ n ∈ o.tree.nodes, n.id ∉ a.unresolved.map Unresolved.reference) →
      (o.tree.nodes.filter Tree.isArrow).foldlM (Analysis.addArrow root t) a = .ok a' →
      a'.unresolved = a.unresolved ++ ((f o).filter (unprovided t)).map leftOver)
    (hnodes : ∀ o ∈ os, ∀ p ∈ f o, p.node ∈ o.tree.nodes)
    (hnodup : ((os.flatMap fun o => o.tree.nodes).map Tree.id).Nodup)
    (hfresh : ∀ n ∈ os.flatMap fun o => o.tree.nodes, n.id ∉ a.unresolved.map Unresolved.reference)
    (hf : ((os.flatMap fun o => o.tree.nodes).filter Tree.isArrow).foldlM (Analysis.addArrow root t) a = .ok a') :
    a'.unresolved = a.unresolved ++ ((os.flatMap f).filter (unprovided t)).map leftOver := by
  induction os generalizing a with
  | nil =>
    cases hf
    simp
  | cons o os ih =>
    rw [flatMap_cons, filter_append, foldlM_append] at hf
    obtain ⟨c, hc, hf⟩ := bind_ok.mp hf
    rw [flatMap_cons, map_append] at hnodup
    obtain ⟨-, hnodup, hdisjoint⟩ := nodup_append'.mp hnodup
    rw [flatMap_cons] at hfresh
    have hfirst := hos o mem_cons_self a c
      (fun n hn => hfresh n (mem_append_left _ hn)) hc
    have hrest := ih (fun o' ho' => hos o' (mem_cons_of_mem _ ho'))
      (fun o' ho' => hnodes o' (mem_cons_of_mem _ ho')) hnodup (fun n hn => ?_) hf
    · rw [hrest, hfirst, flatMap_cons, filter_append, map_append, append_assoc]
    · -- what the first occurrence has added is not in the others
      rw [hfirst, map_append, mem_append, not_or]
      refine ⟨hfresh n (mem_append_right _ hn), fun hmem => ?_⟩
      rw [map_map] at hmem
      obtain ⟨p, hp, hid⟩ := mem_map.mp hmem
      have hin := hnodes o mem_cons_self p (mem_of_mem_filter hp)
      exact hdisjoint (mem_map.mpr ⟨_, hin, hid⟩) (mem_map_of_mem hn)

omit h hd in
theorem placesAt_trans {x : Tree} {ρ : Path} (hx : ⟨x, ρ⟩ ∈ u.places)
    (hp : p ∈ x.placesAt (fun _ => false) (ρ ++ π)) : p ∈ u.placesAt (fun _ => false) π := by
  rw [placesAt_eq_map] at hp ⊢
  obtain ⟨q, hq, rfl⟩ := mem_map.mp hp
  refine mem_map.mpr ⟨q.under ρ, under_mem_places hx hq, ?_⟩
  rw [Place.under, Place.under, Place.under, append_assoc]

omit h hd in
/-- What an arrow that no arrow is around records has it as the outermost arrow. -/
theorem recordedBy_eq (harrow : u.isArrow) (hπ : ∀ s ∈ π, s.owner.isArrow = false) :
    ((u.placesAt (fun _ => false) π).filter (unprovided t)).map (recordedBy u.id) =
      ((u.placesAt (fun _ => false) π).filter (unprovided t)).map leftOver := by
  refine map_congr_left fun p hp => ?_
  obtain ⟨hp, hleft⟩ := mem_filter.mp hp
  rw [placesAt_eq_map] at hp
  obtain ⟨q, hq, rfl⟩ := mem_map.mp hp
  rcases mem_places_iff.mp hq with ⟨-, rfl⟩ | ⟨o, -, q, -, rfl⟩
  · -- the arrow is no identifier
    have hname : u.name? = none := if_neg fun hident => by
      rw [isArrow, of_decide_eq_true hident] at harrow
      cases harrow
    simp [unprovided, Place.under, hname] at hleft
  · have hpath : ((q.under [o.step u]).under π).path = q.path ++ o.step u :: π :=
      append_assoc ..
    rw [leftOver, hpath, outermostArrow_append (s := o.step u) harrow hπ]
    rfl

/-- **The arrows of a part that no arrow is around** record what is left over in it. -/
theorem foldlM_arrows (u : Tree) (hu : u.isNode → ⟨u, π⟩ ∈ root.places) (hπ : ∀ s ∈ π, s.owner.isArrow = false)
    (hfresh : ∀ n ∈ u.nodes, n.id ∉ a.unresolved.map Unresolved.reference)
    (hf : (u.nodes.filter Tree.isArrow).foldlM (Analysis.addArrow root t) a = .ok a') :
    a'.unresolved =
      a.unresolved ++ ((u.placesAt (fun _ => false) π).filter (unprovided t)).map leftOver := by
  induction u using occurrence_induction generalizing π a a' with
  | h u ih =>
    cases hnode : u.isNode with
    | false =>
      rw [nodes_of_not_node hnode] at hf
      cases hf
      rw [placesAt_of_not_node hnode]
      simp
    | true =>
      have hplace := hu hnode
      cases harrow : u.isArrow with
      | true =>
        have hall : ∀ p ∈ u.placesAt (fun _ => false) π,
            p.node.id ∉ a.unresolved.map Unresolved.reference := by
          intro p hp
          rw [placesAt_eq_map] at hp
          obtain ⟨q, hq, rfl⟩ := mem_map.mp hp
          exact hfresh q.node (node_mem_nodes hq)
        obtain ⟨i, s, slots, rfl⟩ := (u.eq_node_or_not_node).resolve_right (by simp [hnode])
        rw [nodes_node, filter_cons_of_pos harrow, foldlM_cons] at hf
        obtain ⟨c, hc, hf⟩ := bind_ok.mp hf
        have hfirst := addArrow_unresolved h hd hplace harrow hc
        rw [leftAt, filter_eq_self.mpr fun p hp =>
          by simpa using hall p (mem_of_mem_filter hp), recordedBy_eq harrow hπ] at hfirst
        rw [← hfirst]
        refine foldlM_recorded h hd (fun x hx => ?_) hf
        obtain ⟨hx, hxarrow⟩ := mem_filter.mp hx
        have hx' : x ∈ (node i s slots).nodes := by
          rw [nodes_node]
          exact mem_cons_of_mem _ hx
        obtain ⟨⟨y, ρ⟩, hplace', rfl⟩ := mem_map.mp hx'
        refine ⟨hxarrow, ρ ++ π, under_mem_places hplace hplace', fun p hp hleft => ?_⟩
        have hin := mem_filter.mpr ⟨placesAt_trans hplace' hp, hleft⟩
        rw [hfirst, map_append]
        exact mem_append_right _ (mem_map.mpr ⟨leftOver p, mem_map_of_mem hin, rfl⟩)
      | false =>
        have hdu := hd.subtree (node_mem_nodes hplace)
        have hself : unprovided t ⟨u, π⟩ = false := by
          have hany : π.any (fun s => s.owner.isArrow) = false :=
            any_eq_false.mpr fun s hs => by simp [hπ s hs]
          rw [unprovided, hany, Bool.and_false, Bool.false_and, Bool.false_and]
        obtain ⟨i, s, slots, rfl⟩ := (u.eq_node_or_not_node).resolve_right (by simp [hnode])
        rw [nodes_node, filter_cons_of_neg (by simp [harrow])] at hf
        rw [placesAt_of_isNode hnode, filter_cons_of_neg (by simp [hself])]
        have hnodup := hdu.nodup
        rw [nodes_node, map_cons] at hnodup
        rw [nodes_node] at hfresh
        refine foldlM_occurrences (fun o ho a a' hfresh' hf' => ?_) (fun o _ p hp => ?_)
          (nodup_cons.mp hnodup).2 (fun n hn => hfresh n (.tail _ hn)) hf
        · refine ih o ho (fun hn => mem_places_cons.mpr ⟨hplace, ho, hn⟩)
            (forall_mem_cons.mpr ⟨harrow, hπ⟩) hfresh' hf'
        · rw [placesAt_eq_map] at hp
          obtain ⟨q, hq, rfl⟩ := mem_map.mp hp
          exact node_mem_nodes (p := q) hq

/-- **What is reported** is what is left over in the program, in the order of the program and each
reference once, with the outermost arrow around it. -/
theorem unresolved_eq (ha : analyze t root = .ok a) :
    a.unresolved = (root.places.filter (unprovided t)).map leftOver := by
  obtain ⟨b, hidden, hb, -, ha⟩ := analyze_ok ha
  have hsame : a.unresolved = b.unresolved := by
    refine foldlM_invariant (P := fun _ c => c.unresolved = b.unresolved) ha rfl
      fun _ hc hstep => ?_
    obtain ⟨name, -, heq⟩ := addHidden_ok hstep
    rw [heq]
    exact hc
  rw [hsame, foldlM_arrows h hd root (fun hn => mem_places_nil.mpr ⟨rfl, hn⟩) nofun
    (fun _ _ => not_mem_nil) hb]
  rfl

end

end Lowering

/-! ## Compiling -/

open Lowering

theorem diagnostics_warned (r : Report) (us : List Unresolved) :
    (Session.warned r us).diagnostics = r.diagnostics ++ us.map Session.unresolvedWarning := by
  induction us generalizing r with
  | nil => exact (append_nil _).symm
  | cons u us ih =>
    show (Session.warned (r.add (Session.unresolvedWarning u)) us).diagnostics = _
    rw [ih, Report.add, append_assoc, map_cons, singleton_append]

section

variable {source : Text} {o : CompileOptions} {program u : Tree} {scopes : ScopeTable} {a : Analysis}
  (h : LoweredTo o.file source program scopes a u)
include h

theorem compile_of_resolved (hres : o.strict → a.unresolved = []) :
    ∃ printed c, u.print o.map = .ok printed ∧ compile source o = .ok c ∧ c.succeeded ∧
      c.printed = some printed ∧
      c.report.diagnostics = a.unresolved.map Session.unresolvedWarning := by
  obtain ⟨htree, hreport⟩ := h.lowers (o.session source) hres
  obtain ⟨printed, c, hprint, hc, hprinted, hsame, hok⟩ := compile_of_lowered htree h.formed
  refine ⟨printed, c, hprint, hc, hok, hprinted, ?_⟩
  rw [hsame, hreport, diagnostics_warned]
  rfl

theorem compile_of_unresolved (hstrict : o.strict) {x : Unresolved} {xs : List Unresolved}
    (hxs : a.unresolved = x :: xs) :
    ∃ c, compile source o = .ok c ∧ c.succeeded = false ∧ c.printed = none ∧
      c.report.diagnostics = [((o.session source).unresolvedError x).diagnostic] := by
  obtain ⟨herror, hreport⟩ := h.refuses (o.session source) hstrict x xs hxs
  refine ⟨_, compile_of_refused herror, rfl, rfl, ?_⟩
  rw [Compilation.failed, hreport]
  rfl

end

/-- **Strict and lenient runs.** A script that can be parsed is compiled by a lenient run, with one
warning for each reference to `arguments` that is left over, in the order of the script and at the
location of the reference, and with no other diagnostic. A strict run succeeds exactly if none is left
over, and then its code and its map are those of the lenient run; otherwise it has one diagnostic, an
error at the location of the first. -/
theorem strict_agrees_with_lenient {source : Text} {o : CompileOptions} {program : Tree}
    (h : Script.parse o.file source = .ok program) :
    ∃ scopes lenient strict, ScopeTable.ofTree program = .ok scopes ∧
      compile source { o with strict := false } = .ok lenient ∧
      compile source { o with strict := true } = .ok strict ∧
      lenient.succeeded = true ∧ lenient.printed.isSome ∧
      (lenient.report.diagnostics.map fun d => (d.severity, d.code, d.location)) =
        (program.places.filter (unprovided scopes)).map
          (fun p => (.warning, some ("W0001" : Text), p.node.location)) ∧
      (strict.succeeded = true ↔ program.places.filter (unprovided scopes) = []) ∧
      (strict.succeeded = true →
        strict.printed = lenient.printed ∧ strict.report.diagnostics = []) ∧
      ∀ p ps, program.places.filter (unprovided scopes) = p :: ps →
        strict.printed = none ∧ ∃ d, strict.report.diagnostics = [d] ∧ d.severity = .error ∧
          d.code = some ("E0002" : Text) ∧ d.location = p.node.location := by
  obtain ⟨scopes, a, u, hl⟩ := lowerScript_of_parse h
  have hleft := unresolved_eq (ScopeTable.outlined_ofTree hl.distinct hl.scopes_eq) hl.distinct
    hl.analysis_eq
  obtain ⟨printed, lenient, hprint, hlenient, hok, hprinted, hdiagnostics⟩ :=
    compile_of_resolved (o := { o with strict := false }) hl nofun
  have hwarnings : (lenient.report.diagnostics.map fun d => (d.severity, d.code, d.location)) =
      (program.places.filter (unprovided scopes)).map
        (fun p => (.warning, some ("W0001" : Text), p.node.location)) := by
    rw [hdiagnostics, hleft, List.map_map, List.map_map]
    rfl
  cases hus : a.unresolved with
  | nil =>
    have hnone : program.places.filter (unprovided scopes) = [] := by
      rw [hus] at hleft
      exact List.map_eq_nil_iff.mp hleft.symm
    obtain ⟨printed', strict, hprint', hstrict, hok', hprinted', hnothing⟩ :=
      compile_of_resolved (o := { o with strict := true }) hl fun _ => hus
    obtain rfl : printed' = printed := Except.ok.inj (hprint'.symm.trans hprint)
    rw [hus] at hnothing
    refine ⟨scopes, lenient, strict, hl.scopes_eq, hlenient, hstrict, hok, by simp [hprinted],
      hwarnings, iff_of_true hok' hnone, fun _ => ⟨hprinted'.trans hprinted.symm, hnothing⟩, ?_⟩
    intro p ps hp
    cases hnone.symm.trans hp
  | cons x xs =>
    have hsome : program.places.filter (unprovided scopes) ≠ [] := by
      intro hnone
      rw [hus, hnone] at hleft
      cases hleft
    obtain ⟨strict, hstrict, hfail, hnone, herror⟩ :=
      compile_of_unresolved (o := { o with strict := true }) hl rfl hus
    refine ⟨scopes, lenient, strict, hl.scopes_eq, hlenient, hstrict, hok, by simp [hprinted],
      hwarnings, iff_of_false (by simp [hfail]) hsome, by simp [hfail], ?_⟩
    intro p ps hp
    refine ⟨hnone, _, herror, rfl, rfl, ?_⟩
    rw [hus, hp] at hleft
    exact congrArg Unresolved.location (List.cons.inj hleft).1

/-- Both arrows collect the reference, and it is reported once. -/
theorem strict_agrees_with_lenient_nested :
    ∃ program lenient strict, Script.parse CompileOptions.defaultFile "x=>()=>arguments" = .ok program ∧
      compile "x=>()=>arguments" = .ok lenient ∧
      compile "x=>()=>arguments" { strict := true } = .ok strict ∧
      lenient.succeeded = true ∧ lenient.report.diagnostics.length = 1 ∧ strict.succeeded = false := by
  have hrun : (do
      let program ← Script.parse CompileOptions.defaultFile "x=>()=>arguments"
      let scopes ← ScopeTable.ofTree program
      return decide ((program.places.filter (unprovided scopes)).length = 1)) = Except.ok true := by
    decide +kernel
  obtain ⟨program, hparse, hrun⟩ := bind_ok.mp hrun
  obtain ⟨scopes', hscopes', hcount⟩ := bind_ok.mp hrun
  obtain ⟨scopes, lenient, strict, hscopes, hlenient, hstrict, hok, -, hwarnings, hiff, -⟩ :=
    strict_agrees_with_lenient (o := {}) hparse
  obtain rfl : scopes' = scopes := Except.ok.inj (hscopes'.symm.trans hscopes)
  have hone : (program.places.filter (unprovided scopes')).length = 1 :=
    of_decide_eq_true (Except.ok.inj hcount)
  refine ⟨program, lenient, strict, hparse, hlenient, hstrict, hok, ?_, ?_⟩
  · rw [← List.length_map (f := fun d : Diagnostic => (d.severity, d.code, d.location)), hwarnings,
      List.length_map, hone]
  · rw [← Bool.not_eq_true, hiff]
    intro hnone
    rw [hnone] at hone
    cases hone

end ArrowFree
