import ArrowFree.Proofs.Outline
import ArrowFree.Proofs.Traversals

/-!
# Scopes in one visit

A visit that keeps the open scopes on a stack finds the same table as looking up the way to each place
(`ofVisit_eq`). Two facts carry this along the visit of a tree (`Standing`):

1. The innermost open scope is the innermost one around the place that the visit has come to.
2. Above the scope of the program, the innermost open scope belongs to a node on the way to that place.
   A node further in has another identity, so that it closes no scope but its own.
-/

namespace ArrowFree.ScopeTable

open ArrowFree.Tree List

/-! ## The open scopes -/

variable {w : Walk} {π : Path} {ps : List Place} {p : Place} {st : Step} {α : Type}

/-- The scopes that are open in front of something that these steps lead to. -/
structure Standing (w : Walk) (π : Path) : Prop where
  rooted : w.table.Rooted
  top : w.stack.head? = some (w.table.enclosing π)
  opener : ∀ i j outer, w.stack = i :: j :: outer →
    ∃ st ∈ π, ∃ s, w.table.scopes[i]? = some s ∧ s.node = st.owner.id

theorem enclosing_of_number {t u : ScopeTable} (h : ∀ st ∈ π, u.number st.owner.id = t.number st.owner.id) :
    u.enclosing π = t.enclosing π := by
  induction π with
  | nil => rfl
  | cons st π ih =>
    rw [enclosing_cons, enclosing_cons, h st mem_cons_self,
      ih fun st' hst' => h st' (mem_cons_of_mem _ hst')]

/-- A place that is entered elsewhere leaves the open scopes as they are. -/
theorem Standing.entered (h : Standing w π) (hp : p.additions = .ok p.added)
    (hnew : ∀ st ∈ π, st.owner.id ≠ p.node.id) : Standing ⟨w.table.entered p, w.stack⟩ π := by
  obtain ⟨hnumber, hgrows⟩ := entered_old h.rooted hp
  refine ⟨rooted_entered h.rooted p, ?_, fun i j outer hstack => ?_⟩
  · rw [h.top, enclosing_of_number fun st hst => hnumber _ (hnew st hst)]
  · obtain ⟨st, hst, s, hs, hnode⟩ := h.opener i j outer hstack
    obtain ⟨s', hs', hbare, -⟩ := hgrows i s hs
    exact ⟨st, hst, s', hs', (Scope.of_bare hbare).2.1.trans hnode⟩

theorem Standing.enterAll (h : Standing w π) (hps : ∀ p ∈ ps, p.additions = .ok p.added)
    (hnew : ∀ p ∈ ps, ∀ st ∈ π, st.owner.id ≠ p.node.id) : Standing ⟨w.table.enterAll ps, w.stack⟩ π := by
  induction ps generalizing w with
  | nil => exact h
  | cons p ps ih =>
    have hstep := h.entered (hps p mem_cons_self) (hnew p mem_cons_self)
    exact ih hstep (fun q hq => hps q (mem_cons_of_mem _ hq))
      fun q hq => hnew q (mem_cons_of_mem _ hq)

/-- A node that opens no scope stands between its children and the open scopes. -/
theorem Standing.through (h : Standing w π) (ho : Place.opens? ⟨st.owner, π⟩ = none) : Standing w (st :: π) := by
  refine ⟨h.rooted, ?_, fun i j outer hstack => ?_⟩
  · rw [enclosing_cons, ho]
    exact h.top
  · obtain ⟨st', hst', hs⟩ := h.opener i j outer hstack
    exact ⟨st', mem_cons_of_mem _ hst', hs⟩

/-- The scope that a node has opened is the innermost one for its children. -/
theorem Standing.inside (h : Standing w π) {kind : ScopeKind} (ho : Place.opens? ⟨st.owner, π⟩ = some kind)
    (hp : Place.additions ⟨st.owner, π⟩ = .ok (Place.added ⟨st.owner, π⟩)) :
    Standing ⟨w.table.entered ⟨st.owner, π⟩, w.table.scopes.length :: w.stack⟩ (st :: π) := by
  obtain ⟨-, -, hnumber, -, s, hs, hbare, -⟩ := entered_opening h.rooted hp ho
  refine ⟨rooted_entered h.rooted _, ?_, fun i j outer hstack => ?_⟩
  · rw [enclosing_cons, ho, hnumber]
    simp
  · obtain ⟨rfl, -⟩ := List.cons.inj hstack
    exact ⟨st, mem_cons_self, s, hs, congrArg Scope.node hbare⟩

/-! ## Entering and leaving one node -/

/-- The open scopes at the children of a node that has been entered. -/
def Walk.below (w : Walk) (p : Place) : Walk :=
  ⟨w.table.entered p, if p.opens?.isSome then w.table.scopes.length :: w.stack else w.stack⟩

theorem Standing.enter_eq (h : Standing w p.path) : w.enter p = (w.table.enter p).map fun table =>
      ⟨table, if p.opens?.isSome then w.table.scopes.length :: w.stack else w.stack⟩ := by
  unfold Walk.enter
  rw [h.top]
  show w.table.enter p >>= _ = _
  cases w.table.enter p <;> rfl

theorem Standing.below (h : Standing w π) (hp : Place.additions ⟨st.owner, π⟩ = .ok (Place.added ⟨st.owner, π⟩))
    (hnew : ∀ st' ∈ π, st'.owner.id ≠ st.owner.id) : Standing (w.below ⟨st.owner, π⟩) (st :: π) := by
  unfold Walk.below
  cases ho : Place.opens? ⟨st.owner, π⟩ with
  | none => exact (h.entered hp hnew).through ho
  | some kind => exact h.inside ho hp

theorem extends_enterAll {t : ScopeTable} (ht : t.Rooted) (hps : ∀ p ∈ ps, p.additions = .ok p.added) :
    t.Extends (t.enterAll ps) := by
  induction ps generalizing t with
  | nil => exact fun i s hs => ⟨s, hs, rfl⟩
  | cons p ps ih =>
    intro i s hs
    obtain ⟨s₁, hs₁, hbare₁, -⟩ := (entered_old ht (hps p mem_cons_self)).2 i s hs
    obtain ⟨s₂, hs₂, hbare₂⟩ :=
      ih (rooted_entered ht p) (fun q hq => hps q (mem_cons_of_mem _ hq)) i s₁ hs₁
    exact ⟨s₂, hs₂, hbare₂.trans hbare₁⟩

/-- Leaving a node closes the scope that it opened and no other. -/
theorem Standing.leave_eq (h : Standing w p.path) (hp : p.additions = .ok p.added)
    (hps : ∀ q ∈ ps, q.additions = .ok q.added) (hnew : ∀ q ∈ p :: ps, ∀ st ∈ p.path, st.owner.id ≠ q.node.id) :
    Walk.leave ⟨(w.table.entered p).enterAll ps, (w.below p).stack⟩ p =
      ⟨(w.table.entered p).enterAll ps, w.stack⟩ := by
  unfold Walk.below
  cases ho : p.opens? with
  | none =>
    -- the innermost open scope belongs to a node further out
    have hafter : Standing ⟨(w.table.entered p).enterAll ps, w.stack⟩ p.path :=
      h.enterAll (forall_mem_cons.mpr ⟨hp, hps⟩) hnew
    simp only [Option.isSome_none, Bool.false_eq_true, if_false]
    unfold Walk.leave
    split
    · rename_i i j outer hstack
      obtain ⟨st, hst, s, hs, hnode⟩ := hafter.opener i j outer hstack
      have hne : s.node ≠ p.node.id := hnode ▸ hnew p mem_cons_self st hst
      simp only at hs
      rw [hs, if_neg (by simpa using hne)]
    · rfl
  | some kind =>
    obtain ⟨-, -, -, -, s, hs, hbare, -⟩ := entered_opening h.rooted hp ho
    obtain ⟨s', hs', hbare'⟩ := extends_enterAll (rooted_entered h.rooted p) hps _ s hs
    have hnode : s'.node = p.node.id := (congrArg Scope.node hbare').trans (congrArg Scope.node hbare)
    obtain ⟨outer, hstack⟩ : ∃ outer, w.stack = w.table.enclosing p.path :: outer :=
      head?_eq_some_iff.mp h.top
    simp only [Option.isSome_some, if_true]
    rw [hstack]
    unfold Walk.leave
    simp only
    rw [hs', if_pos (by simpa using hnode)]

/-! ## The visit -/

/-- The open scopes after an call. -/
def Walk.after (w : Walk) : Call → Except Fault Walk
  | .entered p => w.enter p
  | .left p => .ok (w.leave p)

/-- These calls enter these places and leave the scopes open that were open. -/
def Retraces (es : List Call) (ps : List Place) (w : Walk) : Prop :=
  es.foldlM Walk.after w = (ps.foldlM enter w.table).map fun table => ⟨table, w.stack⟩

theorem retraces_nil (w : Walk) : Retraces [] [] w := rfl

theorem Retraces.append {es es' : List Call} {qs : List Place} (h : Retraces es ps w)
    (h' : (∀ p ∈ ps, p.additions = .ok p.added) → Retraces es' qs ⟨w.table.enterAll ps, w.stack⟩) :
    Retraces (es ++ es') (ps ++ qs) w := by
  unfold Retraces at *
  rw [foldlM_append, foldlM_append, h]
  cases hps : ps.foldlM enter w.table with
  | error f => rfl
  | ok table =>
    obtain ⟨hadded, rfl⟩ := foldlM_enter.mp hps
    exact h' hadded

section Owner

variable {owner : Tree} {os : List Occurrence}

/-- The places of what occurs in a node that stands at a path. -/
def placesOf (owner : Tree) (π : Path) (os : List Occurrence) : List Place :=
  os.flatMap fun o => o.tree.placesAt (fun _ => false) (o.step owner :: π)

/-- The nodes of these occurrences are others than those on the way to them. -/
def Apart (owner : Tree) (π : Path) (os : List Occurrence) : Prop :=
  ∀ o ∈ os, ∀ n ∈ o.tree.nodes, owner.id ≠ n.id ∧ ∀ st ∈ π, st.owner.id ≠ n.id

/-- The open scopes are those for whatever occurs in a node. -/
def Below (w : Walk) (owner : Tree) (π : Path) : Prop := ∀ st : Step, st.owner = owner → Standing w (st :: π)

theorem Apart.places (h : Apart owner π os) (st : Step) (hst : st.owner = owner) :
    ∀ p ∈ placesOf owner π os, ∀ st' ∈ st :: π, st'.owner.id ≠ p.node.id := by
  intro p hp st' hst'
  obtain ⟨o, ho, hp⟩ := mem_flatMap.mp hp
  rw [placesAt_eq_map] at hp
  obtain ⟨q, hq, rfl⟩ := mem_map.mp hp
  obtain ⟨hown, hpath⟩ := h o ho q.node (node_mem_nodes hq)
  rcases mem_cons.mp hst' with rfl | hst'
  · rwa [hst]
  · exact hpath st' hst'

theorem Below.enterAll (h : Below w owner π) (ha : Apart owner π os)
    (hadded : ∀ p ∈ placesOf owner π os, p.additions = .ok p.added) :
    Below ⟨w.table.enterAll (placesOf owner π os), w.stack⟩ owner π :=
  fun st hst => (h st hst).enterAll hadded (ha.places st hst)

theorem callsOf_retraces (hos : ∀ o ∈ os, ∀ w, Standing w (o.step owner :: π) →
      Retraces (o.tree.callsAt (fun _ => false) (o.step owner :: π))
        (o.tree.placesAt (fun _ => false) (o.step owner :: π)) w)
    (ha : Apart owner π os) (hw : Below w owner π) :
    Retraces (callsOf (fun _ => false) owner π os) (placesOf owner π os) w := by
  induction os generalizing w with
  | nil => exact retraces_nil w
  | cons o os ih =>
    obtain ⟨ho, hos⟩ := forall_mem_cons.mp hos
    obtain ⟨hao, haos⟩ := forall_mem_cons.mp ha
    refine (ho w (hw _ rfl)).append fun hadded => ih hos haos ?_
    have hone : placesOf owner π [o] = o.tree.placesAt (fun _ => false) (o.step owner :: π) := flatMap_singleton _ _
    rw [← hone] at hadded ⊢
    exact hw.enterAll (forall_mem_singleton.mpr hao) hadded

end Owner

theorem node_retraces {n : Tree} (hn : n.isNode) (hw : Standing w π)
    (hos : ∀ o ∈ n.occurrences, ∀ w, Standing w (o.step n :: π) →
      Retraces (o.tree.callsAt (fun _ => false) (o.step n :: π))
        (o.tree.placesAt (fun _ => false) (o.step n :: π)) w)
    (ha : Apart n π n.occurrences) (hπ : ∀ st ∈ π, st.owner.id ≠ n.id) :
    Retraces (n.callsAt (fun _ => false) π) (n.placesAt (fun _ => false) π) w := by
  rw [callsAt_of_isNode hn, placesAt_of_isNode hn]
  unfold Retraces
  rw [foldlM_cons, foldlM_cons, Walk.after, hw.enter_eq (p := ⟨n, π⟩)]
  cases hp : w.table.enter ⟨n, π⟩ with
  | error f => rfl
  | ok table =>
    obtain ⟨as, has, rfl⟩ := map_ok.mp ((ScopeTable.enter_eq w.table ⟨n, π⟩).symm.trans hp)
    have hadd : Place.additions ⟨n, π⟩ = .ok (Place.added ⟨n, π⟩) := by rw [Place.added, has]; rfl
    rw [← entered_of_additions w.table has]
    have hbelow : Below (w.below ⟨n, π⟩) n π := by
      rintro st rfl
      exact hw.below hadd hπ
    have hinner := callsOf_retraces hos ha hbelow
    show (callsOf (fun _ => false) n π n.occurrences ++ [Call.left ⟨n, π⟩]).foldlM Walk.after (w.below ⟨n, π⟩) =
      ((placesOf n π n.occurrences).foldlM enter (w.table.entered ⟨n, π⟩)).map _
    rw [foldlM_append, hinner]
    show ((placesOf n π n.occurrences).foldlM enter (w.table.entered ⟨n, π⟩)).map _ >>= _ = _
    cases hps : (placesOf n π n.occurrences).foldlM enter (w.table.entered ⟨n, π⟩) with
    | error f => rfl
    | ok table =>
      obtain ⟨hadded, rfl⟩ := foldlM_enter.mp hps
      have hleave := hw.leave_eq (p := ⟨n, π⟩) hadd hadded (forall_mem_cons.mpr ⟨hπ, fun q hq st hst =>
        ha.places ⟨n, [], none⟩ rfl q hq st (mem_cons_of_mem _ hst)⟩)
      exact congrArg Except.ok hleave

/-- **The calls** of a tree whose nodes have distinct identities, others than those on the way to it. -/
theorem callsAt_retraces {t : Tree} (hd : (t.nodes.map Tree.id).Nodup)
    (hπ : ∀ st ∈ π, ∀ n ∈ t.nodes, st.owner.id ≠ n.id) (hw : Standing w π) :
    Retraces (t.callsAt (fun _ => false) π) (t.placesAt (fun _ => false) π) w := by
  induction t using occurrence_induction generalizing π w with
  | h t ih =>
    rcases t.eq_node_or_not_node with ⟨i, s, slots, rfl⟩ | ht
    · have hin : ∀ o ∈ (node i s slots).occurrences, ∀ n ∈ o.tree.nodes, n ∈ (node i s slots).nodes :=
        fun o ho n hn => mem_nodes_iff.mpr (.inr ⟨o, ho, hn⟩)
      have hroot : ∀ o ∈ (node i s slots).occurrences, ∀ n ∈ o.tree.nodes, (node i s slots).id ≠ n.id := by
        intro o ho n hn heq
        rw [nodes_node, map_cons, nodup_cons, heq] at hd
        exact hd.1 (mem_map.mpr ⟨n, mem_flatMap.mpr ⟨o, ho, hn⟩, rfl⟩)
      refine node_retraces rfl hw (fun o ho w hw => ih o ho ?_ (fun st hst n hn => ?_) hw)
        (fun o ho n hn => ⟨hroot o ho n hn, fun st hst => hπ st hst n (hin o ho n hn)⟩)
        fun st hst => hπ st hst _ (self_mem_nodes rfl)
      · exact hd.sublist ((nodes_sublist_of_occurrence ho).map Tree.id)
      · rcases mem_cons.mp hst with rfl | hst
        · exact hroot o ho n hn
        · exact hπ st hst n (hin o ho n hn)
    · rw [callsAt_of_not_node ht, placesAt_of_not_node ht]
      exact retraces_nil w

/-! ## The callbacks -/

/-- Entering and leaving without a decision. -/
def Walk.entering (p : Place) : StateT Walk (Except Fault) Unit := fun w => return ((), ← w.enter p)

def Walk.leaving (p : Place) : StateT Walk (Except Fault) Unit := fun w => return ((), w.leave p)

theorem onEnter_eq : Walk.onEnter = deciding (fun _ => false) (fun _ => false) Walk.entering := by
  funext p w
  show (w.enter p >>= _) = ((w.enter p >>= _) >>= _)
  cases w.enter p <;> rfl

theorem onLeave_eq : Walk.onLeave = proceeding Walk.leaving := rfl

theorem forM_perform (es : List Call) (w : Walk) :
    es.forM (perform Walk.entering Walk.leaving) w = (es.foldlM Walk.after w).map fun w => ((), w) := by
  induction es generalizing w with
  | nil => rfl
  | cons e es ih =>
    cases e with
    | entered p =>
      show ((w.enter p >>= _) >>= _) = _
      rw [foldlM_cons, Walk.after]
      cases w.enter p with
      | error f => rfl
      | ok w => exact ih w
    | left p => exact ih (w.leave p)

theorem standing_initial (root : Tree) : Standing ⟨initial root, [0]⟩ [] :=
  ⟨rooted_initial root, rfl, by simp⟩

/-- **One visit** that keeps the open scopes on a stack finds the scopes of the tree, or fails as looking
up the way to each place does. -/
theorem ofVisit_eq {root : Tree} (hd : root.Distinct) : ofVisit root = ofTree root := by
  have hfollows : Follows Walk.entering Walk.leaving (fun _ => false) _ root (root.callsAt (fun _ => false) []) :=
    follows_visitAt root []
  have hretraces := callsAt_retraces hd.nodup (π := []) (by simp) (standing_initial root)
  unfold Follows at hfollows
  rw [← onEnter_eq, ← onLeave_eq, through_of_not_any (any_ends_never _)] at hfollows
  unfold ofVisit
  rw [visit, hfollows]
  show Except.map _
    (((root.callsAt (fun _ => false) []).forM (perform Walk.entering Walk.leaving) ⟨initial root, [0]⟩) >>= _)
    >>= _ = _
  rw [forM_perform, hretraces]
  show (Except.map _ (Except.map _ (Except.map _ (ofTree root)) >>= _) >>= _) = _
  cases ofTree root <;> rfl

end ArrowFree.ScopeTable
