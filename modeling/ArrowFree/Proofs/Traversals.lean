import ArrowFree.Proofs.Places
import ArrowFree.Tree.Visit

/-!
# Two traversals

A visit that changes nothing calls its callbacks in an order that only depends on the tree: `callsAt`, up to the
call that ends it (`follows_visitAt`). The nodes that it enters are those of the loop over a stack, each node is
left once, and what happens between is the visit of what is below it (`visit_agrees_with_iteration`).
-/

namespace ArrowFree

open List

/-- A call of a callback of a visit. -/
inductive Call where
  | entered (p : Place)
  | left (p : Place)

namespace Call

def entry? : Call → Option Place
  | .entered p => some p
  | .left _ => none

def exit? : Call → Option Place
  | .entered _ => none
  | .left p => some p

/-- Whether a visit that is to end at some nodes ends here. -/
def ends (stop : Tree → Bool) : Call → Bool
  | .entered p => stop p.node
  | .left _ => false

end Call

/-- The places that are entered, in order. -/
def entries (es : List Call) : List Place := es.filterMap Call.entry?

/-- The places that are left, in order. -/
def exits (es : List Call) : List Place := es.filterMap Call.exit?

/-- The list up to the first item that has a property, this included. -/
def through {α : Type} (p : α → Bool) : List α → List α
  | [] => []
  | x :: xs => if p x then [x] else x :: through p xs

section

variable {α : Type} {p : α → Bool} {xs ys : List α}

theorem through_append : through p (xs ++ ys) = if xs.any p then through p xs else xs ++ through p ys := by
  induction xs with
  | nil => rfl
  | cons x xs ih =>
    rw [cons_append, through, through, ih, any_cons]
    cases p x <;> cases xs.any p <;> rfl

theorem through_of_not_any (h : xs.any p = false) : through p xs = xs := by
  rw [← append_nil xs, through_append, h]
  rfl

theorem through_eq_take (p : α → Bool) (xs : List α) : through p xs = xs.take (xs.findIdx p + 1) := by
  induction xs with
  | nil => rfl
  | cons x xs ih => cases h : p x <;> simp [through, findIdx_cons, h, ih]

end

theorem any_ends_never (es : List Call) : es.any (Call.ends fun _ => false) = false :=
  any_eq_false.mpr fun e _ => by cases e <;> simp [Call.ends]

namespace Tree

/-- The calls of a visit of the tree at a path, if it does not end before. -/
def callsAt (skip : Tree → Bool) (path : Path) (t : Tree) : List Call :=
  if t.isNode then
    .entered ⟨t, path⟩ :: (if skip t then [] else t.occurrences.attach.flatMap fun o =>
      have := sizeOf_lt_of_mem_occurrences o.2
      callsAt skip (o.1.step t :: path) o.1.tree) ++ [.left ⟨t, path⟩]
  else []
termination_by sizeOf t

variable {skip stop : Tree → Bool} {path : Path} {t : Tree}

/-- The calls of visits of what occurs in a node. -/
def callsOf (skip : Tree → Bool) (owner : Tree) (path : Path) (os : List Occurrence) : List Call :=
  os.flatMap fun o => o.tree.callsAt skip (o.step owner :: path)

theorem callsAt_of_isNode (h : t.isNode) : t.callsAt skip path = .entered ⟨t, path⟩ ::
    ((if skip t then [] else callsOf skip t path t.occurrences) ++ [.left ⟨t, path⟩]) := by
  rw [callsAt, if_pos h, callsOf]
  simp

theorem callsAt_of_not_node (h : t.isNode = false) : t.callsAt skip path = [] := by
  rw [callsAt, if_neg (by simp [h])]

/-! ## The visit follows its calls -/

section Follows

variable {m : Type → Type} [Monad m] {α β γ : Type} (onEntry onExit : Place → m Unit) {a : α}
  {es : List Call} {ts : List Tree}

/-- What is done at a call. -/
def perform : Call → m Unit
  | .entered p => onEntry p
  | .left p => onExit p

/-- Some part of a visit performs these calls up to the first that ends it, and comes to `a`. -/
def Follows (stop : Tree → Bool) (v : m (α × Bool)) (a : α) (es : List Call) : Prop :=
  v = do
    (through (Call.ends stop) es).forM (perform onEntry onExit)
    pure (a, es.any (Call.ends stop))

variable {onEntry onExit} [LawfulMonad m]

theorem follows_pure (a : α) : Follows onEntry onExit stop (pure (a, false)) a [] := by
  simp [Follows, through]

theorem Follows.bind {v : m (α × Bool)} {w : α × Bool → m (β × Bool)} {b : β} {es' : List Call}
    (hv : Follows onEntry onExit stop v a es) (hstop : w (a, true) = pure (b, true))
    (hw : Follows onEntry onExit stop (w (a, false)) b es') :
    Follows onEntry onExit stop (v >>= w) b (es ++ es') := by
  unfold Follows at *
  rw [hv, through_append, any_append]
  cases h : es.any (Call.ends stop) <;> simp [through_of_not_any, h, hw, hstop]

theorem Follows.map {v : m (α × Bool)} (hv : Follows onEntry onExit stop v a es) (g : α → β) :
    Follows onEntry onExit stop (do
      let x ← v
      pure (g x.1, x.2)) (g a) es := by
  unfold Follows at *
  simp [hv]

theorem Follows.entered {v : m (α × Bool)} (hv : Follows onEntry onExit stop v a es) {p : Place}
    (hp : stop p.node = false) :
    Follows onEntry onExit stop (do
      onEntry p
      v) a (.entered p :: es) := by
  unfold Follows at *
  simp [hv, through, Call.ends, hp, perform]

theorem follows_stop {p : Place} (hp : stop p.node) (a : α) (es : List Call) :
    Follows onEntry onExit stop (do
      onEntry p
      pure (a, true)) a (.entered p :: es) := by
  simp [Follows, through, Call.ends, hp, perform]

/-- Whether the visit goes on below a node, for callbacks that ask the node alone. -/
def decision (skip stop : Tree → Bool) (n : Tree) : Decision :=
  { action := if stop n then .stop else if skip n then .skip else .proceed }

/-- A callback that decides by the node alone and changes nothing in the tree. -/
def deciding (skip stop : Tree → Bool) (onEntry : Place → m Unit) (p : Place) : m Decision := do
  onEntry p
  return decision skip stop p.node

/-- A callback that always goes on. -/
def proceeding (onExit : Place → m Unit) (p : Place) : m Decision := do
  onExit p
  return {}

variable {owner : Tree} {os : List Occurrence}

/-- Visits of these occurrences follow their calls. -/
def AllFollow (onEntry onExit : Place → m Unit) (skip stop : Tree → Bool) (owner : Tree) (path : Path)
    (os : List Occurrence) : Prop :=
  ∀ o ∈ os, Follows onEntry onExit stop
    (o.tree.visitAt (deciding skip stop onEntry) (proceeding onExit) (o.step owner :: path)) o.tree
    (o.tree.callsAt skip (o.step owner :: path))

omit [LawfulMonad m] in
theorem AllFollow.one {o : Occurrence} (h : AllFollow onEntry onExit skip stop owner path [o]) :
    Follows onEntry onExit stop
      (o.tree.visitAt (deciding skip stop onEntry) (proceeding onExit) (o.step owner :: path)) o.tree
      (callsOf skip owner path [o]) := by
  rw [callsOf, flatMap_singleton]
  exact h o mem_cons_self

theorem follows_visitItems {field : Text} {n : Nat}
    (h : AllFollow onEntry onExit skip stop owner path (itemsFrom field n ts)) :
    Follows onEntry onExit stop
      (visitItems (deciding skip stop onEntry) (proceeding onExit) owner path field n ts) ts
      (callsOf skip owner path (itemsFrom field n ts)) := by
  induction ts generalizing n with
  | nil => exact follows_pure []
  | cons t ts ih =>
    obtain ⟨ht, hts⟩ := forall_mem_cons.mp h
    exact ht.bind rfl ((ih hts).map (t :: ·))

/-- The visit of one slot. -/
def visitSlot (enter leave : Place → m Decision) (owner : Tree) (path : Path) (f : Field) (t : Tree) :
    m (Tree × Bool) :=
  if f.child then
    match t with
    | .list items => do
      let x ← visitItems enter leave owner path f.name 0 items
      pure (.list x.1, x.2)
    | t => t.visitAt enter leave (⟨owner, f.name, none⟩ :: path)
  else pure (t, false)

theorem visitSlots_cons (enter leave : Place → m Decision) (owner : Tree) (path : Path) (f : Field) (fs : List Field)
    (t : Tree) (ts : List Tree) : visitSlots enter leave owner path (f :: fs) (t :: ts) = (do
      let x ← visitSlot enter leave owner path f t
      if x.2 then return (x.1 :: ts, true)
      let y ← visitSlots enter leave owner path fs ts
      return (x.1 :: y.1, y.2)) := by
  unfold visitSlot
  cases t <;> cases hf : f.child <;> simp [visitSlots, hf]

theorem follows_visitSlot {f : Field} (h : AllFollow onEntry onExit skip stop owner path (occurrencesOf f t)) :
    Follows onEntry onExit stop (visitSlot (deciding skip stop onEntry) (proceeding onExit) owner path f t) t
      (callsOf skip owner path (occurrencesOf f t)) := by
  unfold visitSlot
  unfold occurrencesOf at h ⊢
  by_cases hf : f.child
  · rw [if_pos hf] at h ⊢
    rw [if_pos hf]
    cases t with
    | list items => exact (follows_visitItems h).map Tree.list
    | node | scalar | object => exact AllFollow.one h
  · rw [if_neg hf, if_neg hf]
    exact follows_pure t

theorem follows_visitSlots {fs : List Field}
    (h : AllFollow onEntry onExit skip stop owner path (occurrencesIn fs ts)) :
    Follows onEntry onExit stop
      (visitSlots (deciding skip stop onEntry) (proceeding onExit) owner path fs ts) ts
      (callsOf skip owner path (occurrencesIn fs ts)) := by
  fun_induction occurrencesIn fs ts with
  | case1 f fs t ts ih =>
    obtain ⟨ht, hts⟩ := forall_mem_append.mp h
    rw [visitSlots_cons, callsOf, flatMap_append]
    exact (follows_visitSlot ht).bind rfl ((ih hts).map (t :: ·))
  | case2 fs ts hne =>
    cases fs with
    | nil => cases ts <;> exact follows_pure _
    | cons f fs =>
      cases ts with
      | nil => exact follows_pure _
      | cons t ts => cases hne f fs t ts rfl rfl

theorem follows_finish (p : Place) (t : Tree) :
    Follows onEntry onExit stop (finish (proceeding onExit) p t) t [.left p] := by
  simp [Follows, finish, proceeding, through, Call.ends, perform]

/-- **A visit follows its calls.** -/
theorem follows_visitAt (t : Tree) (path : Path) :
    Follows onEntry onExit stop (t.visitAt (deciding skip stop onEntry) (proceeding onExit) path) t
      (t.callsAt skip path) := by
  induction t using occurrence_induction generalizing path with
  | h t ih =>
    rcases t.eq_node_or_not_node with ⟨i, s, slots, rfl⟩ | ht
    · rw [callsAt_of_isNode rfl, visitAt]
      simp only [deciding, decision, bind_assoc, pure_bind]
      cases hstop : stop (node i s slots) with
      | true => exact follows_stop hstop _ _
      | false =>
        refine Follows.entered ?_ hstop
        cases hskip : skip (node i s slots) with
        | true => exact follows_finish _ _
        | false =>
          have hslots := follows_visitSlots fun o ho => ih o ho (o.step (node i s slots) :: path)
          exact hslots.bind rfl (follows_finish _ _)
    · rw [callsAt_of_not_node ht]
      cases t with
      | node => cases ht
      | scalar | list | object => exact follows_pure _

end Follows

/-! ## What the calls are -/

theorem entries_callsAt (skip : Tree → Bool) (t : Tree) (path : Path) :
    entries (t.callsAt skip path) = t.placesAt skip path := by
  induction t using occurrence_induction generalizing path with
  | h t ih =>
    rcases t.eq_node_or_not_node with ⟨i, s, slots, rfl⟩ | ht
    · rw [callsAt_of_isNode rfl, placesAt_node]
      cases skip (node i s slots) with
      | true => rfl
      | false =>
        simp only [Bool.false_eq_true, if_false, entries, callsOf, filterMap_cons, Call.entry?, filterMap_append,
          filterMap_flatMap, filterMap_nil, append_nil, occurrences_node]
        exact congrArg _ (flatMap_congr fun o ho => ih o ho _)
    · rw [callsAt_of_not_node ht, placesAt_of_not_node ht]
      rfl

/-- Between the entry of a place and the exit from it stands the visit of what is below it, as `below` gives it. -/
def Bracketed (below : Place → List Place) (es : List Call) : Prop :=
  ∀ before p after, es = before ++ .entered p :: after → ∃ inner rest, after = inner ++ .left p :: rest ∧
    entries inner = below p ∧ (exits inner).Perm (entries inner)

/-- Besides, every place is left as often as it is entered. -/
structure Nested (below : Place → List Place) (es : List Call) : Prop where
  bracketed : Bracketed below es
  exits : (exits es).Perm (entries es)

section Nested

variable {below : Place → List Place} {es es' : List Call}

theorem Bracketed.append (h : Bracketed below es) (h' : Bracketed below es') : Bracketed below (es ++ es') := by
  intro before p after hsplit
  rcases append_eq_append_iff.mp hsplit with ⟨as, rfl, hes'⟩ | ⟨as, rfl, hes⟩
  · exact h' as p after hes'
  · cases as with
    | nil => exact h' [] p after hes.symm
    | cons e as =>
      cases hes
      obtain ⟨inner, rest, rfl, hinner⟩ := h before p as rfl
      exact ⟨inner, rest ++ es', by simp, hinner⟩

theorem nested_nil : Nested below [] := ⟨by simp [Bracketed], .nil⟩

theorem Nested.append (h : Nested below es) (h' : Nested below es') : Nested below (es ++ es') where
  bracketed := h.bracketed.append h'.bracketed
  exits := by
    unfold ArrowFree.exits entries
    rw [filterMap_append, filterMap_append]
    exact h.exits.append h'.exits

theorem nested_flatMap {α : Type} {os : List α} {f : α → List Call} (h : ∀ o ∈ os, Nested below (f o)) :
    Nested below (os.flatMap f) := by
  induction os with
  | nil => exact nested_nil
  | cons o os ih =>
    obtain ⟨ho, hos⟩ := forall_mem_cons.mp h
    exact ho.append (ih hos)

theorem Nested.wrap (h : Nested below es) {p : Place} (hp : entries es = below p) :
    Nested below (.entered p :: (es ++ [.left p])) where
  bracketed := by
    intro before q after hsplit
    cases before with
    | nil =>
      cases hsplit
      exact ⟨es, [], rfl, hp, h.exits⟩
    | cons e before =>
      have hleft : Bracketed below [.left p] := by simp [Bracketed, cons_eq_append_iff]
      exact h.bracketed.append hleft before q after (cons.inj hsplit).2
  exits := by
    have hexits : ArrowFree.exits (.entered p :: (es ++ [.left p])) = ArrowFree.exits es ++ [p] := filterMap_append
    have hentries : entries (.entered p :: (es ++ [.left p])) = p :: entries es := by
      simp [entries, Call.entry?]
    rw [hexits, hentries]
    exact (perm_append_singleton p _).trans (h.exits.cons p)

end Nested

theorem nested_callsAt (skip : Tree → Bool) (t : Tree) (path : Path) :
    Nested (fun p => (p.node.placesAt skip p.path).tail) (t.callsAt skip path) := by
  induction t using occurrence_induction generalizing path with
  | h t ih =>
    cases ht : t.isNode with
    | true =>
      have hentries := entries_callsAt skip t path
      rw [callsAt_of_isNode ht] at hentries ⊢
      refine Nested.wrap ?_ ?_
      · split
        · exact nested_nil
        · exact nested_flatMap fun o ho => ih o ho _
      · rw [← hentries]
        simp [entries, Call.entry?]
    | false =>
      rw [callsAt_of_not_node ht]
      exact nested_nil

/-! ## The loop over a stack -/

theorem nodes_placesAt (skip : Tree → Bool) (t : Tree) (path : Path) :
    (t.placesAt skip path).map (·.node) = (t.placesAt skip []).map (·.node) := by
  rw [placesAt_eq_map, map_map]
  rfl

theorem flatMap_pushed (skip : Tree → Bool) (os : List Occurrence) (stack : List Tree) :
    (pushed os stack).flatMap (fun t => (t.placesAt skip []).map (·.node)) =
      os.flatMap (fun o => (o.tree.placesAt skip []).map (·.node)) ++
        stack.flatMap fun t => (t.placesAt skip []).map (·.node) := by
  induction os with
  | nil => rfl
  | cons o os ih =>
    rw [← singleton_append, pushed_append, singleton_append, flatMap_cons, append_assoc, ← ih, pushed]
    cases ho : o.tree.isNode with
    | true => simp [ho]
    | false => simp [ho, placesAt_of_not_node ho]

theorem nodesFrom_eq (skip : Tree → Bool) (stack : List Tree) (h : ∀ t ∈ stack, t.isNode) :
    nodesFrom skip stack = stack.flatMap fun t => (t.placesAt skip []).map (·.node) := by
  fun_induction nodesFrom skip stack with
  | case1 => rfl
  | case2 t stack ih =>
    obtain ⟨ht, hstack⟩ := forall_mem_cons.mp h
    rcases t.eq_node_or_not_node with ⟨i, s, slots, rfl⟩ | hnot
    · rw [flatMap_cons, placesAt_node, map_cons, cons_append]
      congr 1
      cases hskip : skip (node i s slots) with
      | true =>
        rw [hskip] at ih
        exact ih hstack
      | false =>
        rw [hskip] at ih
        refine (ih ?_).trans ((flatMap_pushed skip _ stack).trans ?_)
        · intro u hu
          rcases mem_append.mp hu with hu | hu
          · obtain ⟨o, ho, rfl⟩ := mem_map.mp hu
            exact (mem_filter.mp ho).2
          · exact hstack u hu
        · rw [if_neg Bool.false_ne_true, map_flatMap]
          congr 1
          exact flatMap_congr fun o _ => (nodes_placesAt skip o.tree _).symm
    · rw [hnot] at ht
      cases ht

theorem nodesSkipping_eq (skip : Tree → Bool) (h : t.isNode) (path : Path) :
    t.nodesSkipping skip = (t.placesAt skip path).map (·.node) := by
  rw [nodesSkipping, nodesFrom_eq skip [t] (by simpa using h), flatMap_singleton, nodes_placesAt skip t path]

/-! ## Both -/

/-- Writes a call down. -/
def note (e : Call) : StateM (List Call) Unit := fun log => pure ((), log ++ [e])

/-- What a visit does whose callbacks decide by the node alone whether to end and whether to skip the children. -/
def heard (skip stop : Tree → Bool) (t : Tree) : List Call :=
  ((t.visit (deciding skip stop fun p => note (.entered p)) (proceeding fun p => note (.left p))).run []).2

theorem forM_note (es log : List Call) :
    es.forM (perform (fun p => note (.entered p)) fun p => note (.left p)) log = ((), log ++ es) := by
  induction es generalizing log with
  | nil => simp; rfl
  | cons e es ih =>
    cases e <;> exact (ih (log ++ [_])).trans (by rw [append_assoc]; rfl)

theorem heard_eq (skip stop : Tree → Bool) (t : Tree) :
    t.heard skip stop = through (Call.ends stop) (t.callsAt skip []) := by
  have hfollows : Follows (fun p => note (.entered p)) (fun p => note (.left p)) stop _ t (t.callsAt skip []) :=
    follows_visitAt t []
  unfold Follows at hfollows
  rw [heard, visit, hfollows]
  exact congrArg Prod.snd (forM_note (through (Call.ends stop) (t.callsAt skip [])) [])

theorem entries_through (stop : Tree → Bool) (es : List Call) :
    (entries (through (Call.ends stop) es)).map (·.node) = through stop ((entries es).map (·.node)) := by
  induction es with
  | nil => rfl
  | cons e es ih =>
    cases e with
    | entered p => cases h : stop p.node <;> simp_all [through, Call.ends, entries, Call.entry?]
    | left p => exact ih

/-- **The two traversals agree.** A visit that skips the children of some nodes enters the nodes that the loop over a
stack comes to, in the same order. Each is left once, after everything below it has been entered and left. If the
visit is to end at some nodes, it enters the same nodes up to the first of these. -/
theorem visit_agrees_with_iteration {t : Tree} (ht : t.isNode) (skip stop : Tree → Bool) :
    (entries (t.heard skip fun _ => false)).map (·.node) = t.nodesSkipping skip ∧
      (exits (t.heard skip fun _ => false)).Perm (entries (t.heard skip fun _ => false)) ∧
      (∀ before p after, (t.heard skip fun _ => false) = before ++ .entered p :: after →
        ∃ inner rest, after = inner ++ .left p :: rest ∧
          (entries inner).map (·.node) = (p.node.nodesSkipping skip).tail ∧ (exits inner).Perm (entries inner)) ∧
      (entries (t.heard skip stop)).map (·.node) =
        (t.nodesSkipping skip).take ((t.nodesSkipping skip).findIdx stop + 1) := by
  have hall : (t.heard skip fun _ => false) = t.callsAt skip [] := by
    rw [heard_eq, through_of_not_any (any_ends_never _)]
  have hnested := nested_callsAt skip t []
  rw [hall, heard_eq, entries_through, entries_callsAt, ← nodesSkipping_eq skip ht, ← through_eq_take]
  refine ⟨rfl, entries_callsAt skip t [] ▸ hnested.exits, fun before p after hsplit => ?_, rfl⟩
  obtain ⟨inner, rest, hafter, hinner, hexits⟩ := hnested.bracketed before p after hsplit
  refine ⟨inner, rest, hafter, ?_, hexits⟩
  have hmem : p ∈ t.placesAt skip [] := by
    rw [← entries_callsAt, hsplit]
    exact mem_filterMap.mpr ⟨.entered p, by simp, rfl⟩
  have hp := isNode_of_mem_places (mem_placesAt_skip.mp hmem).1
  rw [hinner, nodesSkipping_eq skip hp p.path, map_tail]

/-- A node of unknown type with a list of nodes, other values and a list within. -/
def mixedBody : Tree :=
  let name (x : Text) : Tree := .identifier x none
  .node {} (.other (.text "ClassBody") ["body", "kind"]) [.list [name "a", .null, .text "x", .list [name "b"],
    .mk .returnStatement none [name "c"], name "d"], .mk .thisExpression none []]

/-- The children of the returned value are skipped, and the item in the inner list is no child. -/
theorem visit_agrees_with_iteration_mixedBody : mixedBody.isNode ∧
    ((entries (mixedBody.heard (·.is .returnStatement) fun _ => false)).map (·.node)).filterMap name? = ["a", "d"] ∧
    ((entries (mixedBody.heard (·.is .returnStatement) (·.is .returnStatement))).map
      (·.node)).filterMap name? = ["a"] := by
  have hnode : mixedBody.isNode := rfl
  obtain ⟨hentered, -, -, hstopped⟩ :=
    visit_agrees_with_iteration hnode (·.is .returnStatement) (·.is .returnStatement)
  rw [hentered, hstopped, nodesSkipping_eq _ hnode []]
  exact ⟨hnode, rfl, rfl⟩

end Tree

end ArrowFree
