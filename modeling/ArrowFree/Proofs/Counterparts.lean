import ArrowFree.Proofs.Additions
import ArrowFree.Proofs.Lowered

/-!
# Counterparts of places

Every place of a tree has a counterpart in the lowered tree, and the counterparts stand in the same
order (`matches_of_apply`). What else stands there was made by lowering: the parts of `.bind(this)`, the
block and the return around a concise body, and one declaration in each function that keeps its
arguments.

`Follows a π π'` says how paths correspond: a step out of a node that stays is a step out of the same
node, and a step out of an arrow is a step out of the function that stands for it, followed by the way
out of `.bind(this)` if there is one.
-/

namespace ArrowFree.Lowering

open ArrowFree.Tree List

variable {a : Analysis}
variable {π π' : Path} {t body params body' params' : Tree} {fs : List Field} {os os' : List Occurrence} {i : Info}
  {ts slots' bslots bslots' ss rest : List Tree} {o : Occurrence} {kb k : Kind}
variable {name : Text} {slots : List Tree} {s : Shape} {u id' : Tree} {id : NodeId} {ib : Info}

/-! ## Attributes of a node that stays -/

/-- The slots of a field before and after lowering. -/
inductive Slotted (a : Analysis) (fs : List Field) (name : Text) : Option Tree → Option Tree → Prop
  | missing : Slotted a fs name none none
  | slot {f : Field} {v v' : Tree} (hf : f ∈ fs) (hname : f.name = name)
      (h : applySlot a f v = (v', none)) : Slotted a fs name (some v) (some v')

/-- Lowering changes the fields of a node that stays one by one, the statements of a body and the short
form of a property apart. -/
def Agrees (a : Analysis) (fs : List Field) (slots slots' : List Tree) : Prop :=
  ∀ name : Text, name ≠ "body" → name ≠ "shorthand" →
    Slotted a fs name (slot? name fs slots) (slot? name fs slots')

theorem Slotted.weaken {g : Field} {v v' : Option Tree} (h : Slotted a fs name v v') :
    Slotted a (g :: fs) name v v' := by
  cases h with
  | missing => exact .missing
  | slot hf hname happly => exact .slot (.tail _ hf) hname happly

theorem slotted_applySlots {ts' : List Tree} (h : applySlots a fs ts = (ts', none)) (name : Text) :
    Slotted a fs name (slot? name fs ts) (slot? name fs ts') := by
  induction fs generalizing ts ts' with
  | nil =>
    rw [slot?, slot?]
    · exact .missing
    · simp
    · simp
  | cons f fs ih =>
    cases ts with
    | nil =>
      cases h
      exact .missing
    | cons t ts =>
      obtain ⟨t', ts', rfl, ht, hts⟩ := applySlots_cons_ok.mp h
      rw [slot?, slot?]
      by_cases hf : f.name = name
      · rw [if_pos hf, if_pos hf]
        exact .slot mem_cons_self hf ht
      · rw [if_neg hf, if_neg hf]
        exact (ih hts).weaken

theorem slot?_setSlot_of_ne {other : Text} (h : name ≠ other) (v : Tree) (fs : List Field)
    (ts : List Tree) : slot? name fs (setSlot other v fs ts) = slot? name fs ts := by
  induction fs generalizing ts with
  | nil => cases ts <;> rfl
  | cons f fs ih =>
    cases ts with
    | nil => rfl
    | cons t ts =>
      by_cases hf : f.name = other
      · rw [setSlot, if_pos hf, slot?, slot?, hf, if_neg h.symm, if_neg h.symm]
      · rw [setSlot, if_neg hf, slot?, slot?, ih]

theorem slot?_written_of_ne (h : name ≠ "shorthand") (s : Shape) (before after : List Tree) :
    slot? name s.fields (written a s before after) = slot? name s.fields after := by
  cases s with
  | other t names => rfl
  | known k =>
    show slot? name k.layout (writeOut a k before after) = _
    unfold writeOut
    split
    · split
      · simp only [Shape.fields, Kind.layout, slot?, Field.attrOr, if_neg h.symm]
      · rfl
    · rfl

theorem agrees_written (h : applySlots a s.fields slots = (slots', none)) :
    Agrees a s.fields slots (written a s slots slots') := by
  intro name _ hshort
  rw [slot?_written_of_ne hshort]
  exact slotted_applySlots h name

theorem Agrees.setBody (h : Agrees a fs slots slots') (v : Tree) :
    Agrees a fs slots (setSlot "body" v fs slots') := by
  intro name hbody hshort
  rw [slot?_setSlot_of_ne hbody]
  exact h name hbody hshort

/-! ## Paths -/

/-- The way out of `f.bind(this)` if the function for an arrow is bound. -/
def bindSteps (a : Analysis) (i : Info) (function : Tree) : Path :=
  if a.capturesThis i.id then
    [⟨bindMember i.id i.location function, "object", none⟩,
     ⟨bound i.id i.location function, "callee", none⟩]
  else []

/-- How a path is found again after lowering. -/
inductive Follows (a : Analysis) : Path → Path → Prop
  | root : Follows a [] []
  /-- Out of a node that stays. Its items may have moved to make room for a declaration. -/
  | kept {i : Info} {s : Shape} {slots slots' : List Tree} {field : Text} {n n' : Option Nat}
      {π π' : Path} (harrow : (Tree.node i s slots).isArrow = false)
      (hslots : Agrees a s.fields slots slots')
      (hbody : s = .known .blockStatement →
        Place.isOwnedBody ⟨.node i s slots', π'⟩ = Place.isOwnedBody ⟨.node i s slots, π⟩)
      (h : Follows a π π') :
      Follows a (⟨.node i s slots, field, n⟩ :: π) (⟨.node i s slots', field, n'⟩ :: π')
  /-- Out of a parameter of an arrow. -/
  | parameter {i : Info} {slots : List Tree} {params body : Tree} {n : Option Nat} {π π' : Path}
      (h : Follows a π π') :
      Follows a (⟨.node i (.known .arrowFunctionExpression) slots, "params", n⟩ :: π)
        (⟨functionFor i params body, "params", n⟩ ::
          (bindSteps a i (functionFor i params body) ++ π'))
  /-- Out of the block of an arrow. -/
  | block {i : Info} {slots : List Tree} {params body : Tree} {π π' : Path}
      (hblock : body.is .blockStatement) (h : Follows a π π') :
      Follows a (⟨.node i (.known .arrowFunctionExpression) slots, "body", none⟩ :: π)
        (⟨functionFor i params body, "body", none⟩ ::
          (bindSteps a i (functionFor i params body) ++ π'))
  /-- Out of the concise body of an arrow. -/
  | concise {i : Info} {slots : List Tree} {params body : Tree} {π π' : Path}
      (hblock : body.is .blockStatement = false) (h : Follows a π π') :
      Follows a (⟨.node i (.known .arrowFunctionExpression) slots, "body", none⟩ :: π)
        (⟨returnFor i.id body, "argument", none⟩ :: ⟨returning i.id body, "body", some 0⟩ ::
          ⟨functionFor i params body, "body", none⟩ ::
            (bindSteps a i (functionFor i params body) ++ π'))

/-! ## Places -/

/-- The place that a place has become. -/
inductive Counterpart (a : Analysis) : Place → Place → Prop
  | renamed {i : Info} {slots : List Tree} {name : Text} {π π' : Path}
      (hname : a.replacement? i.id = some name) (h : Follows a π π') :
      Counterpart a ⟨.node i (.known .identifier) slots, π⟩
        ⟨.node ⟨.renamed i.id, i.location⟩ (.known .identifier) [.text name], π'⟩
  | kept {i : Info} {s : Shape} {slots slots' : List Tree} {π π' : Path}
      (hname : rename? a (.node i s slots) = none)
      (harrow : (Tree.node i s slots).isArrow = false) (hslots : Agrees a s.fields slots slots')
      (hbody : s = .known .blockStatement →
        Place.isOwnedBody ⟨.node i s slots', π'⟩ = Place.isOwnedBody ⟨.node i s slots, π⟩)
      (h : Follows a π π') :
      Counterpart a ⟨.node i s slots, π⟩ ⟨.node i s slots', π'⟩
  | arrow {i : Info} {params body params' body' : Tree} {rest : List Tree} {π π' : Path}
      (hparams : applySlot a (.sub "params") params = (params', none))
      (hbody : apply a body = (body', none)) (hnode : body'.isNode) (h : Follows a π π') :
      Counterpart a ⟨.node i (.known .arrowFunctionExpression) (params :: body :: rest), π⟩
        ⟨functionFor i params' body', bindSteps a i (functionFor i params' body') ++ π'⟩

/-- The places of the declaration in the body of a function that keeps its arguments. -/
def hoistPlaces (function body : Tree) (n : Nat) (name : Text) (π : Path) : List Place :=
  (bindingDeclaration function.id name).placesAt (fun _ => false)
    (⟨body, "body", some n⟩ :: ⟨function, "body", none⟩ :: π)

/-- The places of a lowered tree beside those of the tree: counterparts in the same order, and made
places in between. The functions whose declarations are among them are listed as well. -/
inductive Matches (a : Analysis) : List Place → List Place → List NodeId → Prop
  | nil : Matches a [] [] []
  | both {p p' : Place} {ps ps' : List Place} {fs : List NodeId} (hp : Counterpart a p p')
      (h : Matches a ps ps' fs) : Matches a (p :: ps) (p' :: ps') fs
  /-- A made place that adds nothing to the scopes. -/
  | inert {p' : Place} {ps ps' : List Place} {fs : List NodeId} (hp : p'.additions = .ok [])
      (h : Matches a ps ps' fs) : Matches a ps (p' :: ps') fs
  /-- A declaration that keeps the arguments of a function. -/
  | hoist {function body : Tree} {n : Nat} {name : Text} {π : Path} {ps ps' : List Place}
      {fs : List NodeId} (hfun : function.isOrdinaryFunction)
      (hname : a.hoistedNames.get? function.id = some name) (h : Matches a ps ps' fs) :
      Matches a ps (hoistPlaces function body n name π ++ ps') (function.id :: fs)

namespace Matches

variable {ps ps' : List Place} {fs : List NodeId}

theorem append {qs qs' : List Place} {gs : List NodeId} (hp : Matches a ps ps' fs) (hq : Matches a qs qs' gs) :
    Matches a (ps ++ qs) (ps' ++ qs') (fs ++ gs) := by
  induction hp with
  | nil => exact hq
  | both hp _ ih => exact .both hp ih
  | inert hp _ ih => exact .inert hp ih
  | hoist hfun hname _ ih =>
    rw [append_assoc]
    exact .hoist hfun hname ih

theorem mem (h : Matches a ps ps' fs) {p : Place} (hp : p ∈ ps) : ∃ p' ∈ ps', Counterpart a p p' := by
  induction h with
  | nil => simp at hp
  | both hq _ ih =>
    rcases mem_cons.mp hp with rfl | hp
    · exact ⟨_, mem_cons_self, hq⟩
    · obtain ⟨p', hp', hc⟩ := ih hp
      exact ⟨p', mem_cons_of_mem _ hp', hc⟩
  | inert _ _ ih =>
    obtain ⟨p', hp', hc⟩ := ih hp
    exact ⟨p', mem_cons_of_mem _ hp', hc⟩
  | hoist _ _ _ ih =>
    obtain ⟨p', hp', hc⟩ := ih hp
    exact ⟨p', mem_append_right _ hp', hc⟩

theorem mem_right (h : Matches a ps ps' fs) {p' : Place} (hp' : p' ∈ ps') :
    (∃ p ∈ ps, Counterpart a p p') ∨ p'.additions = .ok [] ∨
      ∃ function body n name π, p' ∈ hoistPlaces function body n name π := by
  induction h with
  | nil => simp at hp'
  | both hq _ ih =>
    rcases mem_cons.mp hp' with rfl | hp'
    · exact Or.inl ⟨_, mem_cons_self, hq⟩
    · rcases ih hp' with ⟨p, hp, hc⟩ | hmade
      · exact Or.inl ⟨p, mem_cons_of_mem _ hp, hc⟩
      · exact Or.inr hmade
  | inert hq _ ih =>
    rcases mem_cons.mp hp' with rfl | hp'
    · exact Or.inr (Or.inl hq)
    · exact ih hp'
  | hoist _ _ _ ih =>
    rcases mem_append.mp hp' with hp' | hp'
    · exact Or.inr (Or.inr ⟨_, _, _, _, _, hp'⟩)
    · exact ih hp'

theorem hoisted {ps ps' : List Place} {fs : List NodeId} (h : Matches a ps ps' fs) {f : NodeId}
    (hf : f ∈ fs) : ∃ function body n name π, function.id = f ∧ a.hoistedNames.get? f = some name ∧
      hoistPlaces function body n name π ⊆ ps' := by
  induction h with
  | nil => cases hf
  | both _ _ ih | inert _ _ ih =>
    obtain ⟨function, body, n, name, π, hid, hname, hsub⟩ := ih hf
    exact ⟨function, body, n, name, π, hid, hname, subset_cons_of_subset _ hsub⟩
  | hoist _ hname _ ih =>
    rcases mem_cons.mp hf with rfl | hf
    · exact ⟨_, _, _, _, _, rfl, hname, subset_append_left _ _⟩
    · obtain ⟨function, body, n, name, π, hid, hname, hsub⟩ := ih hf
      exact ⟨function, body, n, name, π, hid, hname, subset_append_of_subset_right _ hsub⟩

end Matches

/-! ## Functions that keep their arguments -/

/-- The functions of a tree that get a declaration. -/
def hoistTargets (a : Analysis) (t : Tree) : List NodeId :=
  (t.nodes.filter fun n => n.isOrdinaryFunction && a.isHoistTarget n.id).map Tree.id

theorem hoistTargets_of_not_node (h : t.isNode = false) : hoistTargets a t = [] := by
  rw [hoistTargets, nodes_of_not_node h]
  rfl

theorem hoistTargets_node (i : Info) (s : Shape) (slots : List Tree) :
    hoistTargets a (.node i s slots) =
      (if (Tree.node i s slots).isOrdinaryFunction && a.isHoistTarget i.id then [i.id] else []) ++
        (occurrencesIn s.fields slots).flatMap fun o => hoistTargets a o.tree := by
  unfold hoistTargets
  rw [nodes_node, filter_cons, filter_flatMap, ← map_flatMap]
  show map _ (if (Tree.node i s slots).isOrdinaryFunction && a.isHoistTarget i.id then _
    else _) = _
  split
  · rfl
  · rfl

/-- Both trees with the paths to them: their places match, and the functions that get a declaration
are those of the first. -/
def Placed (a : Analysis) (t u : Tree) (π π' : Path) : Prop :=
  ∃ fs, Matches a (t.placesAt (fun _ => false) π) (u.placesAt (fun _ => false) π') fs ∧
    fs.Perm (hoistTargets a t)

/-- An occurrence, and the one that stands for it in the same field. -/
structure Moved (a : Analysis) (o o' : Occurrence) : Prop where
  field : o'.field = o.field
  tree : apply a o.tree = (o'.tree, none)

theorem Carried.moved {o' : Occurrence} (h : Carried a o o') : Moved a o o' := ⟨h.field, h.tree⟩

theorem moved_of_carried (h : Forall₂ (Carried a) os os') :
    Forall₂ (Moved a) os os' := h.imp fun _ _ hc => hc.moved

/-- Items may be numbered from anywhere on. -/
theorem moved_renumber {field : Text} {m n : Nat} {after : List Occurrence}
    (h : Forall₂ (Moved a) os (itemsFrom field m ts ++ after)) :
    Forall₂ (Moved a) os (itemsFrom field n ts ++ after) := by
  induction ts generalizing m n os with
  | nil => exact h
  | cons t ts ih =>
    rw [itemsFrom, cons_append] at h ⊢
    obtain ⟨o, os, ho, hos, rfl⟩ := forall₂_cons_right_iff.mp h
    exact .cons ⟨ho.field, ho.tree⟩ (ih hos)

/-- What occurs in the body of a function with its declaration: the declaration, and around it what
stands for the old occurrences. -/
theorem moved_statements (d : Tree) (hslots : applySlots a kb.layout bslots = (bslots', none))
    (hss : slot? "body" kb.layout (written a (.known kb) bslots bslots') = some (.list ss)) :
    ∃ n os₁ os₂ os₁' os₂', occurrencesIn kb.layout bslots = os₁ ++ os₂ ∧
      occurrencesIn kb.layout (setSlot "body" (.list (insertStatement d ss)) kb.layout
        (written a (.known kb) bslots bslots')) = os₁' ++ ⟨"body", some n, d⟩ :: os₂' ∧
      Forall₂ (Moved a) os₁ os₁' ∧ Forall₂ (Moved a) os₂ os₂' := by
  obtain ⟨before, after, hcarried, hset⟩ := carried_statements hslots hss
  -- The statements split at the end of the directives; those behind it move by one.
  have hsplit : before ++ itemsFrom "body" 0 ss ++ after =
      (before ++ itemsFrom "body" 0 (ss.takeWhile isDirective)) ++
        (itemsFrom "body" (ss.takeWhile isDirective).length (ss.dropWhile isDirective) ++ after) := by
    conv_lhs => rw [← takeWhile_append_dropWhile (p := isDirective) (l := ss)]
    rw [itemsFrom_append, Nat.zero_add]
    simp only [append_assoc]
  rw [hsplit] at hcarried
  have hmoved := moved_of_carried hcarried
  have hfirst := forall₂_take_append _ _ _ hmoved
  have hsecond := forall₂_drop_append _ _ _ hmoved
  refine ⟨(ss.takeWhile isDirective).length, _, _, _, _, (take_append_drop _ _).symm, ?_,
    hfirst, moved_renumber (n := (ss.takeWhile isDirective).length + 1) hsecond⟩
  rw [hset, insertStatement, itemsFrom_append, Nat.zero_add, itemsFrom]
  simp only [append_assoc, cons_append]

theorem matches_flatMap {R : Occurrence → Occurrence → Prop} (h : Forall₂ R os os')
    {f g : Occurrence → List Place}
    (hstep : ∀ o ∈ os, ∀ o', R o o' → ∃ fs, Matches a (f o) (g o') fs ∧ fs.Perm (hoistTargets a o.tree)) :
    ∃ fs, Matches a (os.flatMap f) (os'.flatMap g) fs ∧
      fs.Perm (os.flatMap fun o => hoistTargets a o.tree) := by
  induction h with
  | nil => exact ⟨[], .nil, .nil⟩
  | cons hr _ ih =>
    obtain ⟨fs, hm, hperm⟩ := hstep _ mem_cons_self _ hr
    obtain ⟨gs, hms, hperms⟩ := ih fun o ho => hstep o (.tail _ ho)
    exact ⟨fs ++ gs, hm.append hms, hperm.append hperms⟩

theorem is_node (i j : Info) (s : Shape) (slots slots' : List Tree) (k : Kind) :
    (Tree.node i s slots).is k = (Tree.node j s slots').is k := by
  unfold Tree.is
  rw [kind?_node i j s slots slots']

theorem isFunction_node (i j : Info) (s : Shape) (slots slots' : List Tree) :
    (Tree.node i s slots).isFunction = (Tree.node j s slots').isFunction := by
  unfold isFunction
  rw [kind?_node i j s slots slots']

theorem isOwnedBody_step (t : Tree) (s : Step) (π : Path) : Place.isOwnedBody ⟨t, s :: π⟩ =
      (decide (s.field = "body") && (s.owner.isFunction || s.owner.is .catchClause)) := rfl

/-- The hypothesis of the induction: what is shown of the trees that occur in a tree. -/
def PlacedBelow (a : Analysis) (t : Tree) : Prop :=
  ∀ {u : Tree} {π π' : Path}, apply a t = (u, none) → Follows a π π' →
    (t.is .blockStatement → Place.isOwnedBody ⟨u, π'⟩ = Place.isOwnedBody ⟨t, π⟩) → Placed a t u π π'

theorem placed_children (harrow : (Tree.node i s slots).isArrow = false)
    (hslots : Agrees a s.fields slots slots')
    (hbody : s = .known .blockStatement →
      Place.isOwnedBody ⟨.node i s slots', π'⟩ = Place.isOwnedBody ⟨.node i s slots, π⟩)
    (hf : Follows a π π') (hos : Forall₂ (Moved a) os os')
    (ih : ∀ o ∈ os, PlacedBelow a o.tree) :
    ∃ fs, Matches a
      (os.flatMap fun o => o.tree.placesAt (fun _ => false) (o.step (.node i s slots) :: π))
      (os'.flatMap fun o => o.tree.placesAt (fun _ => false) (o.step (.node i s slots') :: π')) fs ∧
      fs.Perm (os.flatMap fun o => hoistTargets a o.tree) := by
  refine matches_flatMap hos ?_
  intro o ho o' hmoved
  have hstep : Follows a (o.step (.node i s slots) :: π) (o'.step (.node i s slots') :: π') := by
    rw [Occurrence.step, Occurrence.step, hmoved.field]
    exact .kept harrow hslots hbody hf
  refine ih o ho hmoved.tree hstep ?_
  intro _
  rw [isOwnedBody_step, isOwnedBody_step, Occurrence.step, Occurrence.step, hmoved.field,
    isFunction_node i i s slots' slots, is_node i i s slots' slots]

theorem field_of_mem_occurrencesOf {f : Field} (h : o ∈ occurrencesOf f t) : o.field = f.name := by
  unfold occurrencesOf at h
  split at h
  · split at h
    · exact (mem_itemsFrom h).1
    · rw [mem_singleton.mp h]
  · simp at h

theorem field_of_mem_occurrencesIn (h : o ∈ occurrencesIn fs ts) : ∃ f ∈ fs, o.field = f.name := by
  induction fs generalizing ts with
  | nil => cases h
  | cons f fs ih =>
    cases ts with
    | nil => cases h
    | cons t ts =>
      rw [occurrencesIn_cons] at h
      rcases mem_append.mp h with h | h
      · exact ⟨f, mem_cons_self, field_of_mem_occurrencesOf h⟩
      · obtain ⟨g, hg, hfield⟩ := ih h
        exact ⟨g, mem_cons_of_mem _ hg, hfield⟩

/-- Lowering makes functions and calls of arrows; else the kind of a node stays. -/
theorem is_apply_eq (h : apply a t = (u, none))
    (hk : k ∉ [.arrowFunctionExpression, .functionExpression, .callExpression]) : u.is k = t.is k := by
  simp only [mem_cons, not_mem_nil, or_false, not_or] at hk
  cases lowers_of_apply h with
  | value | renamed => rfl
  | @kept i s slots slots' hname harrow hfun hslots => exact is_node i i s _ slots _
  | arrow hparams hbody hnode =>
    have hno {i : Info} {slots : List Tree} {k' : Kind} (hk' : k ≠ k') :
        (Tree.node i (.known k') slots).is k = false := by simpa [Tree.is, kind?] using hk'.symm
    unfold standIn
    split
    · exact (hno hk.2.2).trans (hno hk.1).symm
    · exact (hno hk.2.1).trans (hno hk.1).symm
  | hoisted hk hname hid hparams hbname harrow hbfun hslots hss => rfl

theorem placed_body (i : Info) (slots : List Tree) (params' : Tree) (hf : Follows a π π')
    (hbody : apply a body = (body', none)) (hnode : body'.isNode) (ih : PlacedBelow a body) :
    Placed a body (blockFor i.id body')
      (⟨.node i (.known .arrowFunctionExpression) slots, "body", none⟩ :: π)
      (⟨functionFor i params' body', "body", none⟩ ::
        (bindSteps a i (functionFor i params' body') ++ π')) := by
  by_cases hblock : body'.is .blockStatement
  · have hfor : blockFor i.id body' = body' := if_pos hblock
    rw [hfor]
    exact ih hbody (.block hblock hf) fun _ => rfl
  · have hfor : blockFor i.id body' = returning i.id body' := if_neg hblock
    have hno : body.is .blockStatement ≠ true := fun h => hblock ((is_apply_eq hbody (by decide)).trans h)
    have hstep : Follows a (⟨.node i (.known .arrowFunctionExpression) slots, "body", none⟩ :: π)
        (⟨returnFor i.id body', "argument", none⟩ :: ⟨returning i.id body', "body", some 0⟩ ::
          ⟨functionFor i params' body', "body", none⟩ ::
            (bindSteps a i (functionFor i params' body') ++ π')) :=
      .concise (by simpa using hblock) hf
    obtain ⟨fs, hm, hperm⟩ := ih hbody hstep fun h => absurd h hno
    refine ⟨fs, ?_, hperm⟩
    rw [hfor, placesAt_of_isNode (t := returning i.id body') rfl, occurrences_returning,
      flatMap_singleton, placesAt_of_isNode (t := returnFor i.id body') rfl,
      occurrences_returnFor hnode, flatMap_singleton]
    exact .inert rfl (.inert rfl hm)

theorem placed_arrow (hf : Follows a π π') (hparams : applySlot a (.sub "params") params = (params', none))
    (hbody : apply a body = (body', none)) (hnode : body'.isNode)
    (ih : ∀ o ∈ (Tree.node i (.known .arrowFunctionExpression) (params :: body :: rest)).occurrences,
      PlacedBelow a o.tree) :
    Placed a (.node i (.known .arrowFunctionExpression) (params :: body :: rest))
      (functionFor i params' body') π (bindSteps a i (functionFor i params' body') ++ π') := by
  have hbodyNode : body.isNode := (isNode_apply hbody).symm.trans hnode
  rw [occurrences_arrow i params rest hbodyNode] at ih
  obtain ⟨fs, hm, hperm⟩ := matches_flatMap (carried_slot hparams)
    (f := fun o => o.tree.placesAt (fun _ => false)
      (o.step (.node i (.known .arrowFunctionExpression) (params :: body :: rest)) :: π))
    (g := fun o => o.tree.placesAt (fun _ => false) (o.step (functionFor i params' body') ::
        (bindSteps a i (functionFor i params' body') ++ π')))
    (fun o ho o' hc => by
      have hfield : o.field = "params" := field_of_mem_occurrencesOf ho
      have hstep : Follows a
          (o.step (.node i (.known .arrowFunctionExpression) (params :: body :: rest)) :: π)
          (o'.step (functionFor i params' body') ::
            (bindSteps a i (functionFor i params' body') ++ π')) := by
        rw [Occurrence.step, Occurrence.step, hc.field, hc.index, hfield]
        exact .parameter hf
      refine ih o (mem_append_left _ ho) hc.tree hstep ?_
      intro _
      rw [isOwnedBody_step, isOwnedBody_step, Occurrence.step, Occurrence.step, hc.field, hfield]
      rfl)
  obtain ⟨gs, hmb, hpermb⟩ := placed_body i (params :: body :: rest) params' hf
    hbody hnode (ih ⟨"body", none, body⟩ (by simp))
  refine ⟨fs ++ gs, ?_, ?_⟩
  · rw [placesAt_of_isNode rfl, placesAt_of_isNode rfl, occurrences_arrow i params rest hbodyNode,
      occurrences_functionFor hnode, flatMap_cons, flatMap_append, flatMap_append,
      flatMap_singleton, flatMap_singleton, placesAt_of_not_node (t := .null) rfl,
      nil_append]
    exact .both (.arrow hparams hbody hnode hf) (hm.append hmb)
  · rw [hoistTargets_node, ← occurrences_node i, occurrences_arrow i params rest hbodyNode,
      flatMap_append, flatMap_singleton]
    exact hperm.append hpermb

theorem placed_standIn
    (h : Placed a t (functionFor i params body) π (bindSteps a i (functionFor i params body) ++ π')) :
    Placed a t (standIn a i params body) π π' := by
  obtain ⟨fs, hm, hperm⟩ := h
  refine ⟨fs, ?_, hperm⟩
  unfold standIn
  unfold bindSteps at hm
  by_cases hthis : a.capturesThis i.id
  · rw [if_pos hthis] at hm ⊢
    have hnode : (functionFor i params body).isNode := rfl
    generalize functionFor i params body = function at hm hnode ⊢
    rw [placesAt_of_isNode (t := bound i.id i.location function) rfl, occurrences_bound,
      flatMap_cons, placesAt_of_isNode (t := bindMember i.id i.location function) rfl,
      occurrences_bindMember _ _ hnode, flatMap_cons, cons_append, append_assoc,
      ← append_nil (t.placesAt _ π), ← append_nil fs]
    exact .inert rfl (.inert rfl (hm.append (.inert rfl (.inert rfl .nil))))
  · rw [if_neg hthis] at hm ⊢
    exact hm

theorem agrees_function {id : Tree} {rest' : List Tree} (hk : k.isOrdinaryFunction)
    (hid : applySlot a (.sub "id") id = (id', none))
    (hparams : applySlot a (.sub "params") params = (params', none)) :
    Agrees a k.layout (id :: params :: body :: rest) (id' :: params' :: body' :: rest') := by
  intro name hbody _
  rw [layout_of_isOrdinaryFunction hk]
  have hlast : (Field.sub "body").name ≠ name := fun h => hbody h.symm
  simp only [slot?, if_neg hlast]
  by_cases hfirst : (Field.sub "id").name = name
  · rw [if_pos hfirst, if_pos hfirst]
    exact .slot (by simp) hfirst hid
  rw [if_neg hfirst, if_neg hfirst]
  by_cases hsecond : (Field.sub "params").name = name
  · rw [if_pos hsecond, if_pos hsecond]
    exact .slot (by simp) hsecond hparams
  rw [if_neg hsecond, if_neg hsecond]
  exact .missing

theorem isHoistTarget_of_get? (h : a.hoistedNames.get? id = some name) : a.isHoistTarget id := by
  unfold Analysis.isHoistTarget NodeMap.contains
  rw [h]
  rfl

theorem not_isHoistTarget (h : a.hoistedNames.get? id = none) : a.isHoistTarget id = false := by
  unfold Analysis.isHoistTarget NodeMap.contains
  rw [h]
  rfl

theorem placed_hoistedBody (function function' : Tree) (hfun : function'.isOrdinaryFunction)
    (hname : a.hoistedNames.get? function'.id = some name)
    (hbname : rename? a (.node ib (.known kb) bslots) = none)
    (hbarrow : (Tree.node ib (.known kb) bslots).isArrow = false)
    (hbfun : (Tree.node ib (.known kb) bslots).isOrdinaryFunction → a.hoistedNames.get? ib.id = none)
    (hslots : applySlots a kb.layout bslots = (bslots', none))
    (hss : slot? "body" kb.layout (written a (.known kb) bslots bslots') = some (.list ss))
    (hf : Follows a (⟨function, "body", none⟩ :: π) (⟨function', "body", none⟩ :: π'))
    (howned : ∀ t t', Place.isOwnedBody ⟨t', ⟨function', "body", none⟩ :: π'⟩ =
      Place.isOwnedBody ⟨t, ⟨function, "body", none⟩ :: π⟩)
    (ih : ∀ o ∈ (Tree.node ib (.known kb) bslots).occurrences, PlacedBelow a o.tree) :
    ∃ fs gs, Matches a
      ((Tree.node ib (.known kb) bslots).placesAt (fun _ => false) (⟨function, "body", none⟩ :: π))
      ((Tree.node ib (.known kb)
        (setSlot "body" (.list (insertStatement (bindingDeclaration function'.id name) ss)) kb.layout
          (written a (.known kb) bslots bslots'))).placesAt (fun _ => false)
        (⟨function', "body", none⟩ :: π')) (fs ++ function'.id :: gs) ∧
      (fs ++ gs).Perm (hoistTargets a (.node ib (.known kb) bslots)) := by
  obtain ⟨n, os₁, os₂, os₁', os₂', hocc, hocc', hm₁, hm₂⟩ :=
    moved_statements (bindingDeclaration function'.id name) hslots hss
  rw [occurrences_node, Shape.fields, hocc] at ih
  have hagrees := (agrees_written (s := .known kb) hslots).setBody
    (.list (insertStatement (bindingDeclaration function'.id name) ss))
  obtain ⟨fs, hmatch₁, hperm₁⟩ := placed_children hbarrow hagrees (fun _ => howned _ _) hf hm₁
    fun o ho => ih o (mem_append_left _ ho)
  obtain ⟨gs, hmatch₂, hperm₂⟩ := placed_children hbarrow hagrees (fun _ => howned _ _) hf hm₂
    fun o ho => ih o (mem_append_right _ ho)
  refine ⟨fs, gs, ?_, ?_⟩
  · rw [placesAt_of_isNode rfl, placesAt_of_isNode rfl, occurrences_node, occurrences_node,
      Shape.fields, hocc, hocc', flatMap_append, flatMap_append, flatMap_cons]
    exact .both (.kept hbname hbarrow hagrees (fun _ => howned _ _) hf) (hmatch₁.append (.hoist hfun hname hmatch₂))
  · rw [hoistTargets_node, if_neg, nil_append, Shape.fields, hocc, flatMap_append]
    · exact hperm₁.append hperm₂
    · intro hself
      rw [Bool.and_eq_true] at hself
      rw [not_isHoistTarget (hbfun hself.1)] at hself
      cases hself.2

theorem placed_hoisted {id : Tree} (hk : k.isOrdinaryFunction) (hname : a.hoistedNames.get? i.id = some name)
    (hid : applySlot a (.sub "id") id = (id', none))
    (hparams : applySlot a (.sub "params") params = (params', none))
    (hbname : rename? a (.node ib (.known kb) bslots) = none)
    (hbarrow : (Tree.node ib (.known kb) bslots).isArrow = false)
    (hbfun : (Tree.node ib (.known kb) bslots).isOrdinaryFunction → a.hoistedNames.get? ib.id = none)
    (hslots : applySlots a kb.layout bslots = (bslots', none))
    (hss : slot? "body" kb.layout (written a (.known kb) bslots bslots') = some (.list ss))
    (hf : Follows a π π')
    (ih : ∀ o ∈ (Tree.node i (.known k) (id :: params :: .node ib (.known kb) bslots :: rest)).occurrences,
      PlacedBelow a o.tree)
    (ih' : ∀ o ∈ (Tree.node ib (.known kb) bslots).occurrences, PlacedBelow a o.tree) :
    Placed a (.node i (.known k) (id :: params :: .node ib (.known kb) bslots :: rest))
      (.node i (.known k) (id' :: params' :: .node ib (.known kb)
        (setSlot "body" (.list (insertStatement (bindingDeclaration i.id name) ss)) kb.layout
          (written a (.known kb) bslots bslots')) :: rest)) π π' := by
  have harrow : ∀ slots, (Tree.node i (.known k) slots).isArrow = false := by
    intro slots
    cases k <;> first | rfl | cases hk
  have hblock : ∀ {slots slots' : List Tree}, Shape.known k = .known .blockStatement →
      Place.isOwnedBody ⟨.node i (.known k) slots', π'⟩ =
        Place.isOwnedBody ⟨.node i (.known k) slots, π⟩ := by
    intro _ _ h
    cases h
    cases hk
  have hrename : ∀ slots, rename? a (.node i (.known k) slots) = none := by
    intro slots
    cases k <;> first | rfl | cases hk
  have howned : ∀ slots slots' t t',
      Place.isOwnedBody ⟨t', ⟨.node i (.known k) slots', "body", none⟩ :: π'⟩ =
        Place.isOwnedBody ⟨t, ⟨.node i (.known k) slots, "body", none⟩ :: π⟩ := by
    intro slots slots' t t'
    rw [isOwnedBody_step, isOwnedBody_step, isFunction_node i i _ slots' slots,
      is_node i i _ slots' slots]
  rw [occurrences_function i hk id params rest rfl] at ih
  have hagrees : ∀ body', Agrees a k.layout (id :: params :: .node ib (.known kb) bslots :: rest)
      (id' :: params' :: body' :: rest) := fun _ => agrees_function hk hid hparams
  obtain ⟨fs, hmid, hpid⟩ := placed_children (harrow _) (hagrees _) hblock hf (moved_of_carried (carried_slot hid))
    fun o ho => ih o (mem_append_left _ ho)
  obtain ⟨gs, hmparams, hpparams⟩ := placed_children (harrow _) (hagrees _) hblock hf
    (moved_of_carried (carried_slot hparams))
    fun o ho => ih o (by simp [ho])
  obtain ⟨hs₁, hs₂, hmbody, hpbody⟩ := placed_hoistedBody
    (.node i (.known k) (id :: params :: .node ib (.known kb) bslots :: rest))
    (.node i (.known k) _)
    hk hname hbname hbarrow hbfun hslots hss (.kept (harrow _) (hagrees _) hblock hf) (howned _ _) ih'
  refine ⟨fs ++ (gs ++ (hs₁ ++ i.id :: hs₂)), ?_, ?_⟩
  · rw [placesAt_of_isNode rfl, placesAt_of_isNode rfl, occurrences_function i hk id params rest rfl,
      occurrences_function i hk id' params' rest rfl, flatMap_append, flatMap_append,
      flatMap_append, flatMap_append, flatMap_singleton, flatMap_singleton]
    exact .both (.kept (hrename _) (harrow _) (hagrees _) hblock hf)
      (hmid.append (hmparams.append hmbody))
  · have hself : ((Tree.node i (.known k)
        (id :: params :: .node ib (.known kb) bslots :: rest)).isOrdinaryFunction &&
          a.isHoistTarget i.id) := by
      rw [isHoistTarget_of_get? hname, Bool.and_true]
      exact hk
    rw [hoistTargets_node, if_pos hself, ← occurrences_node i,
      occurrences_function i hk id params rest rfl, flatMap_append, flatMap_append,
      flatMap_singleton]
    have hmiddle : (fs ++ (gs ++ (hs₁ ++ i.id :: hs₂))).Perm
        (i.id :: (fs ++ (gs ++ (hs₁ ++ hs₂)))) := by
      have hperm : (fs ++ (gs ++ hs₁) ++ i.id :: hs₂).Perm _ := perm_middle
      simpa only [append_assoc] using hperm
    exact hmiddle.trans ((hpid.append (hpparams.append hpbody)).cons _)

/-- **Counterparts.** A tree and what lowering made of it, found by paths of which one follows the
other, have matching places. -/
theorem placed_of_apply (t : Tree) : PlacedBelow a t := by
  induction t using deep_induction with
  | h t ih ih' =>
    intro u π π' h hf hbody
    cases lowers_of_apply h with
    | value ht =>
      rw [Placed, placesAt_of_not_node ht, placesAt_of_not_node ht, hoistTargets_of_not_node ht]
      exact ⟨[], .nil, .nil⟩
    | @renamed i slots name hname =>
      refine ⟨[], ?_, ?_⟩
      · rw [placesAt_of_isNode rfl, placesAt_of_isNode rfl, occurrences_identifier, occurrences_identifier]
        exact .both (.renamed hname hf) .nil
      · rw [hoistTargets_node, ← occurrences_node i, occurrences_identifier]
        exact .nil
    | @kept i s slots slots' hname harrow hfun hslots =>
      have hblock : s = .known .blockStatement →
          Place.isOwnedBody ⟨.node i s (written a s slots slots'), π'⟩ =
            Place.isOwnedBody ⟨.node i s slots, π⟩ := by
        rintro rfl
        exact hbody rfl
      obtain ⟨fs, hm, hperm⟩ := placed_children harrow (agrees_written hslots) hblock hf
        (moved_of_carried (carried_slots hslots)) ih
      refine ⟨fs, ?_, ?_⟩
      · rw [placesAt_of_isNode rfl, placesAt_of_isNode rfl, occurrences_node, occurrences_node,
          occurrencesIn_written]
        exact .both (.kept hname harrow (agrees_written hslots) hblock hf) hm
      · rw [hoistTargets_node, if_neg]
        · exact hperm
        · intro hself
          rw [Bool.and_eq_true] at hself
          rw [not_isHoistTarget (hfun hself.1)] at hself
          cases hself.2
    | arrow hparams happly hnode => exact placed_standIn (placed_arrow hf hparams happly hnode ih)
    | @hoisted i ib k kb id params id' params' name bslots bslots' rest ss hk hname hid hparams hbname
        hbarrow hbfun hslots hss =>
      refine placed_hoisted hk hname hid hparams hbname hbarrow hbfun hslots hss hf ih
        (ih' ⟨"body", none, .node ib (.known kb) bslots⟩ ?_)
      rw [occurrences_function i hk id params rest rfl]
      simp

theorem matches_of_apply (h : apply a t = (u, none)) :
    ∃ fs, Matches a t.places u.places fs ∧ fs.Perm (hoistTargets a t) :=
  placed_of_apply t h .root fun _ => rfl

end ArrowFree.Lowering
