import ArrowFree.Proofs.ArrowFreeDocuments
import ArrowFree.Proofs.Capture
import ArrowFree.Proofs.FunctionAnalysis
import ArrowFree.Proofs.LoweredNodes

/-!
# Functions are lowered on their own

What lowering makes of a tree depends on the facts about its nodes only (`lowersAlike_of_agreeOn`), so that a
function is lowered by its own analysis as by that of a tree around it, its name apart
(`FunctionIn.apply_alone`). It remains to find the function again: what has the identity of a function is the
function lowered (`found_of_apply`). The exception is a function that is itself the body of a function: a
declaration that the outer one gets goes into the inner one.
-/

namespace ArrowFree

open ArrowFree.Tree Lowering ScopeTable List

variable {i : Info} {ts bslots ss : List Tree} {fs : List Field} {a : Analysis} {k kb : Kind}
  {id params v : Tree} {name : Text}

namespace Lowering

variable {slots : List Tree}

/-! ## Lowering by analyses that agree -/

section

variable {a b : Analysis} {s : Shape} {us : List Tree}

theorem AgreeOn.rename?_eq {n : Tree} (h : AgreeOn a b n) : rename? a n = rename? b n := by
  unfold rename?
  split
  · next i slots => exact congrArg (Option.map _) (h.replaced rfl)
  · rfl

theorem AgreeOn.leave_eq (h : AgreeOn a b (.node i s slots)) (slots' : List Tree) :
    leave a (.node i s slots') = leave b (.node i s slots') := by
  unfold leave
  split
  · next harrow =>
    have hcaptures : a.capturesThis i.id = b.capturesThis i.id :=
      h.captures (isArrow_node i i s slots' slots ▸ harrow)
    show _ = Prod.mk _ _
    rw [show (Tree.node i s slots').id = i.id from rfl, hcaptures]
  · split
    · next hordinary =>
      have hhoisted : a.hoistedNames.get? i.id = b.hoistedNames.get? i.id :=
        h.hoisted (isOrdinaryFunction_node i i s slots' slots ▸ hordinary)
      rw [show (Tree.node i s slots').id = i.id from rfl, hhoisted]
    · rfl

/-- What lowering by one analysis makes of a tree is what lowering by the other makes of it. -/
def LowersAlike (a b : Analysis) (t : Tree) : Prop :=
  ∀ u, apply a t = (u, none) → apply b t = (u, none)

theorem applyItems_alike (h : ∀ t ∈ ts, LowersAlike a b t) (ha : applyItems a ts = (us, none)) :
    applyItems b ts = (us, none) := by
  induction ts generalizing us with
  | nil => exact ha
  | cons t ts ih =>
    obtain ⟨t', ts', rfl, ht, hts⟩ := applyItems_cons_ok.mp ha
    exact applyItems_cons_ok.mpr ⟨t', ts', rfl, h t mem_cons_self _ ht,
      ih (fun u hu => h u (.tail _ hu)) hts⟩

theorem applySlot_alike {f : Field} {t u : Tree} (h : ∀ o ∈ occurrencesOf f t, LowersAlike a b o.tree)
    (ha : applySlot a f t = (u, none)) : applySlot b f t = (u, none) := by
  unfold applySlot at ha ⊢
  unfold occurrencesOf at h
  by_cases hf : f.child
  · rw [if_pos hf] at h ha ⊢
    cases t with
    | list items =>
      obtain ⟨rfl, hnone⟩ := Prod.mk.inj ha
      have hitems : applyItems b items = ((applyItems a items).1, none) :=
        applyItems_alike (fun t ht => by
          obtain ⟨k, hk⟩ := exists_mem_itemsFrom f.name 0 ht
          exact h _ hk) (Prod.ext rfl hnone)
      simp only [hitems]
    | scalar | object => exact ha
    | node i s slots => exact h _ mem_cons_self u ha
  · rw [if_neg hf] at ha ⊢
    exact ha

theorem applySlots_alike (h : ∀ o ∈ occurrencesIn fs ts, LowersAlike a b o.tree)
    (ha : applySlots a fs ts = (us, none)) : applySlots b fs ts = (us, none) := by
  induction fs generalizing ts us with
  | nil =>
    rw [applySlots_nil] at ha ⊢
    exact ha
  | cons f fs ih =>
    cases ts with
    | nil => exact ha
    | cons t ts =>
      obtain ⟨t', ts', rfl, ht, hts⟩ := applySlots_cons_ok.mp ha
      rw [occurrencesIn_cons] at h
      exact applySlots_cons_ok.mpr ⟨t', ts', rfl,
        applySlot_alike (fun o ho => h o (mem_append_left _ ho)) ht,
        ih (fun o ho => h o (mem_append_right _ ho)) hts⟩

theorem holdsRenamed_eq {f : Field} (hf : f.child) {t : Tree}
    (h : ∀ o ∈ occurrencesOf f t, rename? a o.tree = rename? b o.tree) :
    holdsRenamed a t = holdsRenamed b t := by
  unfold occurrencesOf at h
  rw [if_pos hf] at h
  cases t with
  | list items =>
    show (items.any fun t => (rename? a t).isSome) = items.any fun t => (rename? b t).isSome
    rw [Bool.eq_iff_iff, any_eq_true, any_eq_true]
    refine exists_congr fun t => and_congr_right fun ht => ?_
    obtain ⟨k, hk⟩ := exists_mem_itemsFrom f.name 0 ht
    rw [h _ hk]
  | scalar | object => rfl
  | node i s slots =>
    show (rename? a _).isSome = (rename? b _).isSome
    rw [h _ mem_cons_self]

/-- Whether a property keeps its short form depends on what occurs in it. -/
theorem written_eq (slots' : List Tree)
    (h : ∀ o ∈ occurrencesIn s.fields slots, rename? a o.tree = rename? b o.tree) :
    written a s slots slots' = written b s slots slots' := by
  cases s with
  | other type names => rfl
  | known k =>
    show writeOut a k slots slots' = writeOut b k slots slots'
    unfold writeOut
    split
    · have hany : (slots.take 2).any (holdsRenamed a) = (slots.take 2).any (holdsRenamed b) := by
        rcases slots with _ | ⟨key, _ | ⟨value, rest⟩⟩
        · rfl
        · have hkey := holdsRenamed_eq (f := .sub "key") rfl fun o ho => h o (mem_append_left _ ho)
          simp [hkey]
        · have hkey := holdsRenamed_eq (f := .sub "key") rfl fun o ho => h o (mem_append_left _ ho)
          have hvalue := holdsRenamed_eq (f := .sub "value") rfl fun o ho =>
            h o (mem_append_right _ (mem_append_left _ ho))
          simp [hkey, hvalue]
      rw [hany]
    · rfl

/-- **Lowering depends on the facts about the nodes at hand only.** -/
theorem lowersAlike_of_agreeOn {t : Tree} (h : ∀ n ∈ t.nodes, AgreeOn a b n) : LowersAlike a b t := by
  induction t using occurrence_induction with
  | h t ih =>
    intro u hu
    rcases t.eq_node_or_not_node with ⟨i, s, slots, rfl⟩ | ht
    swap
    · rw [apply_of_not_node ht] at hu ⊢
      exact hu
    have hself := h _ (self_mem_nodes rfl)
    have hbelow : ∀ o ∈ occurrencesIn s.fields slots, ∀ n ∈ o.tree.nodes, AgreeOn a b n :=
      fun o ho n hn => h n (mem_nodes_iff.mpr (.inr ⟨o, ho, hn⟩))
    rcases apply_node_ok.mp hu with hname | ⟨hname, slots', hslots, hleave⟩
    · exact apply_node_ok.mpr (.inl (hself.rename?_eq ▸ hname))
    · have hrename : ∀ o ∈ occurrencesIn s.fields slots, rename? a o.tree = rename? b o.tree := by
        intro o ho
        rcases o.tree.eq_node_or_not_node with ⟨j, s', ts, heq⟩ | hvalue
        · exact (hbelow o ho _ (self_mem_nodes (heq ▸ rfl))).rename?_eq
        · cases htree : o.tree <;> first | rfl | (rw [htree] at hvalue; cases hvalue)
      refine apply_node_ok.mpr (.inr ⟨hself.rename?_eq ▸ hname, slots',
        applySlots_alike (fun o ho => ih o ho (hbelow o ho)) hslots, ?_⟩)
      rw [← written_eq slots' hrename, ← hself.leave_eq]
      exact hleave

end

/-! ## The function itself -/

theorem exists_apply_identifier_node (i : Info) (slots : List Tree) :
    ∃ u, apply a (.node i (.known .identifier) slots) = (u, none) := by
  cases hname : rename? a (.node i (.known .identifier) slots) with
  | some u => exact ⟨u, apply_node_ok.mpr (.inl hname)⟩
  | none =>
    have hslots : applySlots a Kind.identifier.layout slots = (slots, none) := by
      cases slots with
      | nil => rfl
      | cons t ts => exact applySlots_cons_ok.mpr ⟨t, ts, rfl, slot_attribute rfl t, applySlots_nil ts⟩
    refine ⟨.node i (.known .identifier) slots, apply_node_ok.mpr (.inr ⟨hname, slots, hslots, ?_⟩)⟩
    rw [written_of_ne (by decide)]
    exact leave_plain rfl

theorem insertBinding_eq {ib : Info} {d : Tree} {rest : List Tree} (hk : k.isOrdinaryFunction)
    (hss : slot? "body" kb.layout bslots = some (.list ss)) :
    insertBinding (.node i (.known k) (id :: params :: .node ib (.known kb) bslots :: rest)) d =
      .ok (.node i (.known k) (id :: params ::
        .node ib (.known kb) (setSlot "body" (.list (insertStatement d ss)) kb.layout bslots) ::
          rest)) := by
  have hbody : (Tree.node i (.known k) (id :: params :: .node ib (.known kb) bslots :: rest)).get "body" =
      .ok (.node ib (.known kb) bslots) := by
    simp +decide [Tree.get, attribute?, layout_of_isOrdinaryFunction hk, slot?, Field.sub]
  have hstatements : (Tree.node ib (.known kb) bslots).get "body" = .ok (.list ss) := by
    simp [Tree.get, attribute?, hss]
  refine bind_ok.mpr ⟨_, hbody, bind_ok.mpr ⟨_, hstatements, bind_ok.mpr ⟨_, rfl, ?_⟩⟩⟩
  simp +decide [Tree.set, Shape.fields, layout_of_isOrdinaryFunction hk, setSlot, Field.sub, pure,
    Except.pure]

/-- Two functions that differ in their names at most. -/
def SameButName (f g : Tree) : Prop :=
  ∃ i k x y slots, Kind.isOrdinaryFunction k ∧ f = .node i (.known k) (x :: slots) ∧
    g = .node i (.known k) (y :: slots)

theorem SameButName.attribute?_eq {f g : Tree} (h : SameButName f g) (hname : name ≠ "id") :
    f.attribute? name = g.attribute? name := by
  obtain ⟨i, k, x, y, slots, hk, rfl, rfl⟩ := h
  have hid : (Field.sub "id").name ≠ name := hname.symm
  show slot? name k.layout _ = slot? name k.layout _
  rw [layout_of_isOrdinaryFunction hk, slot?, slot?, if_neg hid, if_neg hid]

/-- What becomes of a function after its children depends on its name only in the name. -/
theorem leave_sameButName {b : Analysis} {x y u : Tree} (hk : k.isOrdinaryFunction)
    (hhoisted : a.hoistedNames.get? i.id = b.hoistedNames.get? i.id)
    (h : leave a (.node i (.known k) (x :: slots)) = (u, none)) :
    ∃ v, leave b (.node i (.known k) (y :: slots)) = (v, none) ∧ SameButName u v := by
  rcases leave_ok h with ⟨harrow, -⟩ | ⟨-, -, name, hname, hinsert⟩ | ⟨-, hnone, rfl⟩
  · have hordinary : (Tree.node i (.known k) (x :: slots)).isOrdinaryFunction = false :=
      not_ordinary_of_isArrow harrow
    cases hk.symm.trans hordinary
  · obtain ⟨id, params, ib, kb, bslots, rest, ss, heq, hss, rfl⟩ := insertBinding_ok hk hinsert
    cases heq
    exact ⟨_, leave_hoisted hk (hhoisted.symm.trans hname) (insertBinding_eq hk hss),
      i, k, _, _, _, hk, rfl, rfl⟩
  · exact ⟨_, leave_ordinary hk (hhoisted.symm.trans (hnone hk)), i, k, x, y, slots, hk, rfl, rfl⟩

end Lowering

theorem Tree.identifier_of_declares {t owner : Tree} {reach : Reach} {type : BindingType}
    {as : List Addition} (h : (t.declares reach type owner).map ([·]) = .ok as) :
    ∃ j ts, t = .node j (.known .identifier) ts := by
  obtain ⟨d, hd, -⟩ := map_ok.mp h
  obtain ⟨x, hx, -⟩ := map_ok.mp hd
  obtain ⟨j, ts, rfl⟩ := declaredName_ok hx
  exact ⟨j, _, rfl⟩

namespace FunctionIn

variable {root f : Tree} {t u : ScopeTable} {π : Path} (h : FunctionIn root t π f u)
include h

theorem named : ∃ i k name slots, f = .node i (.known k) (name :: slots) ∧ Kind.isOrdinaryFunction k ∧
    (name.isNull ∨ ∃ j ts, name = .node j (.known .identifier) ts) := by
  have hnode : f.isNode := isNode_of_mem_places h.place
  obtain ⟨i, s, slots, rfl⟩ := f.eq_node_or_not_node.resolve_right (by simp [hnode])
  have hadded := (ofTree_ok.mp h.alone_eq).1 _ (mem_places_nil.mpr ⟨rfl, hnode⟩)
  have hname {k : Kind} (hk : k.isOrdinaryFunction) {name : Tree}
      (hget : (Tree.node i (.known k) slots).get "id" = .ok name) : ∃ rest, slots = name :: rest := by
    obtain ⟨_, _, _, heq, hslot⟩ := get_eq_ok hget
    cases heq
    rw [layout_of_isOrdinaryFunction hk] at hslot
    cases slots with
    | nil => cases hslot
    | cons x rest => exact ⟨rest, by rw [Option.some.inj hslot]⟩
  rcases kind_of_isOrdinaryFunction h.ordinary with rfl | rfl
  · obtain ⟨outside, houtside, -⟩ := bind_ok.mp (hadded : Place.functionAdditions .function _ = _)
    obtain ⟨name, hget, hdeclares⟩ := bind_ok.mp (houtside : (_ >>= _) = _)
    obtain ⟨rest, rfl⟩ := hname rfl hget
    exact ⟨i, _, name, rest, rfl, rfl, .inr (identifier_of_declares hdeclares)⟩
  · obtain ⟨outside, -, hrest⟩ := bind_ok.mp (hadded : Place.functionAdditions .function _ = _)
    obtain ⟨inside, hinside, -⟩ := bind_ok.mp hrest
    obtain ⟨name, hget, hdeclares⟩ := bind_ok.mp (hinside : (_ >>= _) = _)
    obtain ⟨rest, rfl⟩ := hname rfl hget
    split at hdeclares
    · next hnull => exact ⟨i, _, name, rest, rfl, rfl, .inl hnull⟩
    · exact ⟨i, _, name, rest, rfl, rfl, .inr (identifier_of_declares hdeclares)⟩

variable {a b : Analysis} (ha : analyze t root = .ok a) (hb : analyze u f = .ok b)
include ha hb

/-- **A function is lowered by its own analysis as by that of the tree.** -/
theorem apply_alone (hv : apply a f = (v, none)) : ∃ w, apply b f = (w, none) ∧ SameButName v w := by
  obtain ⟨i, k, name, slots, rfl, hk, hname⟩ := h.named
  have hhoisted : a.hoistedNames.get? i.id = b.hoistedNames.get? i.id :=
    h.hoistedNames_eq ha hb (self_mem_nodes rfl)
  have hne : k ≠ .property := by
    rintro rfl
    cases hk
  have hrename (c : Analysis) (ts : List Tree) : rename? c (.node i (.known k) ts) = none := by
    cases k <;> first | rfl | cases hk
  rcases apply_node_ok.mp hv with hr | ⟨-, slots', hslots, hleave⟩
  · rw [hrename] at hr
    cases hr
  rw [Shape.fields, layout_of_isOrdinaryFunction hk] at hslots
  obtain ⟨x, ts, rfl, -, hts⟩ := applySlots_cons_ok.mp hslots
  rw [written_of_ne hne] at hleave
  -- The name may be lowered in another way, but it is lowered.
  obtain ⟨y, hy⟩ : ∃ y, applySlot b (.sub "id") name = (y, none) := by
    rcases hname with hnull | ⟨j, ts, rfl⟩
    · cases name <;> first | exact ⟨_, rfl⟩ | cases hnull
    · exact exists_apply_identifier_node j ts
  have hts' : applySlots b [.sub "params", .sub "body"] slots = (ts, none) := by
    refine applySlots_alike (fun o ho => lowersAlike_of_agreeOn fun n hn => ?_) hts
    refine h.agree_within ha hb (o := o) ?_ ?_ hn
    · rw [occurrences_node, Shape.fields, layout_of_isOrdinaryFunction hk]
      exact mem_append_right _ ho
    · rcases field_of_mem_occurrencesIn ho with ⟨g, hg, hfield⟩
      rw [hfield]
      rcases mem_pair.mp hg with rfl | rfl <;> decide
  obtain ⟨w, hw, hsame⟩ := leave_sameButName (y := y) hk hhoisted hleave
  refine ⟨w, apply_node_ok.mpr (.inr ⟨hrename b _, y :: ts, ?_, ?_⟩), hsame⟩
  · rw [Shape.fields, layout_of_isOrdinaryFunction hk]
    exact applySlots_cons_ok.mpr ⟨y, ts, rfl, hy, hts'⟩
  · rw [written_of_ne hne]
    exact hw

end FunctionIn

/-! ## Functions after lowering -/

namespace Lowering

variable {a : Analysis}
variable {p : Place} {f body : Tree} {o : Occurrence}

/-- What stands for a function of the tree: its own lowering, unless it is the body of a function that gets
a variable. Then the declaration of that variable is in its body. -/
inductive StandsFor (a : Analysis) (p : Place) (f : Tree) : Prop
  | lowered (h : apply a p.node = (f, none))
  | body {g : Tree} {π : Path} {i : Info} {k : Kind} {slots ss : List Tree} {name : Text}
      (hpath : p.path = ⟨g, "body", none⟩ :: π) (hg : g.isOrdinaryFunction)
      (h : apply a p.node = (.node i (.known k) slots, none))
      (hss : slot? "body" k.layout slots = some (.list ss))
      (hf : f = .node i (.known k)
        (setSlot "body" (.list (insertStatement (bindingDeclaration g.id name) ss)) k.layout slots))

theorem StandsFor.apply_ok (h : StandsFor a p f) : ∃ u, apply a p.node = (u, none) := by
  cases h with
  | lowered h => exact ⟨_, h⟩
  | body hpath hg h hss hf => exact ⟨_, h⟩

theorem StandsFor.under (h : StandsFor a p f) (π : Path) : StandsFor a (p.under π) f := by
  cases h with
  | lowered h => exact .lowered h
  | body hpath hg h hss hf => exact .body (by rw [Place.under, hpath]; rfl) hg h hss hf

/-- What is shown of the trees that occur in a tree. -/
def Found (a : Analysis) (t : Tree) : Prop :=
  ∀ u, apply a t = (u, none) → ∀ p ∈ t.places, p.node.isOrdinaryFunction →
    ∃ f ∈ u.nodes, StandsFor a p f

theorem found_moved {os os' : List Occurrence} (hmoved : Forall₂ (Moved a) os os') (ho : o ∈ os)
    (ih : Found a o.tree) (hp : p ∈ o.tree.places) (hfun : p.node.isOrdinaryFunction) :
    ∃ o' ∈ os', ∃ f ∈ o'.tree.nodes, StandsFor a p f := by
  induction hmoved with
  | nil => cases ho
  | @cons o₁ o₁' os os' hc _ ih' =>
    rcases mem_cons.mp ho with rfl | ho
    · exact ⟨o₁', mem_cons_self, ih _ hc.tree p hp hfun⟩
    · obtain ⟨o', ho', hfound⟩ := ih' ho
      exact ⟨o', mem_cons_of_mem _ ho', hfound⟩

/-- A function in the body of one that gets a variable. -/
theorem found_statements (ib : Info) {bslots' : List Tree} (d : Tree)
    (hslots : applySlots a kb.layout bslots = (bslots', none))
    (hss : slot? "body" kb.layout (written a (.known kb) bslots bslots') = some (.list ss))
    (ho : o ∈ occurrencesIn kb.layout bslots) (ih : Found a o.tree) (hp : p ∈ o.tree.places)
    (hfun : p.node.isOrdinaryFunction) :
    ∃ f ∈ (Tree.node ib (.known kb) (setSlot "body" (.list (insertStatement d ss)) kb.layout
      (written a (.known kb) bslots bslots'))).nodes, StandsFor a p f := by
  obtain ⟨n, os₁, os₂, os₁', os₂', hocc, hset, hm₁, hm₂⟩ := moved_statements d hslots hss
  rw [hocc] at ho
  obtain ⟨o', ho', f, hf, hstands⟩ : ∃ o' ∈ os₁' ++ os₂', ∃ f ∈ o'.tree.nodes, StandsFor a p f := by
    rcases mem_append.mp ho with ho | ho
    · obtain ⟨o', ho', hfound⟩ := found_moved hm₁ ho ih hp hfun
      exact ⟨o', mem_append_left _ ho', hfound⟩
    · obtain ⟨o', ho', hfound⟩ := found_moved hm₂ ho ih hp hfun
      exact ⟨o', mem_append_right _ ho', hfound⟩
  refine ⟨f, mem_nodes_iff.mpr (.inr ⟨o', ?_, hf⟩), hstands⟩
  rw [occurrences_node, Shape.fields, hset]
  exact mem_append.mpr ((mem_append.mp ho').imp_right (mem_cons_of_mem _))

theorem mem_nodes_function (i : Info) (hk : k.isOrdinaryFunction) (rest : List Tree) (hnode : body.isNode)
    (h : f ∈ body.nodes ∨
      ∃ o ∈ occurrencesOf (.sub "id") id ++ occurrencesOf (.sub "params") params, f ∈ o.tree.nodes) :
    f ∈ (Tree.node i (.known k) (id :: params :: body :: rest)).nodes := by
  refine mem_nodes_iff.mpr (.inr ?_)
  rw [occurrences_function i hk id params rest hnode, ← append_assoc]
  rcases h with h | ⟨o, ho, h⟩
  · exact ⟨_, mem_append_right _ (mem_singleton_self _), h⟩
  · exact ⟨o, mem_append_left _ ho, h⟩

theorem mem_nodes_standIn (hnode : body.isNode)
    (h : f ∈ body.nodes ∨ ∃ o ∈ occurrencesOf (.sub "params") params, f ∈ o.tree.nodes) :
    f ∈ (standIn a i params body).nodes := by
  have hblock (h : f ∈ body.nodes) : f ∈ (blockFor i.id body).nodes := by
    unfold blockFor
    split
    · exact h
    · refine mem_nodes_iff.mpr (.inr ⟨_, mem_singleton_self _, mem_nodes_iff.mpr (.inr ?_)⟩)
      rw [occurrences_returnFor hnode]
      exact ⟨_, mem_singleton_self _, h⟩
  have hfunction : f ∈ (functionFor i params body).nodes :=
    mem_nodes_function _ rfl [] (isNode_blockFor hnode)
      (h.imp hblock fun ⟨o, ho, h⟩ => ⟨o, mem_append_right _ ho, h⟩)
  unfold standIn
  split
  · have hmember : f ∈ (bindMember i.id i.location (functionFor i params body)).nodes := by
      refine mem_nodes_iff.mpr (.inr ?_)
      rw [occurrences_bindMember _ _ rfl]
      exact ⟨_, mem_cons_self, hfunction⟩
    exact mem_nodes_iff.mpr (.inr ⟨_, mem_cons_self, hmember⟩)
  · exact hfunction

/-- **Each function is found again** after lowering. -/
theorem found_of_apply (t : Tree) : Found a t := by
  induction t using deep_induction with
  | h t ih ih' =>
    intro u h p hp hfun
    rcases mem_places_iff.mp hp with ⟨ht, rfl⟩ | ⟨o, ho, q, hq, rfl⟩
    · exact ⟨u, self_mem_nodes ((isNode_apply h).trans ht), .lowered h⟩
    cases lowers_of_apply h with
    | value ht =>
      rw [occurrences_of_not_node ht] at ho
      cases ho
    | @renamed i slots name hname =>
      rw [occurrences_identifier] at ho
      cases ho
    | @kept i s slots slots' hname harrow hordinary hslots =>
      obtain ⟨o', ho', f, hf, hstands⟩ :=
        found_moved (moved_of_carried (carried_slots hslots)) ho (ih o ho) hq hfun
      refine ⟨f, mem_nodes_iff.mpr (.inr ⟨o', ?_, hf⟩), hstands.under _⟩
      rw [occurrences_node, occurrencesIn_written]
      exact ho'
    | @arrow i params body params' body' rest hparams hbody hnode =>
      have hbodyNode : body.isNode := (isNode_apply hbody).symm.trans hnode
      have hin := ih o ho
      rw [occurrences_arrow i params rest hbodyNode, mem_append, mem_singleton] at ho
      rcases ho with ho | rfl
      · obtain ⟨o', ho', f, hf, hstands⟩ :=
          found_moved (moved_of_carried (carried_slot hparams)) ho hin hq hfun
        exact ⟨f, mem_nodes_standIn hnode (.inr ⟨o', ho', hf⟩), hstands.under _⟩
      · obtain ⟨f, hf, hstands⟩ := hin _ hbody q hq hfun
        exact ⟨f, mem_nodes_standIn hnode (.inl hf), hstands.under _⟩
    | @hoisted i ib k kb id params id' params' name bslots bslots' rest ss hk hname hid hparams
        hbname hbarrow hbfun hslots hss =>
      have hin := ih o ho
      have hin' := ih' o ho
      rw [occurrences_function i hk id params rest rfl] at ho
      simp only [mem_append, mem_singleton] at ho
      rcases ho with ho | ho | rfl
      · obtain ⟨o', ho', f, hf, hstands⟩ :=
          found_moved (moved_of_carried (carried_slot hid)) ho hin hq hfun
        exact ⟨f, mem_nodes_function i hk rest rfl (.inr ⟨o', mem_append_left _ ho', hf⟩), hstands.under _⟩
      · obtain ⟨o', ho', f, hf, hstands⟩ :=
          found_moved (moved_of_carried (carried_slot hparams)) ho hin hq hfun
        exact ⟨f, mem_nodes_function i hk rest rfl (.inr ⟨o', mem_append_right _ ho', hf⟩), hstands.under _⟩
      · have hbody : apply a (.node ib (.known kb) bslots) =
            (.node ib (.known kb) (written a (.known kb) bslots bslots'), none) :=
          apply_kept hbname hbarrow hbfun hslots
        rcases mem_places_iff.mp hq with ⟨-, rfl⟩ | ⟨o₁, ho₁, q₁, hq₁, rfl⟩
        · -- The function is the body itself, and the declaration is put into it.
          exact ⟨_, mem_nodes_function i hk rest rfl (.inl (self_mem_nodes rfl)), .body rfl hk hbody hss rfl⟩
        · obtain ⟨f, hf, hstands⟩ :=
            found_statements ib (bindingDeclaration i.id name) hslots hss ho₁ (hin' o₁ ho₁) hq₁ hfun
          exact ⟨f, mem_nodes_function i hk rest rfl (.inl hf), (hstands.under _).under _⟩

theorem id_apply_function {t u : Tree} (ht : t.isOrdinaryFunction) (h : apply a t = (u, none)) :
    u.id = t.id := by
  cases lowers_of_apply h with
  | value => rfl
  | renamed => cases ht
  | kept => rfl
  | arrow => cases ht
  | hoisted => rfl

theorem slot?_setSlot (w : Tree) (h : slot? name fs ts = some v) :
    slot? name fs (setSlot name w fs ts) = some w := by
  induction fs generalizing ts with
  | nil => cases h
  | cons f fs ih =>
    cases ts with
    | nil => cases h
    | cons t ts =>
      by_cases hf : f.name = name
      · rw [setSlot, if_pos hf, slot?, if_pos hf]
      · rw [slot?, if_neg hf] at h
        rw [setSlot, if_neg hf, slot?, if_neg hf]
        exact ih h

/-- A function found in a lowered tree and the same function lowered alone have the same parameters and
the same body. Where the function is itself the body of another, that one may have put the declaration of its
variable in. -/
structure SameParts (p : Place) (f v : Tree) : Prop where
  params : f.attribute? "params" = v.attribute? "params"
  body : f.attribute? "body" = v.attribute? "body" ∨
    ∃ g π name ss, p.path = ⟨g, "body", none⟩ :: π ∧ g.isOrdinaryFunction ∧
      v.attribute? "body" = some (.list ss) ∧
      f.attribute? "body" = some (.list (insertStatement (bindingDeclaration g.id name) ss))

theorem StandsFor.id_eq (h : StandsFor a p f) (hfun : p.node.isOrdinaryFunction) : f.id = p.node.id := by
  cases h with
  | lowered h => exact id_apply_function hfun h
  | body hpath hg h hss hf =>
    rw [← id_apply_function hfun h, hf]
    rfl

theorem StandsFor.sameParts {f₀ : Tree} (h : StandsFor a p f) (hf₀ : apply a p.node = (f₀, none))
    (hsame : SameButName f₀ v) : SameParts p f v := by
  have hne : ("params" : Text) ≠ "id" ∧ ("body" : Text) ≠ "id" ∧ ("params" : Text) ≠ "body" := by decide
  have hparams := hsame.attribute?_eq hne.1
  have hbody := hsame.attribute?_eq hne.2.1
  cases h with
  | lowered h =>
    obtain ⟨rfl, -⟩ := Prod.mk.inj (hf₀.symm.trans h)
    exact ⟨hparams, .inl hbody⟩
  | @body g π i k slots ss name hpath hg h hss hf =>
    obtain ⟨rfl, -⟩ := Prod.mk.inj (hf₀.symm.trans h)
    subst hf
    exact ⟨(slot?_setSlot_of_ne hne.2.2 _ k.layout slots).trans hparams,
      .inr ⟨g, π, name, ss, hpath, hg, hbody.symm.trans hss, slot?_setSlot _ hss⟩⟩

end Lowering

theorem Tree.withoutArrows_eq (t : Tree) (strict : Bool) (h : (Session.transform { strict } t).fault = none) :
    t.withoutArrows strict = .ok (Session.transform { strict } t).tree := by
  unfold Tree.withoutArrows
  simp only [h]

theorem Tree.withoutArrows_of_lowerable {t u : Tree} {strict : Bool} {scopes : ScopeTable}
    (h : Lowerable strict t scopes a u) : t.withoutArrows strict = .ok u := by
  obtain ⟨hfault, htree, -⟩ := transform_of_lowerable (s := { strict }) nofun h
  rw [Tree.withoutArrows_eq t strict hfault, htree]

/-- **Functions are lowered on their own.** What becomes of the parameters and the body of a function in a
tree is what becomes of them when the function is lowered alone, strictly or not. -/
theorem lowered_as_alone {t u : Tree} {strict : Bool} (h : t.numbered.withoutArrows strict = .ok u)
    {p : Place} (hp : p ∈ t.numbered.places) (hfun : p.node.isOrdinaryFunction) :
    ∃ f v, u.nodes.filter (fun n => n.id = p.node.id) = [f] ∧
      (∀ strict', p.node.withoutArrows strict' = .ok v) ∧ SameParts p f v := by
  obtain ⟨hfault, rfl⟩ := Tree.withoutArrows_ok h
  obtain ⟨scopes, a, hl⟩ := transform_ok hfault
  obtain ⟨alone, hin⟩ := functionIn (distinct_numbered t) hl.scopes_eq hp hfun
  obtain ⟨b, hb⟩ := hin.exists_analyze_alone hl.analysis_eq
  obtain ⟨f, hf, hstands⟩ := found_of_apply _ _ hl.apply_eq p hp hfun
  obtain ⟨f₀, hf₀⟩ := hstands.apply_ok
  obtain ⟨v, hv, hsame⟩ := hin.apply_alone hl.analysis_eq hb hf₀
  have hunique := filter_id_eq (distinct_numbered t) hl.apply_eq hf (hstands.id_eq hfun)
  have halone (strict' : Bool) : Lowerable strict' p.node alone b v :=
    ⟨hin.alone_eq, hb, fun _ => hin.unresolved_alone hb, hv⟩
  exact ⟨f, v, hunique, fun strict' => Tree.withoutArrows_of_lowerable (halone strict'),
    hstands.sameParts hf₀ hsame⟩

/-- A function whose arguments are carried past an arrow, within an arrow and a catch clause that both have
a parameter called `arguments`. -/
def withinCatch : Tree :=
  .mk .catchClause none [.identifier "arguments" none, .mk .blockStatement none [.list
    [.mk .expressionStatement none [.mk .arrowFunctionExpression none
      [.list [.identifier "arguments" none],
       .mk .functionExpression none [.null, .list [.identifier "x" none], .mk .blockStatement none [.list
         [.mk .returnStatement none [.mk .arrowFunctionExpression none
           [.list [], .identifier "arguments" none, .bool true]]]]],
       .bool true]]]]]

theorem lowered_as_alone_withinCatch :
    ∃ u p f v, withinCatch.numbered.withoutArrows true = .ok u ∧ p ∈ withinCatch.numbered.places ∧
      p.node.isOrdinaryFunction ∧ u.nodes.filter (fun n => n.id = p.node.id) = [f] ∧
      p.node.withoutArrows = .ok v ∧ f.attribute? "params" = v.attribute? "params" ∧
      f.attribute? "body" = v.attribute? "body" := by
  have hplace : (withinCatch.numbered.places.find? fun p => p.node.isOrdinaryFunction).any
      (fun p => p.path.head?.any fun s => ! s.owner.isOrdinaryFunction) = true := by decide +kernel
  obtain ⟨p, hp, howner⟩ := (Option.any_eq_true _ _).mp hplace
  have hu := Tree.withoutArrows_eq withinCatch.numbered true (by decide +kernel)
  have hmem := List.mem_of_find?_eq_some hp
  have hfun : p.node.isOrdinaryFunction := List.find?_some (p := fun p : Place => p.node.isOrdinaryFunction) hp
  obtain ⟨f, v, hf, hv, hparts⟩ := lowered_as_alone hu hmem hfun
  refine ⟨_, p, f, v, hu, hmem, hfun, hf, hv false, hparts.params, hparts.body.resolve_right ?_⟩
  rintro ⟨g, π, name, ss, hpath, hg, -⟩
  simp [hpath, hg] at howner

/-- The function that is the body of `functionBodied`, with some statements. -/
def innerFunction (statements : List Tree) : Tree :=
  .node ⟨.numbered 3, none⟩ (.known .functionExpression) [.null, .list [], .list statements]

/-- The declaration of a function whose body is a function ends up in the body of the inner one, which gets
nothing when it is lowered alone. -/
theorem body_extended_functionBodied :
    ∃ u p f v, functionBodied.numbered.withoutArrows = .ok u ∧ p ∈ functionBodied.numbered.places ∧
      p.node.isOrdinaryFunction ∧ u.nodes.filter (fun n => n.id = p.node.id) = [f] ∧
      p.node.withoutArrows = .ok v ∧ v.attribute? "body" = some (.list []) ∧
      f.attribute? "body" = some (.list [bindingDeclaration (.numbered 0) "$__arguments"]) := by
  have hu := Tree.withoutArrows_eq functionBodied.numbered false (by decide +kernel)
  have hv : (innerFunction []).withoutArrows = .ok (innerFunction []) :=
    (Tree.withoutArrows_eq (innerFunction []) false (by decide +kernel)).trans (congrArg _ (by decide +kernel))
  refine ⟨_, ⟨innerFunction [], [⟨functionBodied.numbered, "body", none⟩]⟩,
    innerFunction [bindingDeclaration (.numbered 0) "$__arguments"], _, hu, ?_, rfl, ?_, hv, rfl, rfl⟩
  · exact mem_places_cons.mpr ⟨mem_places_nil.mpr ⟨rfl, rfl⟩, .tail _ (.tail _ (.head _)), rfl⟩
  · decide +kernel

end ArrowFree
