import ArrowFree.Proofs.Counterparts
import ArrowFree.Proofs.Facts
import ArrowFree.Proofs.Run

/-!
# `this` keeps its meaning

The `this` of a tree belongs to the nearest ordinary function around it, or to the root. An arrow is
bound exactly if a `this` in it belongs to something outside of it, so that in the lowered tree the way
out of every function that stands for an arrow leads over a `.bind(this)` (`this_keeps_owner`).
-/

namespace ArrowFree

open Lowering ArrowFree.Tree List

variable {t n : Tree} {π q π' : Path} {a : Analysis}

/-- Some `this` stands in the node with no ordinary function around it there. -/
def Tree.UsesThis (t : Tree) : Prop :=
  ∃ q ∈ t.places, q.node.is .thisExpression ∧ ∀ s ∈ q.path, s.owner.isOrdinaryFunction = false

/-- The ordinary function that a path leads to first; none if it leads to the root. -/
def Path.thisOwner : Path → Option NodeId
  | [] => none
  | s :: π => if s.owner.isOrdinaryFunction then some s.owner.id else thisOwner π

/-- Where the `this` at the end of a path comes from, in a tree in which some functions stand for arrows:
such a function hands on the argument of its `.bind(this)`, any other function has its own. There is no
way out of a function that stands for an arrow and is not bound. -/
inductive ThisReaches : Path → Option NodeId → Prop
  | root : ThisReaches [] none
  | function {s : Step} {π : Path} (h : s.owner.isOrdinaryFunction)
      (hid : ∀ origin, s.owner.id ≠ .made .functionOf origin) :
      ThisReaches (s :: π) (some s.owner.id)
  | bound {function : Tree} {origin : NodeId} {location : Option Location} {field : Text}
      {n : Option Nat} {π : Path} {x : Option NodeId} (h : function.is .functionExpression)
      (hid : function.id = .made .functionOf origin)
      (hout : ThisReaches (⟨Lowering.bound origin location function, "arguments", some 0⟩ :: π) x) :
      ThisReaches (⟨function, field, n⟩ :: ⟨bindMember origin location function, "object", none⟩ ::
        ⟨Lowering.bound origin location function, "callee", none⟩ :: π) x
  | other {s : Step} {π : Path} {x : Option NodeId} (h : s.owner.isOrdinaryFunction = false)
      (hout : ThisReaches π x) : ThisReaches (s :: π) x

theorem capturesThis_iff : Lowering.capturesThis t = true ↔ t.UsesThis := by
  unfold Lowering.capturesThis visiblePlaces UsesThis
  rw [any_eq_true]
  constructor
  · rintro ⟨q, hq, hthis⟩
    obtain ⟨hplace, hfree⟩ := mem_placesAt_skip.mp hq
    exact ⟨q, hplace, hthis, hfree⟩
  · rintro ⟨q, hplace, hthis, hfree⟩
    exact ⟨q, mem_placesAt_skip.mpr ⟨hplace, hfree⟩, hthis⟩

/-- An arrow around a `this`, with no ordinary function in between, uses the `this` around it. -/
theorem usesThis_of_path {s : Step} (h : ⟨n, q ++ s :: π⟩ ∈ t.places) (hthis : n.is .thisExpression)
    (hq : ∀ s' ∈ q, s'.owner.isOrdinaryFunction = false) (harrow : s.owner.isArrow) : s.owner.UsesThis := by
  refine ⟨⟨n, q ++ [s]⟩, mem_owner_places h, hthis, fun s' hs' => ?_⟩
  rcases mem_append.mp hs' with hs' | hs'
  · exact hq s' hs'
  · rw [mem_singleton.mp hs']
    exact not_ordinary_of_isArrow harrow

/-- The arrows on the way to the first ordinary function are bound. -/
def BoundOut (a : Analysis) : Path → Prop
  | [] => True
  | s :: π => s.owner.isOrdinaryFunction = false →
    (s.owner.isArrow → a.capturesThis s.owner.id = true) ∧ BoundOut a π

/-- The arrows around a `this` are bound. -/
theorem boundOut_of_place
    (hcaptures : ∀ arrow ∈ t.nodes, arrow.isArrow → a.capturesThis arrow.id = Lowering.capturesThis arrow)
    (hthis : n.is .thisExpression) (h : ⟨n, q ++ π⟩ ∈ t.places)
    (hq : ∀ s ∈ q, s.owner.isOrdinaryFunction = false) : BoundOut a π := by
  induction π generalizing q with
  | nil => trivial
  | cons s π ih =>
    intro hs
    constructor
    · intro harrow
      rw [hcaptures _ (node_mem_nodes (owner_mem_places h)) harrow]
      exact capturesThis_iff.mpr (usesThis_of_path h hthis hq harrow)
    · refine ih (q := q ++ [s]) (by rwa [append_assoc]) fun s' hs' => ?_
      rcases mem_append.mp hs' with hs' | hs'
      · exact hq s' hs'
      · rw [mem_singleton.mp hs']
        exact hs

/-- A step out of an arrow leads over its `.bind(this)`, whichever slot of the arrow it starts in. -/
theorem reaches_out_of_arrow {i : Info} {slots : List Tree} {params body : Tree} {field field' : Text}
    {n n' : Option Nat}
    (hbound : BoundOut a (⟨.node i (.known .arrowFunctionExpression) slots, field, n⟩ :: π))
    (h : BoundOut a π → ThisReaches π' π.thisOwner) :
    ThisReaches (⟨functionFor i params body, field', n'⟩ ::
      (bindSteps a i (functionFor i params body) ++ π'))
      (Path.thisOwner (⟨.node i (.known .arrowFunctionExpression) slots, field, n⟩ :: π)) := by
  obtain ⟨hcaptures, hrest⟩ := hbound rfl
  have hcaptures : a.capturesThis i.id = true := hcaptures rfl
  unfold bindSteps
  rw [if_pos hcaptures]
  exact .bound rfl rfl (.other rfl (h hrest))

/-- The walk outwards along a path that follows another leads to the same function. -/
theorem reaches_of_follows (h : Follows a π π')
    (hmade : ∀ s ∈ π, ∀ origin, s.owner.id ≠ .made .functionOf origin) (hbound : BoundOut a π) :
    ThisReaches π' π.thisOwner := by
  induction h with
  | root => exact .root
  | @kept i s slots slots' field n n' π π' harrow hslots hbody h ih =>
    have hsame := isOrdinaryFunction_node i i s slots' slots
    unfold Path.thisOwner
    by_cases hfun : (Tree.node i s slots).isOrdinaryFunction = true
    · rw [if_pos hfun]
      exact .function (s := ⟨.node i s slots', field, n'⟩) (hsame.trans hfun)
        (hmade ⟨.node i s slots, field, n⟩ mem_cons_self)
    · rw [if_neg hfun]
      rw [Bool.not_eq_true] at hfun
      exact .other (hsame.trans hfun)
        (ih (fun s' hs' => hmade s' (mem_cons_of_mem _ hs')) (hbound hfun).2)
  | parameter h ih | block hblock h ih =>
    exact reaches_out_of_arrow hbound (ih fun s' hs' => hmade s' (mem_cons_of_mem _ hs'))
  | concise hblock h ih =>
    exact .other rfl (.other rfl (reaches_out_of_arrow hbound
      (ih fun s' hs' => hmade s' (mem_cons_of_mem _ hs'))))

theorem standIn_of_arrow {u : Tree} (h : apply a t = (u, none)) {p : Place} (hp : p ∈ t.places)
    (harrow : p.node.isArrow) :
    ∃ i params body rest params' body' π',
      p.node = .node i (.known .arrowFunctionExpression) (params :: body :: rest) ∧
      applySlot a (.sub "params") params = (params', none) ∧ apply a body = (body', none) ∧
      Follows a p.path π' ∧ ⟨standIn a i params' body', π'⟩ ∈ u.places := by
  obtain ⟨fs, hm, -⟩ := matches_of_apply h
  obtain ⟨p', hp', hc⟩ := hm.mem hp
  cases hc with
  | renamed hname hf => cases harrow
  | kept hname hno hslots hbody hf =>
    rw [hno] at harrow
    cases harrow
  | @arrow i params body params' body' rest π π' hparams hbody hnode hf =>
    refine ⟨i, params, body, rest, params', body', π', rfl, hparams, hbody, hf, ?_⟩
    unfold standIn
    unfold bindSteps at hp'
    by_cases hcaptures : a.capturesThis i.id = true
    · rw [if_pos hcaptures] at hp' ⊢
      exact owner_mem_places (q := [_]) hp'
    · rw [if_neg hcaptures] at hp' ⊢
      exact hp'

/-- **Lexical `this`.** What stands in the slot of an arrow is the function for it, bound to `this` if
the arrow uses the `this` around it and bare if it does not. Every `this` of the tree is found again, and
the walk outwards from there leads to the same ordinary function, or to the root. -/
theorem this_keeps_owner (s : Session) (t : Tree) (h : (s.transform t.numbered).fault = none) :
    ∃ scopes a, Lowerable s.strict t.numbered scopes a (s.transform t.numbered).tree ∧
      (∀ p ∈ t.numbered.places, p.node.isArrow → ∃ i params body rest params' body' standing π',
          p.node = .node i (.known .arrowFunctionExpression) (params :: body :: rest) ∧
          applySlot a (.sub "params") params = (params', none) ∧ apply a body = (body', none) ∧
          Follows a p.path π' ∧ ⟨standing, π'⟩ ∈ (s.transform t.numbered).tree.places ∧
          (p.node.UsesThis ∧ standing = bound i.id i.location (functionFor i params' body') ∨
            ¬ p.node.UsesThis ∧ standing = functionFor i params' body')) ∧
      ∀ p ∈ t.numbered.places, p.node.is .thisExpression →
        ∃ p' ∈ (s.transform t.numbered).tree.places, p'.node.is .thisExpression ∧
          p'.node.id = p.node.id ∧ Follows a p.path p'.path ∧
          ThisReaches p'.path p.path.thisOwner := by
  obtain ⟨scopes, a, hl⟩ := transform_ok h
  have hd := distinct_numbered t
  have hcaptures : ∀ arrow ∈ t.numbered.nodes, arrow.isArrow →
      a.capturesThis arrow.id = Lowering.capturesThis arrow :=
    fun arrow hmem harrow => capturesThis_of_analyze hd hl.analysis_eq hmem harrow
  refine ⟨scopes, a, hl, fun p hp harrow => ?_, fun p hp hthis => ?_⟩
  · obtain ⟨i, params, body, rest, params', body', π', heq, hparams, hbody, hf, hplace⟩ :=
      standIn_of_arrow hl.apply_eq hp harrow
    refine ⟨i, params, body, rest, params', body', _, π', heq, hparams, hbody, hf, hplace, ?_⟩
    have hknown : a.capturesThis i.id = Lowering.capturesThis p.node := by
      rw [← hcaptures p.node (node_mem_nodes hp) harrow, heq]
      rfl
    unfold standIn
    rw [hknown]
    by_cases huses : p.node.UsesThis
    · exact Or.inl ⟨huses, if_pos (capturesThis_iff.mpr huses)⟩
    · exact Or.inr ⟨huses, if_neg fun hc => huses (capturesThis_iff.mp hc)⟩
  · obtain ⟨fs, hm, -⟩ := matches_of_apply hl.apply_eq
    obtain ⟨p', hp', hc⟩ := hm.mem hp
    have hmade : ∀ s ∈ p.path, ∀ origin, s.owner.id ≠ .made .functionOf origin :=
      fun s hs origin => hd.owner_not_made hp hs .functionOf origin
    have hbound : BoundOut a p.path := boundOut_of_place hcaptures hthis (q := []) hp (by simp)
    cases hc with
    | renamed hname hf => cases hthis
    | @kept i s slots slots' π π' hname hno hslots hbody hf =>
      exact ⟨_, hp', (is_node i i s slots' slots _).trans hthis, rfl, hf,
        reaches_of_follows hf hmade hbound⟩
    | arrow hparams hbody hnode hf => cases hthis

/-- A function with an arrow among its parameters that gives the `this` of the function. -/
def thisKeeper : Tree :=
  .mk .functionExpression none [.null,
    .list [.mk .arrowFunctionExpression none [.list [], .mk .thisExpression none [], .bool true]],
    .mk .blockStatement none [.list []]]

theorem this_keeps_owner_keeper : (Session.transform {} thisKeeper.numbered).fault = none ∧
      ∃ p' ∈ (Session.transform {} thisKeeper.numbered).tree.places,
        p'.node.is .thisExpression ∧ p'.node.id = .numbered 2 ∧
          ThisReaches p'.path (some (.numbered 0)) := by
  have hfault : (Session.transform {} thisKeeper.numbered).fault = none := by decide
  obtain ⟨scopes, a, hl, harrows, hthis⟩ := this_keeps_owner {} thisKeeper hfault
  obtain ⟨p', hp', his, hid, -, hreaches⟩ := hthis _ (List.getElem_mem (n := 2) (by decide)) rfl
  exact ⟨hfault, p', hp', his, hid, hreaches⟩

end ArrowFree
