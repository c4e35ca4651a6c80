import ArrowFree.Lowering.Apply
import ArrowFree.Proofs.Additions
import ArrowFree.Proofs.Places
import Mathlib.Data.List.Forall2

/-!
# What lowering makes of a node

`Lowers a t u` says in which of five ways a tree `u` can stand for `t` once lowering by the analysis
`a` has gone through: a value that is no node stays, an identifier may get a new name, an arrow
becomes a function, a function may get one more statement, and any other node keeps itself around its
lowered children. Each case names what becomes of the children, so that a property of lowered trees
is proved by induction along occurrences with one case for each way (`lowers_of_apply`).
-/

namespace ArrowFree.Lowering

open ArrowFree.Tree List

variable {a : Analysis}
variable {t u body d params : Tree} {i : Info} {ts ss bslots us : List Tree} {f : Field} {k kb : Kind}
  {fs : List Field} {s : Shape} {origin : NodeId}
variable {slots ts' bslots' : List Tree} {v : Tree} {name : Text} {ib : Info} {o' : Occurrence}

/-! ## Slots -/

/-- An occurrence, and the one in its place after lowering. -/
structure Carried (a : Analysis) (o o' : Occurrence) : Prop where
  field : o'.field = o.field
  index : o'.index = o.index
  tree : apply a o.tree = (o'.tree, none)

/-- The lowering of one slot. -/
def applySlot (a : Analysis) (f : Field) (t : Tree) : Tree × Option Fault :=
  if f.child then
    match t with
    | .list items => (.list (applyItems a items).1, (applyItems a items).2)
    | t => apply a t
  else (t, none)

/-- The slots of a node as its shape has them written: a property may lose its short form. -/
def written (a : Analysis) (s : Shape) (before after : List Tree) : List Tree :=
  match s with
  | .known k => writeOut a k before after
  | .other .. => after

theorem apply_of_not_node (h : t.isNode = false) : apply a t = (t, none) := by
  cases t with
  | node i s slots => simp [isNode] at h
  | scalar | list | object => rfl

theorem applyItems_cons_ok : applyItems a (t :: ts) = (us, none) ↔
      ∃ t' ts', us = t' :: ts' ∧ apply a t = (t', none) ∧ applyItems a ts = (ts', none) := by
  rw [applyItems]
  rcases ht : apply a t with ⟨t', _ | e⟩
  · rcases hts : applyItems a ts with ⟨ts', e'⟩
    simp only [Prod.mk.injEq]
    constructor
    · rintro ⟨rfl, rfl⟩
      exact ⟨t', ts', rfl, ⟨rfl, trivial⟩, rfl, rfl⟩
    · rintro ⟨_, _, rfl, ⟨rfl, -⟩, rfl, rfl⟩
      exact ⟨rfl, rfl⟩
  · simp

theorem applySlots_cons_ok : applySlots a (f :: fs) (t :: ts) = (us, none) ↔
      ∃ t' ts', us = t' :: ts' ∧ applySlot a f t = (t', none) ∧
        applySlots a fs ts = (ts', none) := by
  have key : applySlots a (f :: fs) (t :: ts) =
      match applySlot a f t with
      | (t', some e) => (t' :: ts, some e)
      | (t', none) => (t' :: (applySlots a fs ts).1, (applySlots a fs ts).2) := by
    unfold applySlot
    by_cases hf : f.child
    · cases t with
      | list items =>
        simp only [applySlots, hf, if_true]
        rcases applyItems a items with ⟨items', _ | e⟩ <;> rfl
      | scalar s | object fields => simp only [applySlots, hf, if_true]; rfl
      | node i s slots =>
        simp only [applySlots, hf, if_true]
        rcases apply a (.node i s slots) with ⟨t', _ | e⟩ <;> rfl
    · cases t <;> simp only [applySlots, hf, if_false, Bool.false_eq_true]
  rw [key]
  rcases applySlot a f t with ⟨t', _ | e⟩
  · rcases hts : applySlots a fs ts with ⟨ts', e'⟩
    simp only [Prod.mk.injEq]
    constructor
    · rintro ⟨rfl, rfl⟩
      exact ⟨t', ts', rfl, ⟨rfl, trivial⟩, rfl, rfl⟩
    · rintro ⟨_, _, rfl, ⟨rfl, -⟩, rfl, rfl⟩
      exact ⟨rfl, rfl⟩
  · simp

theorem applySlots_eq_cons (h : applySlots a (f :: fs) ts = (u :: us, none)) :
    ∃ t ts', ts = t :: ts' ∧ applySlot a f t = (u, none) ∧ applySlots a fs ts' = (us, none) := by
  cases ts with
  | nil => cases h
  | cons t ts =>
    obtain ⟨_, _, heq, ht, hts⟩ := applySlots_cons_ok.mp h
    cases heq
    exact ⟨t, ts, rfl, ht, hts⟩

theorem applySlots_nil (ts : List Tree) : applySlots a [] ts = (ts, none) := by
  cases ts <;> rfl

/-! ## Nodes -/

theorem apply_node_ok : apply a (.node i s slots) = (u, none) ↔
      rename? a (.node i s slots) = some u ∨
        rename? a (.node i s slots) = none ∧ ∃ slots', applySlots a s.fields slots = (slots', none) ∧
          leave a (.node i s (written a s slots slots')) = (u, none) := by
  rw [apply]
  cases rename? a (.node i s slots) with
  | some t => simp
  | none =>
    rcases applySlots a s.fields slots with ⟨slots', _ | f⟩
    · simp
      rfl
    · simp

theorem leave_ok (h : leave a t = (u, none)) :
    (t.isArrow ∧ lowerArrow t (a.capturesThis t.id) = .ok u) ∨
    (t.isArrow = false ∧ t.isOrdinaryFunction ∧ ∃ name, a.hoistedNames.get? t.id = some name ∧
      insertBinding t (bindingDeclaration t.id name) = .ok u) ∨
    (t.isArrow = false ∧ (t.isOrdinaryFunction → a.hoistedNames.get? t.id = none) ∧ u = t) := by
  unfold leave at h
  by_cases ha : t.isArrow
  · rw [if_pos ha] at h
    cases hl : lowerArrow t (a.capturesThis t.id) with
    | error f => rw [hl] at h; simp at h
    | ok v =>
      rw [hl] at h
      exact Or.inl ⟨ha, congrArg Except.ok (Prod.mk.inj h).1⟩
  · have ha' : t.isArrow = false := by simpa using ha
    rw [if_neg ha] at h
    by_cases hf : t.isOrdinaryFunction
    · rw [if_pos hf] at h
      cases hn : a.hoistedNames.get? t.id with
      | none =>
        rw [hn] at h
        exact Or.inr (Or.inr ⟨ha', fun _ => rfl, (Prod.mk.inj h).1.symm⟩)
      | some name =>
        rw [hn] at h
        simp only at h
        cases hb : insertBinding t (bindingDeclaration t.id name) with
        | error f => rw [hb] at h; simp at h
        | ok v =>
          rw [hb] at h
          refine Or.inr (Or.inl ⟨ha', hf, name, rfl, ?_⟩)
          rw [hb]
          exact congrArg Except.ok (Prod.mk.inj h).1
    · rw [if_neg hf] at h
      exact Or.inr (Or.inr ⟨ha', fun h => absurd h hf, (Prod.mk.inj h).1.symm⟩)

/-! ## Arrows -/

/-- The statement that returns a concise body. -/
def returnFor (origin : NodeId) (body : Tree) : Tree :=
  made .returnOf origin .returnStatement body.location [body]

/-- The block around a concise body. -/
def returning (origin : NodeId) (body : Tree) : Tree :=
  made .blockOf origin .blockStatement body.location [.list [returnFor origin body]]

/-- The body of the function that stands for an arrow. -/
def blockFor (origin : NodeId) (body : Tree) : Tree :=
  if body.is .blockStatement then body else returning origin body

/-- The function that stands for an arrow, before it is bound. -/
def functionFor (i : Info) (params body : Tree) : Tree :=
  made .functionOf i.id .functionExpression i.location [.null, params, blockFor i.id body]

/-- What stands for an arrow. -/
def standIn (a : Analysis) (i : Info) (params body : Tree) : Tree :=
  if a.capturesThis i.id then bound i.id i.location (functionFor i params body)
  else functionFor i params body

theorem normalizeBody_ok {block : Tree} (h : normalizeBody origin body = .ok block) :
    body.isNode ∧ block = blockFor origin body := by
  unfold normalizeBody at h
  unfold blockFor
  by_cases hb : body.is .blockStatement
  · rw [if_pos hb] at h ⊢
    refine ⟨?_, (Except.ok.inj h).symm⟩
    cases body <;> first | rfl | simp [Tree.is, kind?] at hb
  · rw [if_neg hb] at h ⊢
    cases body with
    | node i s slots => exact ⟨rfl, (Except.ok.inj h).symm⟩
    | scalar | list | object => simp at h

theorem kind_of_isArrow (h : (Tree.node i s slots).isArrow) :
    s = .known .arrowFunctionExpression := by
  cases s with
  | known k =>
    cases k <;> first | rfl | simp [isArrow, kind?, Kind.isArrow] at h
  | other t names => simp [isArrow, kind?] at h

theorem not_ordinary_of_isArrow (h : t.isArrow) : t.isOrdinaryFunction = false := by
  rcases t.eq_node_or_not_node with ⟨i, s, slots, rfl⟩ | ht
  · rw [kind_of_isArrow h]
    rfl
  · cases t with
    | node i s slots => cases ht
    | scalar | list | object => rfl

theorem get_arrow
    (hp : (Tree.node i (.known .arrowFunctionExpression) slots).get "params" = .ok params)
    (hb : (Tree.node i (.known .arrowFunctionExpression) slots).get "body" = .ok body) :
    ∃ rest, slots = params :: body :: rest := by
  rcases slots with _ | ⟨p, _ | ⟨b, rest⟩⟩
  · simp [Tree.get, attribute?, Kind.layout, slot?] at hb
  · simp +decide [Tree.get, attribute?, Kind.layout, slot?, Field.sub] at hb
  · simp +decide [Tree.get, attribute?, Kind.layout, slot?, Field.sub] at hp hb
    exact ⟨rest, by rw [hp, hb]⟩

theorem lowerArrow_ok
    (h : lowerArrow (.node i (.known .arrowFunctionExpression) slots) (a.capturesThis i.id) = .ok u) :
    ∃ params body rest, slots = params :: body :: rest ∧ body.isNode ∧
      u = standIn a i params body := by
  unfold lowerArrow at h
  obtain ⟨params, hp, h⟩ := bind_ok.mp h
  obtain ⟨body, hb, h⟩ := bind_ok.mp h
  obtain ⟨block, hn, h⟩ := bind_ok.mp h
  obtain ⟨rest, rfl⟩ := get_arrow hp hb
  obtain ⟨hnode, rfl⟩ := normalizeBody_ok hn
  exact ⟨params, body, rest, rfl, hnode, (Except.ok.inj h).symm⟩

/-! ## Functions that get a variable -/

theorem kind_of_isOrdinaryFunction (h : (Tree.node i s slots).isOrdinaryFunction) :
    s = .known .functionDeclaration ∨ s = .known .functionExpression := by
  cases s with
  | known k =>
    cases k <;>
      first
      | exact Or.inl rfl
      | exact Or.inr rfl
      | simp [isOrdinaryFunction, kind?, Kind.isOrdinaryFunction] at h
  | other t names => simp [isOrdinaryFunction, kind?] at h

theorem layout_of_isOrdinaryFunction (h : k.isOrdinaryFunction) :
    k.layout = [.sub "id", .sub "params", .sub "body"] := by
  cases k <;> first | rfl | simp [Kind.isOrdinaryFunction] at h

theorem get_eq_ok (h : t.get name = .ok v) :
    ∃ i k slots, t = .node i (.known k) slots ∧ slot? name k.layout slots = some v := by
  unfold Tree.get at h
  cases hv : t.attribute? name with
  | none => rw [hv] at h; cases h
  | some w =>
    rw [hv] at h
    cases h
    unfold attribute? at hv
    split at hv
    · rename_i i k slots
      exact ⟨i, k, slots, rfl, hv⟩
    · simp at hv

theorem insertInto_ok (h : insertInto d t = .ok u) : ∃ ss, t = .list ss ∧ u = .list (insertStatement d ss) := by
  unfold insertInto at h
  split at h
  · exact ⟨_, rfl, (Except.ok.inj h).symm⟩
  all_goals cases h

theorem insertBinding_ok (hk : k.isOrdinaryFunction)
    (h : insertBinding (.node i (.known k) slots) d = .ok u) :
    ∃ id params ib kb bslots rest ss, slots = id :: params :: .node ib (.known kb) bslots :: rest ∧
      slot? "body" kb.layout bslots = some (.list ss) ∧
      u = .node i (.known k) (id :: params ::
        .node ib (.known kb) (setSlot "body" (.list (insertStatement d ss)) kb.layout bslots) ::
          rest) := by
  unfold insertBinding at h
  obtain ⟨body, hb, h⟩ := bind_ok.mp h
  obtain ⟨statements, hs, h⟩ := bind_ok.mp h
  obtain ⟨inserted, hi, h⟩ := bind_ok.mp h
  cases h
  obtain ⟨ss, rfl, rfl⟩ := insertInto_ok hi
  obtain ⟨ib, kb, bslots, rfl, hslot⟩ := get_eq_ok hs
  obtain ⟨i', k', slots', heq, hbody⟩ := get_eq_ok hb
  cases heq
  rw [layout_of_isOrdinaryFunction hk] at hbody
  rcases slots with _ | ⟨id, _ | ⟨params, _ | ⟨b, rest⟩⟩⟩
  · simp [slot?] at hbody
  · simp +decide [slot?] at hbody
  · simp +decide [slot?] at hbody
  · simp +decide [slot?] at hbody
    subst hbody
    refine ⟨id, params, ib, kb, bslots, rest, ss, rfl, hslot, ?_⟩
    simp +decide [Tree.set, Shape.fields, layout_of_isOrdinaryFunction hk, setSlot, Field.sub]

/-! ## The five ways -/

/-- What can stand for a tree once lowering has gone through. -/
inductive Lowers (a : Analysis) : Tree → Tree → Prop
  /-- A value that is no node stays as it is. -/
  | value {t : Tree} (h : t.isNode = false) : Lowers a t t
  /-- An identifier gets a new name. -/
  | renamed {i : Info} {slots : List Tree} {name : Text} (h : a.replacement? i.id = some name) :
      Lowers a (.node i (.known .identifier) slots)
        (.node ⟨.renamed i.id, i.location⟩ (.known .identifier) [.text name])
  /-- A node stays around its lowered children. -/
  | kept {i : Info} {s : Shape} {slots slots' : List Tree}
      (hname : rename? a (.node i s slots) = none)
      (harrow : (Tree.node i s slots).isArrow = false)
      (hfun : (Tree.node i s slots).isOrdinaryFunction → a.hoistedNames.get? i.id = none)
      (hslots : applySlots a s.fields slots = (slots', none)) :
      Lowers a (.node i s slots) (.node i s (written a s slots slots'))
  /-- An arrow becomes a function. -/
  | arrow {i : Info} {params body params' body' : Tree} {rest : List Tree}
      (hparams : applySlot a (.sub "params") params = (params', none))
      (hbody : apply a body = (body', none)) (hnode : body'.isNode) :
      Lowers a (.node i (.known .arrowFunctionExpression) (params :: body :: rest))
        (standIn a i params' body')
  /-- A function gets a variable for its arguments. -/
  | hoisted {i ib : Info} {k kb : Kind} {id params id' params' : Tree} {name : Text}
      {bslots bslots' rest ss : List Tree} (hk : k.isOrdinaryFunction)
      (hname : a.hoistedNames.get? i.id = some name)
      (hid : applySlot a (.sub "id") id = (id', none))
      (hparams : applySlot a (.sub "params") params = (params', none))
      (hbname : rename? a (.node ib (.known kb) bslots) = none)
      (harrow : (Tree.node ib (.known kb) bslots).isArrow = false)
      (hbfun : (Tree.node ib (.known kb) bslots).isOrdinaryFunction →
        a.hoistedNames.get? ib.id = none)
      (hslots : applySlots a kb.layout bslots = (bslots', none))
      (hss : slot? "body" kb.layout (written a (.known kb) bslots bslots') = some (.list ss)) :
      Lowers a (.node i (.known k) (id :: params :: .node ib (.known kb) bslots :: rest))
        (.node i (.known k) (id' :: params' :: .node ib (.known kb)
          (setSlot "body" (.list (insertStatement (bindingDeclaration i.id name) ss)) kb.layout
            (written a (.known kb) bslots bslots')) :: rest))

theorem rename?_eq_some (h : rename? a t = some u) :
    ∃ i slots name, t = .node i (.known .identifier) slots ∧ a.replacement? i.id = some name ∧
      u = .node ⟨.renamed i.id, i.location⟩ (.known .identifier) [.text name] := by
  unfold rename? at h
  split at h
  · rename_i i slots
    obtain ⟨name, hname, rfl⟩ := Option.map_eq_some_iff.mp h
    exact ⟨i, slots, name, rfl, hname, rfl⟩
  · simp at h

theorem written_of_ne (h : k ≠ .property) (before after : List Tree) : written a (.known k) before after = after := by
  show writeOut a k before after = after
  unfold writeOut
  split
  · exact absurd rfl h
  · rfl

theorem kind?_node (i j : Info) (s : Shape) (slots slots' : List Tree) :
    (Tree.node i s slots).kind? = (Tree.node j s slots').kind? := by
  cases s <;> rfl

theorem isArrow_node (i j : Info) (s : Shape) (slots slots' : List Tree) :
    (Tree.node i s slots).isArrow = (Tree.node j s slots').isArrow := by
  unfold isArrow
  rw [kind?_node i j s slots slots']

theorem isOrdinaryFunction_node (i j : Info) (s : Shape) (slots slots' : List Tree) :
    (Tree.node i s slots).isOrdinaryFunction = (Tree.node j s slots').isOrdinaryFunction := by
  unfold isOrdinaryFunction
  rw [kind?_node i j s slots slots']

/-- The body of a function that is bound or not is a block, and no list of statements. -/
theorem slot_body_standIn (hnode : body.isNode) (h : standIn a i params body = .node ib (.known kb) bslots) :
    slot? "body" kb.layout bslots ≠ some (.list ss) := by
  unfold standIn at h
  split at h
  · obtain ⟨-, hk, rfl⟩ := Tree.node.inj h
    cases hk
    simp +decide [slot?, Kind.layout, Field.sub, Field.subs]
  · cases h
    simp +decide only [slot?, Kind.layout, Field.sub, if_false, if_true]
    intro hlist
    have hb := Option.some.inj hlist
    unfold blockFor at hb
    split at hb
    · rw [hb] at hnode
      cases hnode
    · cases hb

theorem applySlot_node (hf : f.child) (hu : u.isNode) (h : applySlot a f t = (u, none)) : apply a t = (u, none) := by
  unfold applySlot at h
  rw [if_pos hf] at h
  cases t with
  | list items =>
    obtain ⟨rfl, -⟩ := Prod.mk.inj h
    cases hu
  | scalar | object | node => exact h

/-- A body that holds a list of statements after lowering was kept. -/
theorem kept_of_statements (h : apply a t = (.node ib (.known kb) bslots, none))
    (hss : slot? "body" kb.layout bslots = some (.list ss)) :
    ∃ slots slots', t = .node ib (.known kb) slots ∧ rename? a t = none ∧ t.isArrow = false ∧
      (t.isOrdinaryFunction → a.hoistedNames.get? ib.id = none) ∧
      applySlots a kb.layout slots = (slots', none) ∧
      bslots = written a (.known kb) slots slots' := by
  rcases t.eq_node_or_not_node with ⟨i, s, slots, rfl⟩ | ht
  swap
  · rw [apply_of_not_node ht] at h
    rw [(Prod.mk.inj h).1] at ht
    cases ht
  rcases apply_node_ok.mp h with hr | ⟨hr, slots', hslots, hleave⟩
  · obtain ⟨i', slots', name, -, -, hu⟩ := rename?_eq_some hr
    obtain ⟨-, hk, rfl⟩ := Tree.node.inj hu
    cases hk
    simp +decide [slot?, Kind.layout, Field.attr] at hss
  rcases leave_ok hleave with ⟨harrow, hl⟩ | ⟨harrow, hfun, name, hname, hi⟩ | ⟨harrow, hfun, hu⟩
  · obtain rfl := kind_of_isArrow harrow
    obtain ⟨params', body', rest', -, hnode, hu⟩ := lowerArrow_ok hl
    exact absurd hss (slot_body_standIn hnode hu.symm)
  · obtain ⟨k, rfl⟩ : ∃ k, s = .known k := by
      rcases kind_of_isOrdinaryFunction hfun with rfl | rfl
      · exact ⟨_, rfl⟩
      · exact ⟨_, rfl⟩
    have hk : k.isOrdinaryFunction := hfun
    obtain ⟨id, params, ib', kb', bslots', rest, ss', -, -, hu⟩ := insertBinding_ok hk hi
    cases hu
    rw [layout_of_isOrdinaryFunction hk] at hss
    simp +decide [slot?] at hss
  · cases hu
    rw [isArrow_node ib ib _ _ slots] at harrow
    rw [isOrdinaryFunction_node ib ib _ _ slots] at hfun
    exact ⟨slots, slots', rfl, hr, harrow, hfun, hslots, rfl⟩

theorem lowers_of_apply (h : apply a t = (u, none)) : Lowers a t u := by
  rcases t.eq_node_or_not_node with ⟨i, s, slots, rfl⟩ | ht
  swap
  · rw [apply_of_not_node ht] at h
    cases h
    exact .value ht
  rcases apply_node_ok.mp h with hr | ⟨hr, slots', hslots, hleave⟩
  · obtain ⟨i', slots', name, heq, hname, rfl⟩ := rename?_eq_some hr
    cases heq
    exact .renamed hname
  rcases leave_ok hleave with ⟨harrow, hl⟩ | ⟨harrow, hfun, name, hname, hi⟩ | ⟨harrow, hfun, rfl⟩
  · obtain rfl := kind_of_isArrow harrow
    rw [written_of_ne (by decide)] at hl
    obtain ⟨params', body', rest', rfl, hnode, rfl⟩ := lowerArrow_ok hl
    obtain ⟨params, _, rfl, hparams, htail⟩ := applySlots_eq_cons hslots
    obtain ⟨body, rest, rfl, hbody, -⟩ := applySlots_eq_cons htail
    exact .arrow hparams (applySlot_node rfl hnode hbody) hnode
  · obtain ⟨k, rfl⟩ : ∃ k, s = .known k := by
      rcases kind_of_isOrdinaryFunction hfun with rfl | rfl
      · exact ⟨_, rfl⟩
      · exact ⟨_, rfl⟩
    have hk : k.isOrdinaryFunction := hfun
    have hne : k ≠ .property := by
      rintro rfl
      cases hk
    rw [written_of_ne hne] at hi
    obtain ⟨id', params', ib, kb, bslots', rest', ss, rfl, hss, rfl⟩ := insertBinding_ok hk hi
    rw [Shape.fields, layout_of_isOrdinaryFunction hk] at hslots
    obtain ⟨id, _, rfl, hid, htail⟩ := applySlots_eq_cons hslots
    obtain ⟨params, _, rfl, hparams, htail⟩ := applySlots_eq_cons htail
    obtain ⟨body, rest, rfl, hbody, hrest⟩ := applySlots_eq_cons htail
    rw [applySlots_nil] at hrest
    cases hrest
    obtain ⟨slots, slots', rfl, hbname, hbarrow, hbfun, hbslots, rfl⟩ :=
      kept_of_statements (applySlot_node rfl rfl hbody) hss
    exact .hoisted hk hname hid hparams hbname hbarrow hbfun hbslots hss
  · rw [isArrow_node i i _ _ slots] at harrow
    rw [isOrdinaryFunction_node i i _ _ slots] at hfun
    exact .kept hr harrow hfun hslots

theorem apply_kept {slots' : List Tree} (hname : rename? a (.node i s slots) = none)
    (harrow : (Tree.node i s slots).isArrow = false)
    (hfun : (Tree.node i s slots).isOrdinaryFunction → a.hoistedNames.get? i.id = none)
    (hslots : applySlots a s.fields slots = (slots', none)) :
    apply a (.node i s slots) = (.node i s (written a s slots slots'), none) := by
  refine apply_node_ok.mpr (.inr ⟨hname, slots', hslots, ?_⟩)
  rw [isArrow_node i i s slots (written a s slots slots')] at harrow
  rw [isOrdinaryFunction_node i i s slots (written a s slots slots')] at hfun
  unfold leave
  rw [if_neg (Bool.eq_false_iff.mp harrow)]
  split
  · next hordinary =>
    have hnone : a.hoistedNames.get? (Tree.node i s (written a s slots slots')).id = none := hfun hordinary
    rw [hnone]
  · rfl

/-! ## Occurrences after lowering -/

theorem carried_items (h : applyItems a ts = (ts', none)) (field : Text) (n : Nat) :
    Forall₂ (Carried a) (itemsFrom field n ts) (itemsFrom field n ts') := by
  induction ts generalizing n ts' with
  | nil =>
    cases h
    exact .nil
  | cons t ts ih =>
    obtain ⟨t', ts', rfl, ht, hts⟩ := applyItems_cons_ok.mp h
    exact .cons ⟨rfl, rfl, ht⟩ (ih hts (n + 1))

theorem isNode_apply (h : apply a t = (u, none)) : u.isNode = t.isNode := by
  cases lowers_of_apply h with
  | value | renamed | kept => rfl
  | arrow hparams hbody hnode =>
    unfold standIn
    split <;> rfl
  | hoisted hk hname hid hparams hbname harrow hbfun hslots hss => rfl

theorem carried_slot {t' : Tree} (h : applySlot a f t = (t', none)) :
    Forall₂ (Carried a) (occurrencesOf f t) (occurrencesOf f t') := by
  unfold applySlot at h
  unfold occurrencesOf
  by_cases hf : f.child
  · rw [if_pos hf] at h ⊢
    rw [if_pos hf]
    cases t with
    | list items =>
      obtain ⟨rfl, he⟩ := Prod.mk.inj h
      exact carried_items (Prod.ext rfl he) _ _
    | scalar s | object fields =>
      cases h
      exact .cons ⟨rfl, rfl, rfl⟩ .nil
    | node i s slots =>
      have hnode : t'.isNode := isNode_apply h
      cases t' with
      | node i' s' slots' => exact .cons ⟨rfl, rfl, h⟩ .nil
      | scalar s | list items | object fields => cases hnode
  · rw [if_neg hf, if_neg hf]
    exact .nil

theorem carried_slots (h : applySlots a fs ts = (ts', none)) :
    Forall₂ (Carried a) (occurrencesIn fs ts) (occurrencesIn fs ts') := by
  induction fs generalizing ts ts' with
  | nil => exact .nil
  | cons f fs ih =>
    cases ts with
    | nil =>
      cases h
      exact .nil
    | cons t ts =>
      obtain ⟨t', ts', rfl, ht, hts⟩ := applySlots_cons_ok.mp h
      exact rel_append (carried_slot ht) (ih hts)

theorem origin_of_carried {os os' : List Occurrence} (h : Forall₂ (Carried a) os os') (ho' : o' ∈ os') :
    ∃ o ∈ os, Carried a o o' := by
  induction h with
  | nil => simp at ho'
  | cons hc _ ih =>
    rcases mem_cons.mp ho' with rfl | ho'
    · exact ⟨_, mem_cons_self, hc⟩
    · obtain ⟨o, ho, hc⟩ := ih ho'
      exact ⟨o, mem_cons_of_mem _ ho, hc⟩

theorem occurrencesIn_written (s : Shape) (before after : List Tree) :
    occurrencesIn s.fields (written a s before after) = occurrencesIn s.fields after := by
  cases s with
  | other t names => rfl
  | known k =>
    show occurrencesIn k.layout (writeOut a k before after) = _
    unfold writeOut
    split
    · split
      · rfl
      · rfl
    · rfl

theorem child_of_body (hf : f ∈ k.layout) (hname : f.name = "body") : f.child := by
  have all : ∀ k ∈ Kind.all, ∀ f ∈ k.layout, f.name = "body" → f.child := by decide
  exact all k (Kind.mem_all k) f hf hname

theorem occurrencesIn_setSlot (hchild : ∀ f ∈ fs, f.name = name → f.child) (h : slot? name fs ts = some v) :
    ∃ f before after, f.name = name ∧ f.child ∧
      occurrencesIn fs ts = before ++ occurrencesOf f v ++ after ∧
      ∀ w, occurrencesIn fs (setSlot name w fs ts) = before ++ occurrencesOf f w ++ after := by
  induction fs generalizing ts with
  | nil => simp [slot?] at h
  | cons f fs ih =>
    cases ts with
    | nil => simp [slot?] at h
    | cons t ts =>
      by_cases hf : f.name = name
      · rw [slot?, if_pos hf] at h
        cases h
        refine ⟨f, [], occurrencesIn fs ts, hf, hchild f mem_cons_self hf, rfl, fun w => ?_⟩
        rw [setSlot, if_pos hf]
        rfl
      · rw [slot?, if_neg hf] at h
        obtain ⟨g, before, after, hg, hgc, hocc, hset⟩ :=
          ih (fun f' hf' => hchild f' (mem_cons_of_mem _ hf')) h
        refine ⟨g, occurrencesOf f t ++ before, after, hg, hgc, ?_, fun w => ?_⟩
        · rw [occurrencesIn_cons, hocc]
          simp only [append_assoc]
        · rw [setSlot, if_neg hf, occurrencesIn_cons, hset w]
          simp only [append_assoc]

/-- The statements in the body of a function, beside whatever else occurs there. -/
theorem carried_statements (hslots : applySlots a kb.layout bslots = (bslots', none))
    (hss : slot? "body" kb.layout (written a (.known kb) bslots bslots') = some (.list ss)) :
    ∃ before after, Forall₂ (Carried a) (occurrencesIn kb.layout bslots)
        (before ++ itemsFrom "body" 0 ss ++ after) ∧
      ∀ statements, occurrencesIn kb.layout
        (setSlot "body" (.list statements) kb.layout (written a (.known kb) bslots bslots')) =
          before ++ itemsFrom "body" 0 statements ++ after := by
  obtain ⟨f, before, after, hf, hchild, hocc, hset⟩ :=
    occurrencesIn_setSlot (fun f hf => child_of_body hf) hss
  have hof : ∀ statements, occurrencesOf f (.list statements) = itemsFrom "body" 0 statements := by
    intro statements
    unfold occurrencesOf
    rw [if_pos hchild, hf]
  refine ⟨before, after, ?_, fun statements => ?_⟩
  · rw [← hof, ← hocc]
    exact (occurrencesIn_written (.known kb) bslots bslots').symm ▸ carried_slots hslots
  · rw [hset, hof]

theorem mem_insertStatement : t ∈ insertStatement d ss ↔ t = d ∨ t ∈ ss := by
  unfold insertStatement
  rw [mem_append, mem_cons, or_left_comm, ← mem_append,
    takeWhile_append_dropWhile]

/-- Whatever occurs in the body of a function that got a variable is the declaration of that variable,
or stands for what occurred there before. -/
theorem origin_of_statement (hslots : applySlots a kb.layout bslots = (bslots', none))
    (hss : slot? "body" kb.layout (written a (.known kb) bslots bslots') = some (.list ss))
    (ho' : o' ∈ occurrencesIn kb.layout (setSlot "body" (.list (insertStatement d ss)) kb.layout
      (written a (.known kb) bslots bslots'))) :
    (o'.field = "body" ∧ o'.tree = d) ∨
      ∃ o ∈ occurrencesIn kb.layout bslots, o'.field = o.field ∧ apply a o.tree = (o'.tree, none) := by
  obtain ⟨before, after, hcarried, hset⟩ := carried_statements hslots hss
  have hold : ∀ o' ∈ before ++ itemsFrom "body" 0 ss ++ after,
      ∃ o ∈ occurrencesIn kb.layout bslots, o'.field = o.field ∧ apply a o.tree = (o'.tree, none) := by
    intro o' ho'
    obtain ⟨o, ho, hc⟩ := origin_of_carried hcarried ho'
    exact ⟨o, ho, hc.field, hc.tree⟩
  rw [hset, mem_append, mem_append] at ho'
  rcases ho' with (ho' | ho') | ho'
  · exact Or.inr (hold o' (by simp [ho']))
  · obtain ⟨hfield, -, hmem⟩ := mem_itemsFrom ho'
    rcases mem_insertStatement.mp hmem with hd | hd
    · exact Or.inl ⟨hfield, hd⟩
    · obtain ⟨n, hn⟩ := exists_mem_itemsFrom "body" 0 hd
      obtain ⟨o, ho, hof, hot⟩ := hold ⟨"body", some n, o'.tree⟩ (by simp [hn])
      exact Or.inr ⟨o, ho, hfield.trans hof, hot⟩
  · exact Or.inr (hold o' (by simp [ho']))

theorem isNode_blockFor (h : body.isNode) : (blockFor origin body).isNode := by
  unfold blockFor
  split
  · exact h
  · rfl

theorem occurrences_arrow (i : Info) (params : Tree) (rest : List Tree) (h : body.isNode) :
    (Tree.node i (.known .arrowFunctionExpression) (params :: body :: rest)).occurrences =
      occurrencesOf (.sub "params") params ++ [⟨"body", none, body⟩] := by
  have hb : occurrencesOf (.sub "body") body = _ := occurrencesOf_of_isNode rfl h
  show occurrencesOf (.sub "params") params ++ (occurrencesOf (.sub "body") body ++
    occurrencesIn [.attrOr "expression" (.bool false)] rest) = _
  rw [hb]
  cases rest <;> rfl

theorem occurrences_function (i : Info) (hk : k.isOrdinaryFunction) (id params : Tree) (rest : List Tree)
    (h : body.isNode) :
    (Tree.node i (.known k) (id :: params :: body :: rest)).occurrences =
      occurrencesOf (.sub "id") id ++ (occurrencesOf (.sub "params") params ++
        [⟨"body", none, body⟩]) := by
  have hb : occurrencesOf (.sub "body") body = _ := occurrencesOf_of_isNode rfl h
  rw [occurrences_node, Shape.fields, layout_of_isOrdinaryFunction hk, occurrencesIn_cons,
    occurrencesIn_cons, occurrencesIn_cons, hb]
  rfl

theorem occurrences_functionFor (h : body.isNode) : (functionFor i params body).occurrences =
      ⟨"id", none, .null⟩ :: (occurrencesOf (.sub "params") params ++
        [⟨"body", none, blockFor i.id body⟩]) := by
  exact occurrences_function _ rfl _ _ [] (isNode_blockFor h)

theorem occurrences_returning (origin : NodeId) (body : Tree) :
    (returning origin body).occurrences = [⟨"body", some 0, returnFor origin body⟩] := rfl

theorem occurrences_returnFor (h : body.isNode) :
    (returnFor origin body).occurrences = [⟨"argument", none, body⟩] := by
  cases body with
  | node i s slots => rfl
  | scalar | list | object => cases h

/-- The member `f.bind` of a function. -/
def bindMember (origin : NodeId) (location : Option Location) (function : Tree) : Tree :=
  made .memberOf origin .memberExpression location
    [function, made .bindNameOf origin .identifier none [.text "bind"], .bool false]

/-- The `this` that a function is bound to. -/
def boundThis (origin : NodeId) : Tree := made .boundThisOf origin .thisExpression none []

theorem occurrences_bound (origin : NodeId) (location : Option Location) (function : Tree) :
    (bound origin location function).occurrences =
      [⟨"callee", none, bindMember origin location function⟩,
       ⟨"arguments", some 0, boundThis origin⟩] := rfl

theorem occurrences_bindMember (origin : NodeId) (location : Option Location) {function : Tree}
    (h : function.isNode) :
    (bindMember origin location function).occurrences = [⟨"object", none, function⟩,
       ⟨"property", none, made .bindNameOf origin .identifier none [.text "bind"]⟩] := by
  cases function with
  | node i s slots => rfl
  | scalar | list | object => cases h

end ArrowFree.Lowering
