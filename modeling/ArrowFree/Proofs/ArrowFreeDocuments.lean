import ArrowFree.Proofs.Exchanged
import ArrowFree.Proofs.Idempotent

/-!
# Documents without arrows

A document goes through lowering by being read, lowered and written again. Two things hold of the
result.

1. No arrow is left where a traversal comes (`reached_without_arrow`): lowering keeps a tree within what
   documents can hold (`exchangeable_of_apply`), so that a node of unknown type is never written as an
   arrow, and nodes of known kinds are no arrows any more. What a traversal does not enter is left as it
   is, arrows included: attributes, lists within lists, and objects that are no nodes
   (`arrow_left_in_plain_object`).
2. A document in which nothing is an arrow is kept (`kept_withoutArrows`), but of a node of known kind
   only the fields that the kind declares.
-/

namespace ArrowFree

open List

namespace Estree

open ArrowFree.Tree Lowering

variable {a : Analysis}
variable {t v : Tree} {ts : List Tree} {i : Info} {fs : List Field} {s : Shape}

/-! ## Lowering keeps what documents can hold -/

theorem exchangeable_made {role : Role} {origin : NodeId} {k : Kind} {location : Option Location}
    {slots : List Tree} (hlength : slots.length = k.layout.length) (h : ∀ t ∈ slots, Exchangeable t) :
    Exchangeable (made role origin k location slots) :=
  .node trivial hlength h

theorem exchangeable_bindingDeclaration (origin : NodeId) (name : Text) :
    Exchangeable (bindingDeclaration origin name) := by
  have hname (role : Role) (x : Text) : Exchangeable (made role origin .identifier none [.text x]) :=
    exchangeable_made rfl (by simpa using .scalar _)
  have hdeclarator : Exchangeable (bindingDeclarator origin name) :=
    exchangeable_made rfl (by simpa using ⟨hname _ _, hname _ _⟩)
  exact exchangeable_made rfl (forall_mem_cons.mpr
    ⟨.list (forall_mem_singleton.mpr hdeclarator), forall_mem_singleton.mpr (.scalar _)⟩)

theorem exchangeable_standIn {params body : Tree} (hparams : Exchangeable params) (hbody : Exchangeable body) :
    Exchangeable (standIn a i params body) := by
  have hreturn : Exchangeable (returnFor i.id body) := exchangeable_made rfl (by simpa using hbody)
  have hblock : Exchangeable (blockFor i.id body) := by
    unfold blockFor
    split
    · exact hbody
    · exact exchangeable_made rfl (by simpa using .list (by simpa using hreturn))
  have hfunction : Exchangeable (functionFor i params body) :=
    exchangeable_made rfl (by simpa using ⟨.scalar _, hparams, hblock⟩)
  unfold standIn
  split
  · have hname : Exchangeable (made .bindNameOf i.id .identifier none [.text "bind"]) :=
      exchangeable_made rfl (by simpa using .scalar _)
    have hmember : Exchangeable (bindMember i.id i.location (functionFor i params body)) :=
      exchangeable_made rfl (by simpa using ⟨hfunction, hname, .scalar _⟩)
    have hthis : Exchangeable (boundThis i.id) := exchangeable_made rfl (by simp)
    exact exchangeable_made rfl (forall_mem_cons.mpr
      ⟨hmember, forall_mem_singleton.mpr (.list (forall_mem_singleton.mpr hthis))⟩)
  · exact hfunction

theorem exchangeable_items {us : List Tree} (ih : ∀ t ∈ ts, ∀ u, apply a t = (u, none) → Exchangeable u)
    (h : applyItems a ts = (us, none)) : ∀ u ∈ us, Exchangeable u := by
  induction ts generalizing us with
  | nil =>
    cases h
    simp
  | cons t ts ihs =>
    obtain ⟨u, us, rfl, ht, hts⟩ := applyItems_cons_ok.mp h
    obtain ⟨ih, iht⟩ := forall_mem_cons.mp ih
    exact forall_mem_cons.mpr ⟨ih u ht, ihs iht hts⟩

/-- What lowering makes of a value, alone or as a list of values, is exchangeable. -/
def Stays (a : Analysis) (t : Tree) : Prop :=
  Exchangeable t ∧ (∀ u, apply a t = (u, none) → Exchangeable u) ∧
    ∀ ts us, t = .list ts → applyItems a ts = (us, none) → ∀ u ∈ us, Exchangeable u

theorem Stays.slot {f : Field} {t u : Tree} (h : Stays a t) (hu : applySlot a f t = (u, none)) :
    Exchangeable u := by
  obtain ⟨hself, hnode, hlist⟩ := h
  unfold applySlot at hu
  split at hu
  · split at hu
    · next items =>
      obtain ⟨rfl, hfault⟩ := Prod.mk.inj hu
      exact .list (hlist items _ rfl (Prod.ext rfl hfault))
    · exact hnode u hu
  · cases hu
    exact hself

theorem exchangeable_slots {us : List Tree} (ih : ∀ t ∈ ts, Stays a t) (h : applySlots a fs ts = (us, none)) :
    us.length = ts.length ∧ ∀ u ∈ us, Exchangeable u := by
  induction fs generalizing ts us with
  | nil =>
    rw [applySlots_nil] at h
    cases h
    exact ⟨rfl, fun t ht => (ih t ht).1⟩
  | cons f fs ihs =>
    cases ts with
    | nil =>
      cases h
      simp
    | cons t ts =>
      obtain ⟨u, us, rfl, ht, hts⟩ := applySlots_cons_ok.mp h
      obtain ⟨iht, ihts⟩ := forall_mem_cons.mp ih
      obtain ⟨hlength, hus⟩ := ihs ihts hts
      exact ⟨by simp [hlength], forall_mem_cons.mpr ⟨iht.slot ht, hus⟩⟩

theorem exchangeable_written (s : Shape) (before : List Tree) {after : List Tree} (h : ∀ u ∈ after, Exchangeable u) :
    (written a s before after).length = after.length ∧ ∀ u ∈ written a s before after, Exchangeable u := by
  cases s with
  | other type names => exact ⟨rfl, h⟩
  | known k =>
    change (writeOut a k before after).length = _ ∧ ∀ u ∈ writeOut a k before after, _
    unfold writeOut
    split
    · split
      · refine ⟨rfl, ?_⟩
        simp only [forall_mem_cons] at h ⊢
        exact ⟨h.1, h.2.1, h.2.2.1, .scalar _, h.2.2.2.2⟩
      · exact ⟨rfl, h⟩
    · exact ⟨rfl, h⟩

theorem mem_of_slot? {name : Text} (h : slot? name fs ts = some v) : v ∈ ts := by
  induction fs generalizing ts with
  | nil => simp [slot?] at h
  | cons f fs ih =>
    cases ts with
    | nil => simp [slot?] at h
    | cons t ts =>
      rw [slot?] at h
      split at h
      · exact Option.some.inj h ▸ mem_cons_self
      · exact mem_cons_of_mem t (ih h)

theorem exchangeable_setSlot (name : Text) (fs : List Field) (hv : Exchangeable v) (h : ∀ t ∈ ts, Exchangeable t) :
    (setSlot name v fs ts).length = ts.length ∧ ∀ t ∈ setSlot name v fs ts, Exchangeable t := by
  induction fs generalizing ts with
  | nil => exact ⟨rfl, h⟩
  | cons f fs ih =>
    cases ts with
    | nil => exact ⟨rfl, h⟩
    | cons t ts =>
      obtain ⟨ht, hts⟩ := forall_mem_cons.mp h
      obtain ⟨hlength, hset⟩ := ih hts
      rw [setSlot]
      split
      · exact ⟨rfl, forall_mem_cons.mpr ⟨hv, hts⟩⟩
      · exact ⟨by simp [hlength], forall_mem_cons.mpr ⟨ht, hset⟩⟩

theorem Exchangeable.slots {slots : List Tree} (h : Exchangeable (.node i s slots)) :
    slots.length = s.fields.length ∧ ∀ t ∈ slots, Exchangeable t := by
  cases h with
  | node _ hlength h => exact ⟨hlength, h⟩

theorem Exchangeable.items (h : Exchangeable (.list ts)) : ∀ t ∈ ts, Exchangeable t := by
  cases h with
  | list h => exact h

theorem exchangeable_hoisted {k : Kind} {slots ss : List Tree} {d : Tree}
    (h : Exchangeable (.node i (.known k) slots)) (hd : Exchangeable d)
    (hss : slot? "body" k.layout slots = some (.list ss)) :
    Exchangeable (.node i (.known k)
      (setSlot "body" (.list (insertStatement d ss)) k.layout slots)) := by
  obtain ⟨hlength, hslots⟩ := h.slots
  have hin : Exchangeable (.list ss) := hslots _ (mem_of_slot? hss)
  have hlist : Exchangeable (.list (insertStatement d ss)) :=
    .list fun t ht => (mem_insertStatement.mp ht).elim (fun e => e ▸ hd) (hin.items t)
  obtain ⟨hset, hall⟩ := exchangeable_setSlot "body" k.layout hlist hslots
  exact .node trivial (hset.trans hlength) hall

theorem Stays.value (h : Exchangeable t) (ht : t.isNode = false)
    (hlist : ∀ ts us, t = .list ts → applyItems a ts = (us, none) → ∀ u ∈ us, Exchangeable u) : Stays a t := by
  refine ⟨h, fun u hu => ?_, hlist⟩
  rw [apply_of_not_node ht] at hu
  exact (Prod.mk.inj hu).1 ▸ h

theorem exchangeable_of_apply {u : Tree} (ht : Exchangeable t) (h : apply a t = (u, none)) : Exchangeable u := by
  suffices hstays : Stays a t from hstays.2.1 u h
  clear h
  induction ht with
  | scalar x => exact .value (.scalar x) rfl nofun
  | object hfields => exact .value (.object hfields) rfl nofun
  | list hitems ih =>
    refine .value (.list hitems) rfl fun ts us e hus => ?_
    cases e
    exact exchangeable_items (fun t ht => (ih t ht).2.1) hus
  | @node i s slots hs hlength hslots ih =>
    refine ⟨.node hs hlength hslots, fun u hu => ?_, nofun⟩
    generalize ht : Tree.node i s slots = t at hu
    cases lowers_of_apply hu with
    | value hv => cases ht; cases hv
    | renamed hname => exact .node trivial rfl (by simpa using .scalar _)
    | kept hname harrow hfun hslots' =>
      cases ht
      obtain ⟨hlength', hafter⟩ := exchangeable_slots ih hslots'
      obtain ⟨hwritten, hall⟩ := exchangeable_written s slots hafter
      exact .node hs (hwritten.trans (hlength'.trans hlength)) hall
    | arrow hparams hbody hnode =>
      cases ht
      simp only [forall_mem_cons] at ih
      exact exchangeable_standIn (ih.1.slot hparams) (ih.2.1.2.1 _ hbody)
    | hoisted hk hname hid hparams hbname hbarrow hbfun hslots' hss =>
      cases ht
      simp only [forall_mem_cons] at ih hslots
      have hbody := ih.2.2.1.2.1 _ (apply_kept hbname hbarrow hbfun hslots')
      refine .node trivial hlength (forall_mem_cons.mpr ⟨ih.1.slot hid, forall_mem_cons.mpr
        ⟨ih.2.1.slot hparams, forall_mem_cons.mpr ⟨?_, hslots.2.2.2⟩⟩⟩)
      exact exchangeable_hoisted hbody (exchangeable_bindingDeclaration _ _) hss

theorem exchangeable_of_mapInfo {f : Info → Info} (h : Exchangeable (t.mapInfo f)) : Exchangeable t := by
  induction t using part_induction with
  | scalar x => exact .scalar x
  | object fields => exact h
  | list items ih =>
    rw [mapInfo_list] at h
    exact .list fun t ht => ih t ht (h.items _ (mem_map_of_mem ht))
  | node i s slots ih =>
    rw [mapInfo_node] at h
    cases h with
    | node hs hlength hslots =>
      exact .node hs (by simpa using hlength) fun t ht => ih t ht (hslots _ (mem_map_of_mem ht))

theorem exchangeable_of_read {file : Text} {d : Document} (h : read file d = .ok t) : Exchangeable t := by
  obtain ⟨u, hu, rfl, -⟩ := fresh_of_read h
  have hunnumbered : Exchangeable u.numbered.unnumbered := by
    rw [unnumbered_numbered, hu.unnumbered]
    exact hu.exchangeable
  exact exchangeable_of_mapInfo hunnumbered

/-! ## Where a traversal comes -/

/-- A field of a node's document that a traversal enters: a child field of its kind, or any field that a
node of unknown type keeps. -/
def enters (type : Scalar) (fields : List (Text × Document)) (name : Text) : Bool :=
  match kindOf? type fields with
  | some k => k.layout.any fun f => f.name = name && f.child
  | none => ! reserved.contains name

/-- The parts of a document that a traversal comes to: along the fields that it enters, to what stands
there on its own or as an item of a list. -/
inductive Reached : Document → Document → Prop
  | here (d : Document) : Reached d d
  | field {fields : List (Text × Document)} {type : Scalar} {name : Text} {v x : Document} :
      valueOf? "type" fields = some (.scalar type) → enters type fields name = true → (name, v) ∈ fields →
        Reached v x → Reached (.object fields) x
  | item {fields : List (Text × Document)} {type : Scalar} {name : Text} {vs : List Document}
      {v x : Document} : valueOf? "type" fields = some (.scalar type) → enters type fields name = true →
        (name, .list vs) ∈ fields → v ∈ vs → Reached v x → Reached (.object fields) x

section

variable {located : Bool} {i : Info} {s : Shape} {slots : List Tree}

theorem functionFlags_scalar (s : Shape) : ∀ p ∈ functionFlags s, ∃ x, p.2 = .scalar x := by
  cases s with
  | known k =>
    rw [functionFlags]
    split
    · simp [flag]
    · split
      · simp [flag, Document.null]
      · simp
  | other type names =>
    intro p hp
    cases hp

theorem written_child (hs : Regained s) (hlength : slots.length = s.fields.length) {name : Text}
    {w : Document} (henters : enters s.type (nodeFields located i s slots) name)
    (hw : (name, w) ∈ nodeFields located i s slots) :
    (∃ x, w = .scalar x) ∨ ∃ f v, (f, v) ∈ s.fields.zip slots ∧ f.child ∧ w = write located v := by
  rw [enters, kindOf?_written hs hlength] at henters
  rw [nodeFields, mem_cons, mem_append, mem_append, writeSlots_eq_map] at hw
  rcases hw with hw | (hw | hw) | hw
  · exact .inl ⟨_, (Prod.mk.inj hw).2⟩
  · obtain ⟨⟨f, v⟩, hfv, hw⟩ := mem_map.mp hw
    cases hw
    refine .inr ⟨f, v, hfv, ?_, rfl⟩
    cases s with
    | known k =>
      obtain ⟨g, hg, hboth⟩ := any_eq_true.mp henters
      obtain ⟨hname, hchild⟩ := Bool.and_eq_true_iff.mp hboth
      obtain rfl := inj_on_of_nodup_map (Kind.names_layout k) hg (of_mem_zip hfv).1
        (of_decide_eq_true hname)
      exact hchild
    | other type names =>
      obtain ⟨n, -, rfl⟩ := mem_map.mp (of_mem_zip hfv).1
      rfl
  · exact .inl (functionFlags_scalar s _ hw)
  · have hloc : name = "loc" := by
      unfold locationFields at hw
      split at hw
      · exact (Prod.mk.inj (mem_singleton.mp hw)).1
      · cases hw
    subst hloc
    cases s with
    | known k =>
      obtain ⟨g, hg, hboth⟩ := any_eq_true.mp henters
      have hname := of_decide_eq_true (Bool.and_eq_true_iff.mp hboth).1
      exact absurd (by rw [hname]; decide) (layout_not_reserved k g hg)
    | other type names => cases henters

end

theorem occurrencesOf_subset {f : Field} (h : (f, t) ∈ fs.zip ts) : occurrencesOf f t ⊆ occurrencesIn fs ts := by
  induction fs generalizing ts with
  | nil => simp at h
  | cons g fs ih =>
    cases ts with
    | nil => simp at h
    | cons u ts =>
      rw [zip_cons_cons, mem_cons, Prod.mk.injEq] at h
      rcases h with ⟨rfl, rfl⟩ | h
      · exact subset_append_left _ _
      · exact subset_append_of_subset_right _ (ih h)

theorem noArrow_child {slots : List Tree} (h : (Tree.node i s slots).NoArrow) {f : Field}
    (hfv : (f, v) ∈ s.fields.zip slots) (hf : f.child) :
    v.NoArrow ∧ ∀ ts, v = .list ts → ∀ t ∈ ts, t.NoArrow := by
  have hocc := (noArrow_node.mp h).2
  constructor
  · by_cases hv : v.isNode
    · refine hocc ⟨f.name, none, v⟩ (occurrencesOf_subset hfv ?_)
      rw [occurrencesOf_of_isNode hf hv]
      exact mem_singleton_self _
    · exact noArrow_of_not_node (Bool.eq_false_iff.mpr hv)
  · rintro ts rfl t ht
    obtain ⟨n, ho⟩ := exists_mem_itemsFrom f.name 0 ht
    refine hocc ⟨f.name, some n, t⟩ (occurrencesOf_subset hfv ?_)
    rw [occurrencesOf, if_pos hf]
    exact ho

/-- The type name of arrows. -/
abbrev arrowType : Document := .scalar (.text Kind.arrowFunctionExpression.typeName)

theorem type_of_regained (hs : Regained s) (harrow : s ≠ .known .arrowFunctionExpression) :
    Document.scalar s.type ≠ arrowType := by
  intro h
  have htype := Document.scalar.inj h
  cases s with
  | known k =>
    refine harrow (congrArg Shape.known ?_)
    have hkind := congrArg kindNamed? htype
    rw [Shape.type, kindNamed?_typeName, kindNamed?_typeName] at hkind
    exact Option.some.inj hkind
  | other type names =>
    have hkind : kindNamed? type = some .arrowFunctionExpression :=
      (congrArg kindNamed? htype).trans (kindNamed?_typeName _)
    cases (hs.2 _ hkind).1

/-- What a traversal enters in a written tree without arrows was written from one. -/
theorem entered_of_write {located : Bool} (ht : Exchangeable t) (hno : t.NoArrow) {fields : List (Text × Document)}
    {type : Scalar} {name : Text} {w : Document} (hd : write located t = .object fields)
    (htype : valueOf? "type" fields = some (.scalar type)) (henters : enters type fields name)
    (hw : (name, w) ∈ fields) :
    ∃ v, Exchangeable v ∧ v.NoArrow ∧ (∀ ts, v = .list ts → ∀ t ∈ ts, t.NoArrow) ∧
      w = write located v := by
  cases ht with
  | scalar | list => cases hd
  | object hfields =>
    cases hd
    cases hfields.symm.trans htype
  | node hs hlength hslots =>
    cases hd
    cases htype
    rcases written_child hs hlength henters hw with ⟨y, rfl⟩ | ⟨f, v, hfv, hf, rfl⟩
    · exact ⟨.scalar y, .scalar y, noArrow_of_not_node rfl, nofun, rfl⟩
    · obtain ⟨hv, hitems⟩ := noArrow_child hno hfv hf
      exact ⟨v, hslots v (of_mem_zip hfv).2, hv, hitems, rfl⟩

/-- A traversal of what was written of a tree without arrows comes to no arrow. -/
theorem not_arrow_of_reached {located : Bool} (ht : Exchangeable t) (hno : t.NoArrow) {x : Document}
    (hx : Reached (write located t) x) : x.field? "type" ≠ some arrowType := by
  generalize hd : write located t = d at hx
  induction hx generalizing t with
  | here d =>
    subst hd
    cases ht with
    | scalar | list =>
      intro h
      cases h
    | object hfields =>
      rw [write, Document.field?, hfields]
      intro h
      cases h
    | node hs hlength hslots =>
      refine fun h => type_of_regained hs ?_ (Option.some.inj h)
      rintro rfl
      cases (noArrow_node.mp hno).1
  | field htype henters hw _ ih =>
    obtain ⟨v, hv, hno, -, rfl⟩ := entered_of_write ht hno hd htype henters hw
    exact ih hv hno rfl
  | item htype henters hvs hmem _ ih =>
    obtain ⟨v, hv, -, hno, hlist⟩ := entered_of_write ht hno hd htype henters hvs
    cases hv with
    | scalar | object => cases hlist
    | node _ _ _ =>
      cases hlist
    | @list items hitems =>
      rw [write_list] at hlist
      cases hlist
      obtain ⟨t, ht, rfl⟩ := mem_map.mp hmem
      exact ih (hitems t ht) (hno items rfl t ht) rfl

end Estree

open Estree

variable {d : Document} {t : Tree} {strict : Bool}

theorem Tree.withoutArrows_ok {u : Tree} (h : t.withoutArrows strict = .ok u) :
    (Session.transform { strict } t).fault = none ∧ (Session.transform { strict } t).tree = u := by
  unfold Tree.withoutArrows at h
  generalize Session.transform { strict } t = run at h ⊢
  cases hfault : run.fault with
  | none =>
    simp only [hfault] at h
    exact ⟨rfl, Except.ok.inj h⟩
  | some f =>
    simp only [hfault] at h
    cases h

theorem Document.withoutArrows_ok {r : Document} (h : d.withoutArrows strict = .ok r) :
    ∃ t u, read "<estree>" d = .ok t ∧ t.withoutArrows strict = .ok u ∧
      r = write (d.field? "loc").isSome u := by
  obtain ⟨t, ht, h⟩ := bind_ok.mp h
  obtain ⟨u, hu, h⟩ := bind_ok.mp h
  exact ⟨t, u, ht, hu, (Except.ok.inj h).symm⟩

/-- **No arrow is left where a traversal comes.** -/
theorem reached_without_arrow {d r x : Document} {strict : Bool} (h : d.withoutArrows strict = .ok r)
    (hx : Reached r x) : x.field? "type" ≠ some arrowType := by
  obtain ⟨t, u, ht, hu, rfl⟩ := Document.withoutArrows_ok h
  obtain ⟨hfault, rfl⟩ := Tree.withoutArrows_ok hu
  obtain ⟨scopes, a, hl⟩ := transform_ok hfault
  exact not_arrow_of_reached (exchangeable_of_apply (exchangeable_of_read ht) hl.apply_eq)
    (Lowering.noArrow_of_apply hl.apply_eq) hx

/-- The document of `() => x`. -/
def arrowToX : Document :=
  .object [("type", arrowType), ("params", .list []),
    ("body", .object [("type", .scalar (.text "Identifier")), ("name", .scalar (.text "x"))]),
    ("expression", .scalar (.bool true))]

/-- The document of `function () { return x; }`. -/
def functionToX : Document :=
  .object [("type", .scalar (.text "FunctionExpression")), ("id", .null), ("params", .list []),
    ("body", .object [("type", .scalar (.text "BlockStatement")), ("body", .list [.object
      [("type", .scalar (.text "ReturnStatement")), ("argument", .object
        [("type", .scalar (.text "Identifier")), ("name", .scalar (.text "x"))])]])]),
    flag "generator", flag "expression", flag "async"]

/-- A node of unknown type around a value, in a list of statements. -/
def wrapped (v : Document) : Document :=
  .object [("type", .scalar (.text "Program")), ("body", .list [.object
    [("type", .scalar (.text "Wrapper")), ("value", v)]])]

theorem reached_without_arrow_wrapped :
    (wrapped arrowToX).withoutArrows = .ok (wrapped functionToX) ∧
      Reached (wrapped functionToX) functionToX ∧ functionToX.field? "type" ≠ some arrowType := by
  have hrun : (wrapped arrowToX).withoutArrows = .ok (wrapped functionToX) := by decide
  have hreached : Reached (wrapped functionToX) functionToX := by
    refine .item rfl (show enters (.text "Program") _ "body" = true by decide)
      (List.mem_cons_of_mem _ List.mem_cons_self) List.mem_cons_self ?_
    exact .field rfl (show enters (.text "Wrapper") _ "value" = true by decide)
      (List.mem_cons_of_mem _ List.mem_cons_self) (.here _)
  exact ⟨hrun, hreached, reached_without_arrow hrun hreached⟩

/-- Every part of a document, at any depth. -/
inductive Document.Within : Document → Document → Prop
  | here (d : Document) : Within d d
  | field {fields : List (Text × Document)} {name : Text} {v x : Document} :
      (name, v) ∈ fields → Within v x → Within (.object fields) x
  | item {vs : List Document} {v x : Document} : v ∈ vs → Within v x → Within (.list vs) x

/-- A node of unknown type with an arrow in an object that is no node. -/
def decorated : Document :=
  .object [("type", .scalar (.text "Decorator")), ("options", .object [("handler", arrowToX)])]

/-- An arrow in an object that is no node is left as it is. -/
theorem arrow_left_in_plain_object : decorated.withoutArrows = .ok decorated ∧
    decorated.Within arrowToX ∧ arrowToX.field? "type" = some arrowType :=
  ⟨by decide, .field (List.mem_cons_of_mem _ List.mem_cons_self) (.field List.mem_cons_self (.here _)), rfl⟩

/-! ## What is kept of a document -/

namespace Estree

/-- A field of a node's document that reading keeps: one that its kind declares, or any that does not
describe the node if its type is unknown. -/
def keeps (type : Scalar) (fields : List (Text × Document)) (name : Text) : Bool :=
  match kindOf? type fields with
  | some k => k.layout.any fun f => f.name = name
  | none => ! reserved.contains name

/-- A document with the same nodes, and the same values in the fields that are kept. -/
inductive Kept : Document → Document → Prop
  | scalar (x : Scalar) : Kept (.scalar x) (.scalar x)
  | list {ds es : List Document} : List.Forall₂ Kept ds es → Kept (.list ds) (.list es)
  | plain {fields : List (Text × Document)} : valueOf? "type" fields = none →
      Kept (.object fields) (.object fields)
  | node {fields fields' : List (Text × Document)} {type : Scalar} (value : Text → Document) :
      valueOf? "type" fields = some (.scalar type) → valueOf? "type" fields' = some (.scalar type) →
      (∀ name d, keeps type fields name = true → valueOf? name fields = some d →
        valueOf? name fields' = some (value name)) →
      (∀ name d, keeps type fields name = true → valueOf? name fields = some d → Kept d (value name)) →
        Kept (.object fields) (.object fields')

section

variable {file : Text} {located : Bool} {type : Scalar} {fields : List (Text × Document)} {name : Text}
  {d : Document}

theorem found_known {k : Kind} {l : Option Location} {slots : List Tree}
    (hslots : Forall₂ (Fills (readFields file fields)) k.layout slots)
    (hname : ∃ f ∈ k.layout, f.name = name) (hd : valueOf? name fields = some d) :
    ∃ u, readValue file d = .ok u ∧
      valueOf? name (nodeFields located ⟨.unset, l⟩ (.known k) slots) = some (write located u) := by
  obtain ⟨f, hf, rfl⟩ := hname
  rw [forall₂_iff_zip] at hslots
  obtain ⟨hlength, hfills⟩ := hslots
  rw [← map_fst_zip (Nat.le_of_eq hlength)] at hf
  obtain ⟨⟨f, u⟩, hfu, rfl⟩ := mem_map.mp hf
  have hreserved := layout_not_reserved k f (of_mem_zip hfu).1
  refine ⟨u, ?_, valueOf?_own ?_ (valueOf?_writeSlots located (Kind.names_layout k) hfu)⟩
  · have hfill := hfills hfu
    rwa [Fills, valueOf?_readFields, hd] at hfill
  · exact fun e => hreserved (by rw [e]; decide)

theorem valueOf?_own_fields (hname : name ∉ reserved) : valueOf? name (own fields) = valueOf? name fields := by
  induction fields with
  | nil => rfl
  | cons p fields ih =>
    unfold valueOf? own at ih ⊢
    rw [filter_cons, lookup_cons]
    by_cases hp : name = p.1
    · have hkeep : (! reserved.contains p.1) := by simpa [← hp] using hname
      rw [hkeep, if_pos rfl, lookup_cons, beq_iff_eq.mpr hp]
    · rw [beq_eq_false_iff_ne.mpr hp]
      split
      · rw [lookup_cons, beq_eq_false_iff_ne.mpr hp, ih]
      · exact ih

theorem found_other {l : Option Location} {slots : List Tree}
    (hslots : Forall₂ (fun p u => readValue file p.2 = .ok u) (own fields) slots)
    (hname : name ∉ reserved) (hd : valueOf? name fields = some d) :
    ∃ u, readValue file d = .ok u ∧
      valueOf? name (nodeFields located ⟨.unset, l⟩ (.other type ((own fields).map (·.1))) slots) =
        some (write located u) := by
  have htype : name ≠ "type" := fun e => hname (by rw [e]; decide)
  suffices h : ∃ u, readValue file d = .ok u ∧
      valueOf? name (writeSlots located (Shape.other type ((own fields).map (·.1))).fields slots) =
        some (write located u) by
    obtain ⟨u, hu, hfound⟩ := h
    exact ⟨u, hu, valueOf?_own htype hfound⟩
  rw [← valueOf?_own_fields hname] at hd
  generalize own fields = xs at hd hslots
  induction hslots with
  | nil => cases hd
  | @cons p u xs us hpu _ ih =>
    rw [valueOf?, lookup_cons] at hd
    rw [map_cons, Shape.fields, map_cons, writeSlots, valueOf?, lookup_cons]
    cases hp : name == p.1 with
    | true =>
      rw [hp] at hd
      cases hd
      exact ⟨u, hpu, rfl⟩
    | false =>
      rw [hp] at hd
      exact ih hd

theorem found_of_readAs {l : Option Location} {t : Tree}
    (h : readAs (kindOf? type fields) type l fields (readFields file fields) = .ok t) :
    ∃ s slots, t = .node ⟨.unset, l⟩ s slots ∧ s.type = type ∧
      ∀ name d, keeps type fields name → valueOf? name fields = some d →
        ∃ u, readValue file d = .ok u ∧
          valueOf? name (nodeFields located ⟨.unset, l⟩ s slots) = some (write located u) := by
  unfold keeps
  cases hk : kindOf? type fields with
  | some k =>
    rw [hk] at h
    obtain ⟨_, -, h⟩ := bind_ok.mp h
    obtain ⟨slots, hslots, h⟩ := bind_ok.mp h
    cases h
    rw [readSlots_ok] at hslots
    have hkind := (Option.filter_eq_some_iff.mp hk).1
    refine ⟨_, slots, rfl, (typeName_of_kindNamed? hkind).symm, fun name d hname => ?_⟩
    exact found_known hslots (by simpa using hname)
  | none =>
    rw [hk] at h
    obtain ⟨slots, hslots, h⟩ := bind_ok.mp h
    cases h
    rw [mapM_ok, own_readFields, readFields_eq_map, forall₂_map_left_iff] at hslots
    rw [names_own_readFields]
    exact ⟨_, slots, rfl, rfl, fun name d hname => found_other hslots (by simpa using hname)⟩

end

/-- What is written of a tree that was read keeps the document. -/
theorem kept_write {file : Text} {located : Bool} {d : Document} {t : Tree}
    (h : readValue file d = .ok t) : Kept d (write located t) := by
  induction d using Document.part_induction generalizing t with
  | scalar x =>
    cases h
    exact .scalar x
  | list items ih =>
    rw [readValue, map_ok, readItems_eq_mapM] at h
    obtain ⟨us, hus, rfl⟩ := h
    rw [mapM_ok] at hus
    rw [write_list]
    refine .list ?_
    rw [forall₂_map_right_iff]
    exact ((forall₂_and_left _ _).mpr ⟨ih, hus⟩).imp fun d t h => h.1 h.2
  | object fields ih =>
    rw [readValue] at h
    split at h
    · obtain ⟨type, l, htype, -, h⟩ := readNode_ok.mp h
      obtain ⟨s, slots, rfl, hs, hfound⟩ := found_of_readAs h
      rw [write_node]
      refine .node (fun name => (valueOf? name (nodeFields located ⟨.unset, l⟩ s slots)).getD .null)
        htype (hs ▸ valueOf?_type) (fun name d hname hd => ?_) fun name d hname hd => ?_
      · obtain ⟨u, -, hu⟩ := hfound name d hname hd
        rw [hu]
        rfl
      · obtain ⟨u, hread, hu⟩ := hfound name d hname hd
        rw [hu]
        exact ih _ (mem_of_valueOf? hd) hread
    · next htype =>
      cases h
      exact .plain (by simpa using htype)

end Estree

theorem Estree.readValue_of_read {file : Text} (h : read file d = .ok t) :
    ∃ v, readValue file d = .ok v ∧ t = v.numbered := by
  cases d with
  | scalar | list => cases h
  | object fields =>
    obtain ⟨v, hv, rfl⟩ := map_ok.mp h
    obtain ⟨l, s, slots, -, htype, -⟩ := readNode_cases hv
    refine ⟨v, ?_, rfl⟩
    rw [readValue, htype]
    exact hv

/-- No node is an arrow, whether or not a traversal comes to it. -/
inductive Tree.Arrowless : Tree → Prop
  | scalar (x : Scalar) : Arrowless (.scalar x)
  | object (fields : List (Text × Document)) : Arrowless (.object fields)
  | list {items : List Tree} : (∀ t ∈ items, Arrowless t) → Arrowless (.list items)
  | node {i : Info} {s : Shape} {slots : List Tree} : s ≠ .known .arrowFunctionExpression →
      (∀ t ∈ slots, Arrowless t) → Arrowless (.node i s slots)

/-- No object of the document is an arrow, at any depth. -/
def Document.Arrowless (d : Document) : Prop := ∀ x, d.Within x → x.field? "type" ≠ some arrowType

namespace Tree.Arrowless

open Lowering

theorem of_mapInfo {f : Info → Info} {t : Tree} (h : (t.mapInfo f).Arrowless) : t.Arrowless := by
  induction t using part_induction with
  | scalar x => exact .scalar x
  | object fields => exact .object fields
  | list items ih =>
    rw [mapInfo_list] at h
    cases h with
    | list h => exact .list fun t ht => ih t ht (h _ (mem_map_of_mem ht))
  | node i s slots ih =>
    rw [mapInfo_node] at h
    cases h with
    | node hs h => exact .node hs fun t ht => ih t ht (h _ (mem_map_of_mem ht))

theorem occurrence {fs : List Field} {ts : List Tree} (h : ∀ t ∈ ts, t.Arrowless) {o : Occurrence}
    (ho : o ∈ occurrencesIn fs ts) : o.tree.Arrowless := by
  induction fs generalizing ts with
  | nil => simp at ho
  | cons f fs ih =>
    cases ts with
    | nil => simp at ho
    | cons t ts =>
      obtain ⟨ht, hts⟩ := forall_mem_cons.mp h
      rw [occurrencesIn_cons, mem_append] at ho
      rcases ho with ho | ho
      · unfold occurrencesOf at ho
        split at ho
        · split at ho
          · cases ht with
            | list h => exact h _ (mem_itemsFrom ho).2.2
          · exact mem_singleton.mp ho ▸ ht
        · cases ho
      · exact ih hts ho

theorem noArrow {t : Tree} (h : t.Arrowless) : t.NoArrow := by
  induction t using occurrence_induction with
  | h t ih =>
    cases h with
    | scalar | object | list => exact noArrow_of_not_node rfl
    | @node i s slots hs hslots =>
      refine noArrow_node.mpr ⟨?_, fun o ho => ih o ho (occurrence hslots ho)⟩
      exact Bool.eq_false_iff.mpr fun harrow => hs (kind_of_isArrow harrow)

end Tree.Arrowless

theorem Document.Arrowless.readValue {file : Text} (hd : d.Arrowless) (h : readValue file d = .ok t) :
    t.Arrowless := by
  induction d using Document.part_induction generalizing t with
  | scalar x =>
    cases h
    exact .scalar x
  | list items ih =>
    rw [Estree.readValue, map_ok, readItems_eq_mapM] at h
    obtain ⟨us, hus, rfl⟩ := h
    rw [mapM_ok] at hus
    refine .list fun u hu => ?_
    obtain ⟨d, hmem, hdu⟩ := source_of_mem hus hu
    exact ih d hmem (fun x hx => hd x (.item hmem hx)) hdu
  | object fields ih =>
    rw [Estree.readValue] at h
    split at h
    · obtain ⟨l, s, slots, rfl, htype, -, -, hslots⟩ := readNode_cases h
      refine .node ?_ fun u hu => ?_
      · rintro rfl
        exact hd _ (.here _) htype
      · cases hslots u hu with
        | value hp hu => exact ih _ hp (fun x hx => hd x (.field hp hx)) hu
        | scalar x => exact .scalar x
        | empty => exact .list (by simp)
    · cases h
      exact .object fields

/-- **A document without arrows is kept.** Its nodes are all there in the result, with the fields that
their kinds declare. -/
theorem kept_withoutArrows {r : Document} (hd : d.Arrowless) (h : d.withoutArrows strict = .ok r) : Kept d r := by
  obtain ⟨t, u, ht, hu, rfl⟩ := Document.withoutArrows_ok h
  obtain ⟨hfault, rfl⟩ := Tree.withoutArrows_ok hu
  obtain ⟨scopes, a, hl⟩ := transform_ok hfault
  obtain ⟨v, hv, rfl⟩ := readValue_of_read ht
  have hfresh := fresh_of_readValue hv
  have hunnumbered : v.numbered.unnumbered.Arrowless := by
    rw [Tree.unnumbered_numbered, hfresh.unnumbered]
    exact hd.readValue hv
  have hno := (Tree.Arrowless.of_mapInfo hunnumbered).noArrow
  have hleaves := leaves_of_noArrow (s := { strict }) hno ⟨scopes, hl.scopes_eq⟩ nofun
  rw [hleaves.2.1, write_numbered]
  exact kept_write hv

end ArrowFree
