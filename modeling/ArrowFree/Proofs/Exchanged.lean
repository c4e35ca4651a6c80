import ArrowFree.Estree
import ArrowFree.Proofs.Additions
import ArrowFree.Proofs.Relabeled

/-!
# Trees through documents and back

A document that was written from a tree is read as that tree again (`read_written`).

1. Reading a node is looking up its type, its location and the fields that its kind declares
   (`readNode_ok`); a node of unknown type keeps all fields that do not describe the node itself.
2. What a node is written as has its slots under the names of its fields, and nothing that describes
   the node is among them, so that each look-up finds what was written (`readLocation_written`,
   `kindOf?_written`, `checkFlags_written`, `readAs_known`, `readAs_other`).
3. Hence `readValue_write`, by induction over the trees that documents can hold: those that were
   read (`fresh_of_readValue`) and those that were parsed (`exchangeable_of_formed`).
-/

namespace ArrowFree

open List

variable {l : Location}

/-- Induction over the items and fields of a document. -/
theorem Document.part_induction {P : Document → Prop} (scalar : ∀ x, P (.scalar x))
    (list : ∀ items, (∀ d ∈ items, P d) → P (.list items))
    (object : ∀ fields, (∀ p ∈ fields, P p.2) → P (.object fields)) (d : Document) : P d :=
  match d with
  | .scalar x => scalar x
  | .list items => list items fun d _ => part_induction scalar list object d
  | .object fields => object fields fun p hp =>
    have : sizeOf p.2 < sizeOf fields := by
      have := sizeOf_lt_of_mem hp
      have : sizeOf p.2 < sizeOf p := by
        cases p
        simp only [Prod.mk.sizeOf_spec]
        omega
      omega
    part_induction scalar list object p.2

namespace Estree

open ArrowFree.Tree

variable {fields : List (Text × Document)} {parts : List (Text × Except Fault Tree)} {type : Scalar}
  {β : Type} {k : Kind} {slots ts : List Tree} {file : Text} {fs : List Field} {d : Document}
  {s : Shape}

/-! ## Fields by name -/

section

variable {α : Type} {name : Text} {xs ys : List (Text × α)}

theorem valueOf?_append : valueOf? name (xs ++ ys) = (valueOf? name xs).or (valueOf? name ys) :=
  lookup_append

theorem valueOf?_eq_none : valueOf? name xs = none ↔ ∀ p ∈ xs, p.1 ≠ name := by
  unfold valueOf?
  rw [lookup_eq_none_iff]
  exact forall₂_congr fun p _ => by rw [bne_iff_ne, ne_comm]

theorem isSome_valueOf? : (valueOf? name xs).isSome ↔ name ∈ xs.map (·.1) := by
  rw [← not_iff_not, Option.not_isSome_iff_eq_none, valueOf?_eq_none, mem_map, not_exists]
  exact forall_congr' fun p => not_and.symm

theorem mem_of_valueOf? {v : α} (h : valueOf? name xs = some v) : (name, v) ∈ xs := by
  unfold valueOf? at h
  obtain ⟨l₁, l₂, rfl, -⟩ := lookup_eq_some_iff.mp h
  simp

end

variable {t : Tree} {α : Type} {f : Field}

theorem mapM_ok {f : α → Except Fault β} {xs : List α} {ys : List β} :
    xs.mapM f = .ok ys ↔ Forall₂ (fun x y => f x = .ok y) xs ys := by
  induction xs generalizing ys with
  | nil => exact ⟨fun h => Except.ok.inj h ▸ .nil, fun h => by cases h; rfl⟩
  | cons x xs ih =>
    rw [mapM_cons, bind_ok, forall₂_cons_left_iff]
    constructor
    · rintro ⟨y, hy, h⟩
      obtain ⟨zs, hzs, h⟩ := bind_ok.mp h
      exact ⟨y, zs, hy, ih.mp hzs, (Except.ok.inj h).symm⟩
    · rintro ⟨y, zs, hy, hzs, rfl⟩
      exact ⟨y, hy, bind_ok.mpr ⟨zs, ih.mpr hzs, rfl⟩⟩

theorem source_of_mem {R : α → β → Prop} {xs : List α} {ys : List β} (h : Forall₂ R xs ys) {y : β}
    (hy : y ∈ ys) : ∃ x ∈ xs, R x y := by
  induction h with
  | nil => cases hy
  | cons hxy _ ih =>
    rcases mem_cons.mp hy with rfl | hy
    · exact ⟨_, mem_cons_self, hxy⟩
    · obtain ⟨x, hx, h⟩ := ih hy
      exact ⟨x, mem_cons_of_mem _ hx, h⟩

theorem map_eq_self {f : α → α} {xs : List α} (h : ∀ x ∈ xs, f x = x) : xs.map f = xs :=
  (map_congr_left h).trans (map_id xs)

/-! ## What reading a node comes to -/

/-- The kind of that type name. -/
def kindNamed? : Scalar → Option Kind
  | .text name => Kind.ofTypeName? name
  | _ => none

/-- The kind that a node of a document is read as. A literal that is a regular expression has none. -/
def kindOf? (type : Scalar) (fields : List (Text × Document)) : Option Kind :=
  (kindNamed? type).filter fun k => ! (k = Kind.literal && (valueOf? "regex" fields).isSome)

/-- The fields that a node of unknown type keeps. -/
def own {α : Type} (parts : List (Text × α)) : List (Text × α) :=
  parts.filter fun p => ! reserved.contains p.1

/-- What the slot of a field is read as. -/
def Fills (parts : List (Text × Except Fault Tree)) (f : Field) (t : Tree) : Prop :=
  match valueOf? f.name parts with
  | some r => r = .ok t
  | none => fillSlot f none = .ok t

theorem fills_iff : Fills parts f t ↔ ∃ given : Option Tree, (match valueOf? f.name parts with
        | some r => r.map some
        | none => .ok none) = .ok given ∧ fillSlot f given = .ok t := by
  unfold Fills
  cases valueOf? f.name parts with
  | none => simp
  | some r =>
    cases r with
    | error e => exact ⟨nofun, nofun⟩
    | ok u => simp [Except.map, fillSlot]

theorem readSlots_ok : readSlots k parts = .ok slots ↔ Forall₂ (Fills parts) k.layout slots := by
  unfold readSlots
  simp only [bind_ok, mapM_ok]
  generalize k.layout = fs
  induction fs generalizing slots with
  | nil => simp
  | cons f fs ih =>
    simp only [forall₂_cons_left_iff, fills_iff, ← ih]
    constructor
    · rintro ⟨_, ⟨g, gs, hg, hgs, rfl⟩, h⟩
      obtain ⟨t, ts, ht, hts, rfl⟩ := forall₂_cons_left_iff.mp h
      exact ⟨t, ts, ⟨g, hg, ht⟩, ⟨gs, hgs, hts⟩, rfl⟩
    · rintro ⟨t, ts, ⟨g, hg, ht⟩, ⟨gs, hgs, hts⟩, rfl⟩
      exact ⟨g :: gs, ⟨g, gs, hg, hgs, rfl⟩, .cons ht hts⟩

/-- The last step of reading a node: the kind decides which of its fields are kept. -/
def readAs (k? : Option Kind) (type : Scalar) (l : Option Location) (fields : List (Text × Document))
    (parts : List (Text × Except Fault Tree)) : Except Fault Tree :=
  match k? with
  | some k => do
    checkFlags k l fields
    return .mk k l (← readSlots k parts)
  | none => do
    let slots ← (own parts).mapM (·.2)
    return .node ⟨.unset, l⟩ (.other type ((own parts).map (·.1))) slots

theorem readNode_eq (file : Text) (parts : List (Text × Except Fault Tree))
    (htype : valueOf? "type" fields = some (.scalar type)) :
    readNode file fields parts =
      readLocation file fields >>= fun l => readAs (kindOf? type fields) type l fields parts := by
  have hkind : readKind (.scalar type) = .ok (kindNamed? type) := by cases type <;> rfl
  unfold readNode
  rw [htype]
  cases readLocation file fields with
  | error e => rfl
  | ok l =>
    change (readKind (.scalar type) >>= _) = _
    rw [hkind]
    unfold kindOf?
    cases kindNamed? type with
    | none => rfl
    | some k =>
      change (do checkFlags k l fields; match Option.filter _ (some k) with | some k => _ | none => _) = _
      by_cases hregex : (k = Kind.literal && (valueOf? "regex" fields).isSome)
      · -- A regular expression is a literal, and literals have no flags to check.
        have hflags : checkFlags k l fields = .ok () := by
          rw [of_decide_eq_true (Bool.and_eq_true_iff.mp hregex).1]
          rfl
        simp only [Option.filter, hregex, hflags]
        rfl
      · rw [Bool.not_eq_true] at hregex
        simp only [Option.filter, hregex]
        rfl

theorem readNode_ok : readNode file fields parts = .ok t ↔
      ∃ type l, valueOf? "type" fields = some (.scalar type) ∧ readLocation file fields = .ok l ∧
        readAs (kindOf? type fields) type l fields parts = .ok t := by
  constructor
  · intro h
    cases hv : valueOf? "type" fields with
    | none =>
      unfold readNode at h
      rw [hv] at h
      cases h
    | some d =>
      cases d with
      | scalar type =>
        obtain ⟨l, hl, h⟩ := bind_ok.mp ((readNode_eq file parts hv).symm.trans h)
        exact ⟨type, l, rfl, hl, h⟩
      | list items | object members =>
        unfold readNode at h
        rw [hv] at h
        cases hl : readLocation file fields <;> rw [hl] at h <;> cases h
  · rintro ⟨type, l, htype, hl, h⟩
    exact (readNode_eq file parts htype).trans (bind_ok.mpr ⟨l, hl, h⟩)

theorem readItems_eq_mapM (file : Text) (ds : List Document) :
    readItems file ds = ds.mapM (readValue file) := by
  induction ds with
  | nil => rfl
  | cons d ds ih => rw [readItems, mapM_cons, ih]

theorem readFields_eq_map (file : Text) (fields : List (Text × Document)) :
    readFields file fields = fields.map fun p => (p.1, readValue file p.2) := by
  induction fields with
  | nil => rfl
  | cons p fields ih => rw [readFields, ih, map_cons]

theorem valueOf?_readFields (file name : Text) (fields : List (Text × Document)) :
    valueOf? name (readFields file fields) = (valueOf? name fields).map (readValue file) := by
  induction fields with
  | nil => rfl
  | cons p fields ih =>
    unfold valueOf? at ih ⊢
    rw [readFields, lookup_cons, lookup_cons, ih]
    cases name == p.1 <;> rfl

/-! ## Written nodes -/

/-- The fields of a written node. -/
def nodeFields (located : Bool) (i : Info) (s : Shape) (slots : List Tree) : List (Text × Document) :=
  typeField s :: (writeSlots located s.fields slots ++ functionFlags s ++
    locationFields located i.location)

theorem write_node (located : Bool) (i : Info) (s : Shape) (slots : List Tree) :
    write located (.node i s slots) = .object (nodeFields located i s slots) := by
  rw [write]
  rfl

theorem writeItems_eq_map (located : Bool) (ts : List Tree) :
    writeItems located ts = ts.map (write located) := by
  induction ts with
  | nil => rfl
  | cons t ts ih => rw [writeItems, ih, map_cons]

theorem write_list (located : Bool) (items : List Tree) :
    write located (.list items) = .list (items.map (write located)) := by
  rw [write, writeItems_eq_map]

theorem writeSlots_eq_map (located : Bool) (fs : List Field) (ts : List Tree) :
    writeSlots located fs ts = (fs.zip ts).map fun p => (p.1.name, write located p.2) := by
  induction fs generalizing ts with
  | nil => cases ts <;> rfl
  | cons f fs ih =>
    cases ts with
    | nil => rfl
    | cons t ts => rw [writeSlots, ih, zip_cons_cons, map_cons]

theorem names_writeSlots (located : Bool) (hlength : ts.length = fs.length) :
    (writeSlots located fs ts).map (·.1) = fs.map (·.name) := by
  calc (writeSlots located fs ts).map (·.1)
    _ = ((fs.zip ts).map Prod.fst).map (·.name) := by
      rw [writeSlots_eq_map, map_map, map_map]
      rfl
    _ = fs.map (·.name) := by rw [map_fst_zip (Nat.le_of_eq hlength.symm)]

theorem names_other (type : Scalar) (names : List Text) :
    (Shape.other type names).fields.map (·.name) = names := by
  rw [Shape.fields, map_map]
  exact map_id names

theorem valueOf?_writeSlots (located : Bool) (hnodup : (fs.map (·.name)).Nodup) (h : (f, t) ∈ fs.zip ts) :
    valueOf? f.name (writeSlots located fs ts) = some (write located t) := by
  induction fs generalizing ts with
  | nil => simp at h
  | cons g fs ih =>
    cases ts with
    | nil => simp at h
    | cons u ts =>
      rw [map_cons, nodup_cons] at hnodup
      rw [zip_cons_cons, mem_cons, Prod.mk.injEq] at h
      unfold valueOf? at ih ⊢
      rw [writeSlots, lookup_cons]
      rcases h with ⟨rfl, rfl⟩ | h
      · rw [beq_self_eq_true]
      · have hother : f.name ≠ g.name := fun e =>
          hnodup.1 (e ▸ mem_map_of_mem (of_mem_zip h).1)
        rw [beq_eq_false_iff_ne.mpr hother]
        exact ih hnodup.2 h

theorem layout_not_reserved (k : Kind) : ∀ f ∈ k.layout, f.name ∉ reserved := by
  cases k <;> decide

theorem functionFlags_not_reserved (s : Shape) : ∀ p ∈ functionFlags s, p.1 ∉ reserved := by
  cases s with
  | known k => cases k <;> decide
  | other type names => nofun

/-- A shape none of whose fields describes the node itself. -/
def Clear (s : Shape) : Prop := ∀ f ∈ s.fields, f.name ∉ reserved

theorem clear_known (k : Kind) : Clear (.known k) := layout_not_reserved k

/-! ## Locations -/

/-- What a location is read as after it was written. -/
def passed (file : Text) (l : Location) : Location where
  file := if l.file.isEmpty then file else l.file
  line := l.line
  column := l.column
  start := 0
  stop := 0
  endLine := known l.endLine l.line
  endColumn := max (known l.endColumn l.column - 1) 0 + 1

theorem readLocation_absent (file : Text)
    (h : valueOf? "loc" fields = none) : readLocation file fields = .ok none := by
  unfold readLocation
  rw [h]

theorem readLocation_present (file : Text) (hloc : valueOf? "loc" fields = some (writeLocation l))
    (hrange : valueOf? "range" fields = none) : readLocation file fields = .ok (some (passed file l)) := by
  have hspan : filled? fields "range" = none := by rw [filled?, hrange]; rfl
  have hsource : (((some (Document.scalar (.text l.file))).filter Document.truthy).map asText).getD file =
      if l.file.isEmpty then file else l.file := by
    cases hempty : l.file.isEmpty <;>
      simp [Option.filter, Document.truthy, Scalar.truthy, hempty, asText]
  unfold readLocation passed
  rw [hloc, writeLocation, ← hsource]
  simp only [hspan]
  change Except.ok (some (Location.mk _ l.line (l.column - 1 + 1) 0 0 _ _)) = _
  rw [Int.sub_add_cancel]
  rfl

section

variable {located : Bool} {i : Info} {s : Shape} {slots : List Tree}
variable {name : Text}

/-- A name that is no field of the shape is found among its flags or as the location. -/
theorem valueOf?_beside (htype : name ≠ "type") (hs : ∀ f ∈ s.fields, f.name ≠ name) :
    valueOf? name (nodeFields located i s slots) =
      (valueOf? name (functionFlags s)).or (valueOf? name (locationFields located i.location)) := by
  have hslots : valueOf? name (writeSlots located s.fields slots) = none := by
    rw [valueOf?_eq_none]
    intro p hp
    rw [writeSlots_eq_map] at hp
    obtain ⟨⟨f, t⟩, hft, rfl⟩ := mem_map.mp hp
    exact hs f (of_mem_zip hft).1
  have hhead : valueOf? name [typeField s] = none := by
    rw [valueOf?_eq_none]
    simpa [typeField] using Ne.symm htype
  rw [nodeFields, ← singleton_append, valueOf?_append, valueOf?_append, valueOf?_append, hhead,
    hslots]
  rfl

theorem valueOf?_reserved (hs : Clear s) (hname : name ∈ reserved) (htype : name ≠ "type") :
    valueOf? name (nodeFields located i s slots) =
      valueOf? name (locationFields located i.location) := by
  have hflags : valueOf? name (functionFlags s) = none := by
    rw [valueOf?_eq_none]
    exact fun p hp e => functionFlags_not_reserved s p hp (e ▸ hname)
  rw [valueOf?_beside htype fun f hf e => hs f hf (e ▸ hname), hflags]
  rfl

theorem valueOf?_own (htype : name ≠ "type") (h : valueOf? name (writeSlots located s.fields slots) = some d) :
    valueOf? name (nodeFields located i s slots) = some d := by
  have hhead : valueOf? name [typeField s] = none := by
    rw [valueOf?_eq_none]
    simpa [typeField] using Ne.symm htype
  rw [nodeFields, ← singleton_append, valueOf?_append, valueOf?_append, valueOf?_append, hhead, h]
  rfl

theorem valueOf?_type : valueOf? "type" (nodeFields located i s slots) = some (.scalar s.type) := by
  simp [nodeFields, valueOf?, typeField]

theorem readLocation_written (file : Text) (hs : Clear s) :
    readLocation file (nodeFields located i s slots) =
      .ok (if located then i.location.map (passed file) else none) := by
  have hloc : valueOf? "loc" (nodeFields located i s slots) = _ :=
    valueOf?_reserved hs (by decide) (by decide)
  have hrange : valueOf? "range" (nodeFields located i s slots) = _ :=
    valueOf?_reserved hs (by decide) (by decide)
  generalize nodeFields located i s slots = fields at *
  cases located with
  | false => exact readLocation_absent file hloc
  | true =>
    cases hl : i.location with
    | none =>
      rw [hl] at hloc
      exact readLocation_absent file hloc
    | some l =>
      rw [hl] at hloc hrange
      exact readLocation_present file hloc hrange

theorem valueOf?_locationFields (hname : name ≠ "loc") (l : Option Location) :
    valueOf? name (locationFields located l) = none := by
  rw [valueOf?_eq_none]
  intro p hp
  unfold locationFields at hp
  split at hp
  · rw [mem_singleton.mp hp]
    exact Ne.symm hname
  · cases hp

/-- The flags that functions are refused for are no fields of their own, and written as false. -/
theorem flags_apart (k : Kind) : ∀ name ∈ (["generator", "async"] : List Text),
    name ≠ "type" ∧ name ≠ "loc" ∧ (∀ f ∈ (Shape.known k).fields, f.name ≠ name) ∧
      (valueOf? name (functionFlags (.known k))).filter Document.truthy = none := by
  cases k <;> decide

theorem checkFlags_written (k : Kind) (l : Option Location) :
    checkFlags k l (nodeFields located i (.known k) slots) = .ok () := by
  have hflags : (["generator", "async"] : List Text).filter (fun f =>
      (filled? (nodeFields located i (.known k) slots) f).isSome) = [] := by
    rw [filter_eq_nil_iff]
    intro name hname
    obtain ⟨htype, hloc, hslots, hfalse⟩ := flags_apart k name hname
    rw [filled?, valueOf?_beside htype hslots, valueOf?_locationFields hloc, Option.or_none, hfalse]
    exact Bool.false_ne_true
  unfold checkFlags
  rw [hflags]
  simp

end

/-! ## The kind of a written node -/

/-- A shape that the type and the fields of a written node give back. -/
def Regained : Shape → Prop
  | .known _ => True
  | .other type names =>
    (∀ n ∈ names, n ∉ reserved) ∧
      ∀ k, kindNamed? type = some k → k = Kind.literal ∧ ("regex" : Text) ∈ names

def knownKind : Shape → Option Kind
  | .known k => some k
  | .other _ _ => none

theorem kindNamed?_typeName (k : Kind) : kindNamed? (.text k.typeName) = some k := by
  cases k <;> decide

theorem typeName_of_kindNamed? (h : kindNamed? type = some k) : type = .text k.typeName := by
  cases type with
  | text name =>
    have hfind : Kind.all.find? (fun k => decide (k.typeName = name)) = some k := h
    have hname := find?_some hfind
    rw [of_decide_eq_true hname]
  | _ => cases h

theorem Regained.clear (h : Regained s) : Clear s := by
  cases s with
  | known k => exact clear_known k
  | other type names =>
    intro f hf
    obtain ⟨n, hn, rfl⟩ := mem_map.mp hf
    exact h.1 n hn

theorem kindOf?_written {located : Bool} {i : Info} (h : Regained s)
    (hlength : slots.length = s.fields.length) :
    kindOf? s.type (nodeFields located i s slots) = knownKind s := by
  cases s with
  | known k =>
    have hregex : (k = Kind.literal &&
        (valueOf? "regex" (nodeFields located i (.known k) slots)).isSome) = false := by
      by_cases hk : k = Kind.literal
      · subst hk
        rw [valueOf?_beside (by decide) (by decide), valueOf?_locationFields (by decide)]
        rfl
      · rw [decide_eq_false hk, Bool.false_and]
    rw [kindOf?, Shape.type, kindNamed?_typeName, Option.filter, hregex]
    rfl
  | other type names =>
    obtain ⟨-, hkind⟩ := h
    unfold kindOf?
    cases hk : kindNamed? (Shape.other type names).type with
    | none => rfl
    | some k =>
      obtain ⟨rfl, hregex⟩ := hkind k hk
      have hsome : (valueOf? "regex" (nodeFields located i (.other type names) slots)).isSome := by
        have hnames := names_writeSlots located hlength
        simp only [isSome_valueOf?, nodeFields, map_cons, map_append, hnames]
        simp [Shape.fields, hregex]
      rw [Option.filter, hsome]
      rfl

/-! ## Trees that documents can hold -/

/-- A tree that a document can stand for. -/
inductive Exchangeable : Tree → Prop where
  | scalar (x : Scalar) : Exchangeable (.scalar x)
  | list {items : List Tree} : (∀ t ∈ items, Exchangeable t) → Exchangeable (.list items)
  | object {fields : List (Text × Document)} : valueOf? "type" fields = none →
      Exchangeable (.object fields)
  | node {i : Info} {s : Shape} {slots : List Tree} : Regained s → slots.length = s.fields.length →
      (∀ t ∈ slots, Exchangeable t) → Exchangeable (.node i s slots)

/-- What is left of the info of a node that was written and read. -/
def reread (located : Bool) (file : Text) (i : Info) : Info :=
  ⟨.unset, if located then i.location.map (passed file) else none⟩

section

variable {located : Bool} {file : Text} {i : Info} {slots : List Tree} {names : List Text}

theorem readAs_known (k : Kind) (hlength : slots.length = k.layout.length)
    (h : ∀ t ∈ slots, readValue file (write located t) = .ok (t.mapInfo (reread located file)))
    (l : Option Location) :
    readAs (some k) (.text k.typeName) l (nodeFields located i (.known k) slots)
      (readFields file (nodeFields located i (.known k) slots)) =
      .ok (.mk k l (slots.map (mapInfo (reread located file)))) := by
  have hslots : readSlots k (readFields file (nodeFields located i (.known k) slots)) =
      .ok (slots.map (mapInfo (reread located file))) := by
    rw [readSlots_ok, forall₂_map_right_iff, forall₂_iff_zip]
    refine ⟨hlength.symm, fun {f t} hft => ?_⟩
    have hf := layout_not_reserved k f (of_mem_zip hft).1
    have hfound := valueOf?_writeSlots located (Kind.names_layout k) hft
    rw [Fills, valueOf?_readFields, valueOf?_own (fun e => hf (by rw [e]; decide)) hfound]
    exact h t (of_mem_zip hft).2
  rw [readAs, checkFlags_written, hslots]
  rfl

theorem own_append {α : Type} (xs ys : List (Text × α)) : own (xs ++ ys) = own xs ++ own ys :=
  filter_append xs ys

theorem own_readFields (fields : List (Text × Document)) :
    own (readFields file fields) = readFields file (own fields) := by
  rw [readFields_eq_map, readFields_eq_map, own, filter_map]
  rfl

theorem own_nodeFields (hclear : ∀ n ∈ names, n ∉ reserved) :
    own (nodeFields located i (.other type names) slots) =
      writeSlots located (Shape.other type names).fields slots := by
  have hlocation : own (locationFields located i.location) = [] := by
    unfold locationFields
    split <;> rfl
  have hslots : own (writeSlots located (Shape.other type names).fields slots) =
      writeSlots located (Shape.other type names).fields slots := by
    rw [own, filter_eq_self, writeSlots_eq_map]
    intro p hp
    obtain ⟨⟨f, t⟩, hft, rfl⟩ := mem_map.mp hp
    obtain ⟨n, hn, rfl⟩ := mem_map.mp (of_mem_zip hft).1
    simpa using hclear n hn
  have htype : own [typeField (.other type names)] = [] := rfl
  rw [nodeFields, ← singleton_append, own_append, own_append, own_append, htype, hslots, hlocation]
  simp [functionFlags, own]

theorem readAs_other (hclear : ∀ n ∈ names, n ∉ reserved) (hlength : slots.length = names.length)
    (h : ∀ t ∈ slots, readValue file (write located t) = .ok (t.mapInfo (reread located file)))
    (l : Option Location) :
    readAs none type l (nodeFields located i (.other type names) slots)
      (readFields file (nodeFields located i (.other type names) slots)) =
      .ok (.node ⟨.unset, l⟩ (.other type names) (slots.map (mapInfo (reread located file)))) := by
  have hown : own (readFields file (nodeFields located i (.other type names) slots)) =
      readFields file (writeSlots located (Shape.other type names).fields slots) := by
    rw [own_readFields, own_nodeFields hclear]
  have hnames : (readFields file (writeSlots located (Shape.other type names).fields slots)).map (·.1) =
      names := by
    rw [readFields_eq_map, map_map]
    exact (names_writeSlots located (by simpa [Shape.fields] using hlength)).trans (names_other type names)
  have hslots : (readFields file (writeSlots located (Shape.other type names).fields slots)).mapM (·.2) =
      .ok (slots.map (mapInfo (reread located file))) := by
    have hfields : (Shape.other type names).fields.length = slots.length := by simp [Shape.fields, hlength]
    generalize (Shape.other type names).fields = fs at hfields ⊢
    rw [mapM_ok, readFields_eq_map, writeSlots_eq_map, map_map, forall₂_map_left_iff,
      forall₂_map_right_iff]
    have hsnd : (fs.zip slots).map Prod.snd = slots := map_snd_zip (by omega)
    nth_rewrite 2 [← hsnd]
    rw [forall₂_map_right_iff, forall₂_same]
    exact fun p hp => h p.2 (of_mem_zip hp).2
  rw [readAs, hown, hnames, hslots]
  rfl

/-- Reading what was written gives the tree back, with what is left of its infos. -/
theorem readValue_write {t : Tree} (h : Exchangeable t) :
    readValue file (write located t) = .ok (t.mapInfo (reread located file)) := by
  induction h with
  | scalar x => rfl
  | object hfields =>
    rw [write, readValue, hfields]
    rfl
  | @list items _ ih =>
    have hitems : readItems file (items.map (write located)) =
        .ok (items.map (mapInfo (reread located file))) := by
      rw [readItems_eq_mapM, mapM_ok, forall₂_map_left_iff, forall₂_map_right_iff,
        forall₂_same]
      exact ih
    rw [write_list, readValue, hitems, mapInfo_list]
    rfl
  | @node i s slots hs hlength _ ih =>
    have htype : valueOf? "type" (nodeFields located i s slots) = _ := valueOf?_type
    rw [write_node, readValue, htype, mapInfo_node]
    refine readNode_ok.mpr ⟨s.type, _, htype, readLocation_written file hs.clear, ?_⟩
    rw [kindOf?_written hs hlength]
    cases s with
    | known k => exact readAs_known k hlength ih _
    | other type names => exact readAs_other hs.1 (by simpa [Shape.fields] using hlength) ih _

end

/-! ## Trees that were read -/

/-- A tree as reading makes it: a document can stand for it, and no node has an identity. -/
structure Fresh (t : Tree) : Prop where
  exchangeable : Exchangeable t
  unnumbered : t.unnumbered = t

namespace Fresh

theorem scalar (x : Scalar) : Fresh (.scalar x) := ⟨.scalar x, rfl⟩

theorem list {items : List Tree} (h : ∀ t ∈ items, Fresh t) : Fresh (.list items) := by
  refine ⟨.list fun t ht => (h t ht).exchangeable, ?_⟩
  rw [Tree.unnumbered, mapInfo_list]
  exact congrArg Tree.list (map_eq_self fun t ht => (h t ht).unnumbered)

theorem node {l : Option Location} (hs : Regained s) (hlength : slots.length = s.fields.length)
    (h : ∀ t ∈ slots, Fresh t) : Fresh (.node ⟨.unset, l⟩ s slots) := by
  refine ⟨.node hs hlength fun t ht => (h t ht).exchangeable, ?_⟩
  rw [Tree.unnumbered, mapInfo_node]
  exact congrArg (Tree.node _ s) (map_eq_self fun t ht => (h t ht).unnumbered)

end Fresh

/-- What a slot of a node that was read holds: the value of a field, or a default. -/
inductive Given (file : Text) (fields : List (Text × Document)) : Tree → Prop
  | value {p : Text × Document} {u : Tree} : p ∈ fields → readValue file p.2 = .ok u → Given file fields u
  | scalar (x : Scalar) : Given file fields (.scalar x)
  | empty : Given file fields (.list [])

theorem given_of_fills {u : Tree} (h : Fills (readFields file fields) f u) : Given file fields u := by
  rw [Fills, valueOf?_readFields] at h
  cases hv : valueOf? f.name fields with
  | some d =>
    rw [hv] at h
    exact .value (mem_of_valueOf? hv) h
  | none =>
    rw [hv] at h
    change fillSlot f none = .ok u at h
    unfold fillSlot at h
    cases hf : f.default with
    | required => rw [hf] at h; cases h
    | scalar x =>
      rw [hf] at h
      cases h
      exact .scalar x
    | emptyList =>
      rw [hf] at h
      cases h
      exact .empty

theorem regained_other (hk : kindOf? type fields = none) :
    Regained (.other type ((own fields).map (·.1))) := by
  refine ⟨fun n hn => ?_, fun k hname => ?_⟩
  · obtain ⟨p, hp, rfl⟩ := mem_map.mp hn
    simpa using (mem_filter.mp hp).2
  · -- The type names a kind all the same, so the node is a regular expression.
    rw [kindOf?, hname, Option.filter_eq_none_iff] at hk
    obtain ⟨hliteral, hregex⟩ : k = Kind.literal ∧ (valueOf? "regex" fields).isSome := by
      simpa [Option.isSome_iff_ne_none] using hk k rfl
    obtain ⟨p, hp, hregex⟩ := mem_map.mp (isSome_valueOf?.mp hregex)
    refine ⟨hliteral, mem_map.mpr ⟨p, mem_filter.mpr ⟨hp, ?_⟩, hregex⟩⟩
    rw [hregex]
    decide

theorem names_own_readFields (file : Text) (fields : List (Text × Document)) :
    (own (readFields file fields)).map (·.1) = (own fields).map (·.1) := by
  rw [own_readFields, readFields_eq_map, map_map]
  rfl

theorem readNode_cases (h : readNode file fields (readFields file fields) = .ok t) :
    ∃ l s slots, t = .node ⟨.unset, l⟩ s slots ∧ valueOf? "type" fields = some (.scalar s.type) ∧
      Regained s ∧ slots.length = s.fields.length ∧ ∀ u ∈ slots, Given file fields u := by
  obtain ⟨type, l, htype, -, h⟩ := readNode_ok.mp h
  cases hk : kindOf? type fields with
  | some k =>
    rw [hk] at h
    obtain ⟨_, -, h⟩ := bind_ok.mp h
    obtain ⟨slots, hslots, h⟩ := bind_ok.mp h
    cases h
    rw [readSlots_ok] at hslots
    obtain rfl := typeName_of_kindNamed? (Option.filter_eq_some_iff.mp hk).1
    refine ⟨l, .known k, slots, rfl, htype, trivial, hslots.length_eq.symm, fun u hu => ?_⟩
    obtain ⟨f, -, hf⟩ := source_of_mem hslots hu
    exact given_of_fills hf
  | none =>
    rw [hk] at h
    obtain ⟨slots, hslots, h⟩ := bind_ok.mp h
    cases h
    rw [mapM_ok] at hslots
    rw [names_own_readFields]
    refine ⟨l, _, slots, rfl, htype, regained_other hk, ?_, fun u hu => ?_⟩
    · rw [own_readFields, readFields_eq_map, forall₂_map_left_iff] at hslots
      simp [Shape.fields, hslots.length_eq]
    · obtain ⟨p, hp, hpu⟩ := source_of_mem hslots hu
      rw [own_readFields, readFields_eq_map] at hp
      obtain ⟨q, hq, rfl⟩ := mem_map.mp hp
      exact .value (mem_filter.mp hq).1 hpu

/-- Reading makes fresh nodes out of fresh parts. -/
theorem fresh_of_readNode (hparts : ∀ p ∈ fields, ∀ u, readValue file p.2 = .ok u → Fresh u)
    (h : readNode file fields (readFields file fields) = .ok t) : Fresh t ∧ t.isNode := by
  obtain ⟨l, s, slots, rfl, -, hs, hlength, hslots⟩ := readNode_cases h
  refine ⟨.node hs hlength fun u hu => ?_, rfl⟩
  cases hslots u hu with
  | value hp hu => exact hparts _ hp u hu
  | scalar x => exact .scalar x
  | empty => exact .list (by simp)

theorem fresh_of_readValue (h : readValue file d = .ok t) : Fresh t := by
  induction d using Document.part_induction generalizing t with
  | scalar x =>
    cases h
    exact .scalar x
  | list items ih =>
    rw [readValue, map_ok, readItems_eq_mapM] at h
    obtain ⟨us, hus, rfl⟩ := h
    rw [mapM_ok] at hus
    refine .list fun u hu => ?_
    obtain ⟨d, hd, hdu⟩ := source_of_mem hus hu
    exact ih d hd hdu
  | object fields ih =>
    rw [readValue] at h
    split at h
    · exact (fresh_of_readNode (fun p hp u => ih p hp) h).1
    · next htype =>
      cases h
      exact ⟨.object (by simpa using htype), rfl⟩

theorem fresh_of_read (h : read file d = .ok t) : ∃ u, Fresh u ∧ t = u.numbered ∧ u.isNode := by
  cases d with
  | scalar | list => cases h
  | object fields =>
    obtain ⟨u, hu, rfl⟩ := map_ok.mp h
    obtain ⟨hfresh, hnode⟩ := fresh_of_readNode (fun p _ u => fresh_of_readValue) hu
    exact ⟨u, hfresh, rfl, hnode⟩

/-! ## Round trips -/

/-- A proper tree is exchangeable. -/
theorem exchangeable_of_formed {K : Kind → Prop} {p : Part} (h : Formed K p t) : Exchangeable t := by
  refine h.slot_induction .scalar fun i k slots hslots => ?_
  refine .node trivial hslots.length_eq.symm fun u hu => ?_
  obtain ⟨f, -, hf⟩ := source_of_mem hslots hu
  cases hf with
  | scalar x => exact .scalar x
  | node _ h => exact h
  | list _ h => exact .list h

theorem write_mapInfo {f : Info → Info} (hf : ∀ i, (f i).location = i.location) (located : Bool)
    (t : Tree) : write located (t.mapInfo f) = write located t := by
  induction t using part_induction with
  | scalar | object => rfl
  | list items ih =>
    rw [mapInfo_list, write_list, write_list, map_map]
    exact congrArg Document.list (map_congr_left ih)
  | node i s slots ih =>
    have hslots : writeSlots located s.fields (slots.map (mapInfo f)) = writeSlots located s.fields slots := by
      rw [writeSlots_eq_map, writeSlots_eq_map, zip_map_right, map_map]
      exact map_congr_left fun p hp => congrArg (Prod.mk p.1.name) (ih p.2 (of_mem_zip hp).2)
    rw [mapInfo_node, write_node, write_node, nodeFields, nodeFields, hf, hslots]

theorem write_numbered (located : Bool) (t : Tree) : write located t.numbered = write located t := by
  have hwritten (u : Tree) : write located u.unnumbered = write located u :=
    write_mapInfo (f := fun i => { i with id := .unset }) (fun _ => rfl) located u
  rw [← hwritten, unnumbered_numbered, hwritten]

/-- A node is read back from what was written, with its locations as far as they were written. -/
theorem read_write (h : Exchangeable t) (hnode : t.isNode) (hnumbered : t.unnumbered.numbered = t.numbered)
    (located : Bool) (file : Text) :
    read file (write located t.numbered) = .ok (t.numbered.mapInfo fun i =>
      { i with location := if located then i.location.map (passed file) else none }) := by
  have hread : read file (write located t) = (readValue file (write located t)).map Tree.numbered := by
    cases t with
    | node i s slots =>
      rw [write_node, read, readValue, valueOf?_type]
      rfl
    | _ => cases hnode
  -- The infos of what was read are those of the tree without identities, with other locations.
  have hinfos : t.mapInfo (reread located file) = t.unnumbered.mapInfo fun i =>
      { i with location := if located then i.location.map (passed file) else none } := by
    rw [Tree.unnumbered, mapInfo_mapInfo]
    rfl
  rw [write_numbered, hread, readValue_write h, hinfos, ← hnumbered, ← numbered_mapInfo fun _ _ => rfl]
  rfl

end Estree

namespace Location

/-- A location that says where it begins and ends, and in which file. -/
structure Whole (l : Location) : Prop where
  file : l.file ≠ []
  line : 1 ≤ l.line
  column : 1 ≤ l.column
  endLine : 1 ≤ l.endLine
  endColumn : 1 ≤ l.endColumn

theorem Whole.passed (h : l.Whole) (file : Text) :
    Estree.passed file l = { l with start := 0, stop := 0 } := by
  have hfile : l.file.isEmpty = false := by simpa using h.file
  have hline : Estree.known l.endLine l.line = l.endLine := if_neg (by have := h.endLine; omega)
  have hcolumn : Estree.known l.endColumn l.column = l.endColumn :=
    if_neg (by have := h.endColumn; omega)
  have hmax : max (l.endColumn - 1) 0 + 1 = l.endColumn := by have := h.endColumn; omega
  rw [Estree.passed, hfile, hline, hcolumn, hmax]
  rfl

end Location

namespace Estree

open ArrowFree.Tree

/-- Reading gives back what was written of a tree that was read or parsed: all of it but the
locations, and with whole locations all but their offsets. -/
theorem read_written {t : Tree}
    (ht : (∃ file d, read file d = .ok t) ∨ ∃ file source, Script.parse file source = .ok t)
    (file : Text) :
    read file (write false t) = .ok t.withoutLocations ∧
      ((∀ i ∈ t.infos, ∀ l, i.location = some l → l.Whole) →
        read file (write true t) = .ok t.withoutOffsets) := by
  obtain ⟨u, rfl, hu, hnode, hnumbered⟩ : ∃ u, t = u.numbered ∧ Exchangeable u ∧ u.isNode = true ∧
      u.unnumbered.numbered = u.numbered := by
    rcases ht with ⟨_, d, hread⟩ | ⟨_, source, hparse⟩
    · obtain ⟨u, hu, rfl, hnode⟩ := fresh_of_read hread
      exact ⟨u, rfl, hu.exchangeable, hnode, by rw [hu.unnumbered]⟩
    · rcases (Script.parse_answers _ source).cases with ⟨_, hparse', u, rfl, hform⟩ | ⟨e, hparse'⟩
      · obtain rfl : u.numbered = t := Except.ok.inj (hparse'.symm.trans hparse)
        have hu := hform.of_bare (bare_numberFrom 0 u).symm
        refine ⟨u, rfl, exchangeable_of_formed hu, ?_, hu.numbered_unnumbered⟩
        cases hu
        rfl
      · cases hparse'.symm.trans hparse
  refine ⟨read_write hu hnode hnumbered false file, fun hwhole => ?_⟩
  rw [read_write hu hnode hnumbered true file]
  refine congrArg Except.ok (mapInfo_congr fun i hi => ?_)
  cases hl : i.location with
  | none => rfl
  | some l => simp [(hwhole i hi l hl).passed file]

/-- A node of unknown type with a location, a list in a list, a plain object and a regular
expression. -/
def tagged : Document :=
  .object [("type", .scalar (.text "TaggedTemplate")),
    ("parts", .list [.list [.object [("type", .scalar (.text "ThisExpression"))], .null],
      .object [("raw", .scalar (.int 3))]]),
    ("loc", .object [("source", .scalar (.text "a.js")), ("start", position 2 4)]),
    ("tag", .object [("type", .scalar (.text "Literal")),
      ("regex", .object [("pattern", .scalar (.text "b+"))])]),
    ("quasi", .object [("type", .scalar (.text "CallExpression")),
      ("callee", .object [("type", .scalar (.text "Identifier")), ("name", .scalar (.text "f"))])])]

/-- The tree of that node. -/
def taggedTree : Tree :=
  .node ⟨.numbered 0, some ⟨"a.js", 2, 5, 0, 0, 2, 5⟩⟩ (.other (.text "TaggedTemplate") ["parts", "tag", "quasi"])
    [.list [.list [.mk .thisExpression none [], .null], .object [("raw", .scalar (.int 3))]],
     .node ⟨.numbered 1, none⟩ (.other (.text "Literal") ["regex"])
      [.object [("pattern", .scalar (.text "b+"))]],
     .node ⟨.numbered 2, none⟩ (.known .callExpression)
      [.node ⟨.numbered 3, none⟩ (.known .identifier) [.text "f"], .list []]]

theorem read_written_tagged :
    read "b.js" tagged = .ok taggedTree ∧ read "c.js" (write false taggedTree) = .ok taggedTree.withoutLocations ∧
      read "c.js" (write true taggedTree) = .ok taggedTree.withoutOffsets := by
  have hread : read "b.js" tagged = .ok taggedTree := by decide
  obtain ⟨hplain, hlocated⟩ := read_written (.inl ⟨_, _, hread⟩) "c.js"
  have hplace : ∀ i ∈ taggedTree.infos,
      i.location = none ∨ i.location = some ⟨"a.js", 2, 5, 0, 0, 2, 5⟩ := by decide
  refine ⟨hread, hplain, hlocated fun i hi l hl => ?_⟩
  rcases hplace i hi with hnone | hsome
  · cases hnone.symm.trans hl
  · cases hsome.symm.trans hl
    exact ⟨by decide, by decide, by decide, by decide, by decide⟩

end Estree

end ArrowFree
