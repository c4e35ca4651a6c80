import Mathlib.Data.List.Forall2
import ArrowFree.SourceMap

/-!
# Source maps read back

Reading the mappings of a source map gives what was recorded, in the order of the generated text
(`decode_encoded`).

1. A written segment is free of separators, so that the reader finds its end (`readOn_segment`), and its
   numbers are read as they were written (`decode_flatMap_encode`).
2. The cursor of the writer and the origin of the reader stay in step: after each mapping both hold its
   column, its source position and the last name (`Agrees.segment`). A new line puts the column of both
   back to zero and nothing else (`readOn_separator`).
3. The names of a recorded map are distinct and hold every name of its mappings (`named_recorded`).
-/

namespace ArrowFree

open List hiding splitOn

variable {s t g : Text} {gs : List Text}

namespace Text

theorem splitOn_append {sep : CodePoint} (free : sep ∉ s) (ht : splitOn sep t = g :: gs) :
    splitOn sep (s ++ t) = (s ++ g) :: gs := by
  induction s with
  | nil => exact ht
  | cons c s ih =>
    simp only [mem_cons, not_or] at free
    simp only [cons_append, splitOn, if_neg (Ne.symm free.1), ih free.2]

theorem splitOn_self_cons (sep : CodePoint) (t : Text) : splitOn sep (sep :: t) = [] :: splitOn sep t := by
  rw [splitOn, if_pos rfl]

theorem splitOn_eq_cons (sep : CodePoint) (t : Text) : ∃ g gs, splitOn sep t = g :: gs :=
  exists_cons_of_ne_nil (splitOn_ne_nil sep t)

end Text

namespace Vlq

theorem digits_ne_nil (n : Nat) : digits n ≠ [] := by
  rw [digits]
  split <;> simp

theorem encode_ne_nil (z : Int) : encode z ≠ [] := by
  simp [encode, digits_ne_nil]

theorem not_mem_encode {c : CodePoint} (hc : digit? c = none) (z : Int) : c ∉ encode z := by
  intro h
  obtain ⟨d, hd, rfl⟩ := mem_map.mp h
  rw [digit?_letter d (digits_lt _ d hd)] at hc
  cases hc

theorem encode_subset (z : Int) : encode z ⊆ alphabet := by
  intro c hc
  obtain ⟨d, hd, rfl⟩ := mem_map.mp hc
  have hlength : d < alphabet.length := digits_lt _ d hd
  rw [letter, getD_eq_getElem?_getD, getElem?_eq_getElem hlength]
  exact getElem_mem hlength

theorem decode_flatMap_encode (zs : List Int) : decode (zs.flatMap encode) = .ok zs := by
  induction zs with
  | nil => rfl
  | cons z zs ih =>
    rw [flatMap_cons, decode_encode_append, ih]
    rfl

/-- **Segments are read back.** Whatever the integers, reading what is written for them one behind the other gives
them again. What is written for one of them is never empty and has only digits of the alphabet, so that it holds
neither of the separators. -/
theorem segment_read_back (zs : List Int) : decode (zs.flatMap encode) = .ok zs ∧ ∀ z, encode z ≠ [] ∧
    encode z ⊆ alphabet ∧ (',' : CodePoint) ∉ encode z ∧ (';' : CodePoint) ∉ encode z := by
  refine ⟨decode_flatMap_encode zs, fun z => ⟨encode_ne_nil z, encode_subset z, ?_, ?_⟩⟩
  · exact not_mem_encode (by decide) z
  · exact not_mem_encode (by decide) z

end Vlq

namespace SourceMap

open Text

variable {added : List Mapping}

/-! ## The reader in the middle of a line -/

variable {c : Cursor} {o : Origin} {m : SourceMap} {line : Int} {a : Mapping}

/-- What is read of a text that begins within a line, the column being that of the origin. -/
def readOn (line : Nat) (o : Origin) (t : Text) : Except Fault (List Segment) :=
  match splitOn ';' t with
  | [] => .ok []
  | group :: groups => do
    let (o, segments) ← decodeLine line o ((splitOn ',' group).filter (!·.isEmpty))
    let rest ← decodeLines (line + 1) o groups
    return segments ++ rest

theorem decode_eq_readOn (t : Text) : decode t = readOn 0 {} t := by
  obtain ⟨g, gs, hg⟩ := splitOn_eq_cons ';' t
  rw [decode, readOn, hg]
  rfl

theorem readOn_nil (line : Nat) (o : Origin) : readOn line o [] = .ok [] := rfl

theorem readOn_comma (line : Nat) (o : Origin) (t : Text) :
    readOn line o ((',' : CodePoint) :: t) = readOn line o t := by
  obtain ⟨g, gs, hg⟩ := splitOn_eq_cons ';' t
  have hcomma : splitOn ';' ((',' : CodePoint) :: t) = ((',' : CodePoint) :: g) :: gs :=
    splitOn_append (s := [(',' : CodePoint)]) (by decide) hg
  have hparts : (splitOn ',' ((',' : CodePoint) :: g)).filter (!·.isEmpty) =
      (splitOn ',' g).filter (!·.isEmpty) := by
    rw [splitOn_self_cons]
    rfl
  simp only [readOn, hcomma, hg, hparts]

theorem readOn_semicolon (line : Nat) (o : Origin) (t : Text) :
    readOn line o ((';' : CodePoint) :: t) = readOn (line + 1) { o with column := 0 } t := by
  obtain ⟨g, gs, hg⟩ := splitOn_eq_cons ';' t
  simp only [readOn, splitOn_self_cons, hg]
  change (decodeLines (line + 1) o (g :: gs)).bind (fun rest => .ok ([] ++ rest)) = _
  simp only [decodeLines, nil_append]
  exact bind_pure (m := Except Fault) _

theorem readOn_semicolons (n line : Nat) (o : Origin) (t : Text) :
    readOn line o (Text.repeated ";" (n + 1) ++ t) =
      readOn (line + (n + 1)) { o with column := 0 } t := by
  induction n generalizing line o with
  | zero => exact readOn_semicolon line o t
  | succ n ih =>
    have hstep : Text.repeated ";" (n + 1 + 1) ++ t =
        (';' : CodePoint) :: (Text.repeated ";" (n + 1) ++ t) := rfl
    rw [hstep, readOn_semicolon, ih]
    congr 1
    omega

/-- A text that is empty or begins with a separator: what can stand after a segment. -/
def Breaks (t : Text) : Prop := ∀ c ∈ t.head?, c = (',' : CodePoint) ∨ c = (';' : CodePoint)

/-- The group after a segment goes on with a comma, if at all. -/
theorem splitOn_group (free : (',' : CodePoint) ∉ s) (full : s ≠ []) (hbreak : Breaks t)
    (hg : splitOn ';' t = g :: gs) :
    (splitOn ',' (s ++ g)).filter (!·.isEmpty) = s :: (splitOn ',' g).filter (!·.isEmpty) := by
  have hend : splitOn ',' (s ++ []) = [s] := by rw [splitOn_append free rfl, append_nil]
  cases t with
  | nil =>
    cases hg
    rw [hend]
    simp [splitOn, full]
  | cons c t =>
    rcases hbreak c rfl with rfl | rfl
    · obtain ⟨g', gs', hg'⟩ := splitOn_eq_cons ';' t
      have hcomma := splitOn_append (s := [(',' : CodePoint)]) (by decide) hg'
      obtain ⟨rfl, -⟩ := List.cons.inj (hcomma.symm.trans hg)
      have hparts := splitOn_append free (splitOn_self_cons ',' g')
      rw [singleton_append, hparts, splitOn_self_cons]
      simp [full]
    · rw [splitOn_self_cons] at hg
      cases hg
      rw [hend]
      simp [splitOn, full]

/-- A segment ends where the text breaks; the reader takes its numbers and goes on behind it. -/
theorem readOn_segment {line : Nat} {o' : Origin} {zs : List Int} {new : Segment} (hsome : zs ≠ [])
    (hbreak : Breaks t) (hread : readSegment line o zs = .ok (o', some new)) :
    readOn line o (zs.flatMap Vlq.encode ++ t) = (readOn line o' t).map (new :: ·) := by
  have hfree (c : CodePoint) (hc : Vlq.digit? c = none) : c ∉ zs.flatMap Vlq.encode := by
    simp [Vlq.not_mem_encode hc]
  have hfull : zs.flatMap Vlq.encode ≠ [] := by
    obtain ⟨z, zs, rfl⟩ := exists_cons_of_ne_nil hsome
    simp [Vlq.encode_ne_nil]
  obtain ⟨g, gs, hg⟩ := splitOn_eq_cons ';' t
  have hparts := splitOn_group (hfree _ (by decide)) hfull hbreak hg
  simp only [readOn, splitOn_append (hfree _ (by decide)) hg, hg, hparts, decodeLine,
    Vlq.decode_flatMap_encode]
  change (((readSegment line o zs).bind _).bind _) = _
  rw [hread]
  change (((decodeLine line o' _).bind fun r => .ok (r.1, new :: r.2)).bind fun r =>
    (decodeLines (line + 1) r.1 gs).bind fun rest => .ok (r.2 ++ rest)) =
      (((decodeLine line o' _).bind fun r =>
        (decodeLines (line + 1) r.1 gs).bind fun rest => .ok (r.2 ++ rest))).map (new :: ·)
  cases decodeLine line o' ((splitOn ',' g).filter (!·.isEmpty)) with
  | error e => rfl
  | ok r =>
    change (decodeLines (line + 1) r.1 gs).bind _ = ((decodeLines (line + 1) r.1 gs).bind _).map _
    cases decodeLines (line + 1) r.1 gs <;> rfl

/-! ## Writer and reader in step -/

/-- The writer and the reader take differences to the same values. -/
structure Agrees (c : Cursor) (o : Origin) : Prop where
  column : o.column = c.column
  source : o.source = 0
  sourceLine : o.sourceLine = c.sourceLine
  sourceColumn : o.sourceColumn = c.sourceColumn
  name : o.name = c.name

/-- The segment that a mapping is read as. -/
def segmentOf (names : List Text) (m : Mapping) : Segment where
  line := m.line.toNat
  column := m.column
  source := 0
  sourceLine := m.sourceLine
  sourceColumn := m.sourceColumn
  name := m.name.map fun name => (names.idxOf name : Int)

/-- Both stay in step past a mapping; one without a name leaves the last name as it is. -/
theorem Agrees.segment (h : Agrees c o) (names : List Text) {m : Mapping} :
    ∃ o', readSegment m.line.toNat o (c.differences names m) = .ok (o', some (segmentOf names m)) ∧
      Agrees (c.past names m) o' := by
  refine ⟨⟨m.column, 0, m.sourceLine, m.sourceColumn, (c.past names m).name⟩, ?_,
    ⟨rfl, rfl, rfl, rfl, rfl⟩⟩
  have hback (x y : Int) : x + (y - x) = y := by omega
  cases hname : m.name <;>
    simp [readSegment, Cursor.differences, Cursor.past, segmentOf, hname, h.column, h.source,
      h.sourceLine, h.sourceColumn, h.name, hback]

theorem Agrees.toLine (h : Agrees c o) (hlt : c.line < line) : Agrees (c.toLine line) { o with column := 0 } := by
  unfold Cursor.toLine
  rw [if_pos hlt]
  exact ⟨rfl, h.source, h.sourceLine, h.sourceColumn, h.name⟩

theorem readOn_separator (h : Agrees c o) (hc : 0 ≤ c.line) (hle : c.line ≤ line) (t : Text) :
    ∃ o', readOn c.line.toNat o (c.separator line ++ t) = readOn line.toNat o' t ∧
      Agrees (c.toLine line) o' := by
  unfold Cursor.separator
  by_cases hlt : c.line < line
  · refine ⟨{ o with column := 0 }, ?_, h.toLine hlt⟩
    obtain ⟨n, hn⟩ : ∃ n, (line - c.line).toNat = n + 1 := ⟨(line - c.line).toNat - 1, by omega⟩
    rw [if_pos hlt, hn, readOn_semicolons]
    congr 1
    omega
  · have heq : c.line = line := by omega
    refine ⟨o, ?_, ?_⟩
    · rw [if_neg hlt, heq]
      split
      · rfl
      · exact readOn_comma _ _ _
    · unfold Cursor.toLine
      rwa [if_neg hlt]

theorem line_toLine (hle : c.line ≤ line) : (c.toLine line).line = line := by
  unfold Cursor.toLine
  split
  · rfl
  · omega

theorem breaks_encodeFrom (names : List Text) (hc : c.fresh = false) (ms : List Mapping) :
    Breaks (encodeFrom names c ms) := by
  cases ms with
  | nil => exact nofun
  | cons m ms =>
    intro ch hch
    rw [encodeFrom, Cursor.separator] at hch
    split at hch
    · obtain ⟨n, hn⟩ : ∃ n, (m.line - c.line).toNat = n + 1 :=
        ⟨(m.line - c.line).toNat - 1, by omega⟩
      rw [hn] at hch
      exact .inr (Option.some.inj hch).symm
    · rw [hc] at hch
      exact .inl (Option.some.inj hch).symm

/-- **Written mappings are read back**, from any point that writer and reader have reached together. -/
theorem readOn_encodeFrom (names : List Text) (ms : List Mapping) (h : Agrees c o) (hc : 0 ≤ c.line)
    (hfirst : ∀ m ∈ ms, c.line ≤ m.line) (hsorted : ms.Pairwise fun a b => a.line ≤ b.line) :
    readOn c.line.toNat o (encodeFrom names c ms) = .ok (ms.map (segmentOf names)) := by
  induction ms generalizing c o with
  | nil => exact readOn_nil _ _
  | cons m ms ih =>
    have hle : c.line ≤ m.line := hfirst m mem_cons_self
    obtain ⟨hbelow, hrest⟩ := pairwise_cons.mp hsorted
    have hline : ((c.toLine m.line).past names m).line = m.line := line_toLine hle
    rw [encodeFrom, append_assoc]
    obtain ⟨o₁, hread, hagrees⟩ := readOn_separator h hc hle
      (((c.toLine m.line).differences names m).flatMap Vlq.encode ++
        encodeFrom names ((c.toLine m.line).past names m) ms)
    obtain ⟨o₂, hsegment, hagrees⟩ := hagrees.segment names (m := m)
    have hsome : (c.toLine m.line).differences names m ≠ [] := by simp [Cursor.differences]
    rw [hread, readOn_segment hsome (breaks_encodeFrom names rfl ms) hsegment]
    have hahead : ∀ m' ∈ ms, ((c.toLine m.line).past names m).line ≤ m'.line := by
      rw [hline]
      exact hbelow
    have hgoes := ih hagrees (by omega) hahead hrest
    rw [hline] at hgoes
    rw [hgoes]
    rfl

/-! ## The order of the generated text -/

/-- A list holds the mappings of another in the order of the generated text, and those at one place
in the order in which they were. -/
structure StablySorted (ms sorted : List Mapping) : Prop where
  perm : sorted.Perm ms
  ordered : sorted.Pairwise fun a b => a.line < b.line ∨ a.line = b.line ∧ a.column ≤ b.column
  stable : ∀ line column : Int,
    (sorted.filter fun m => m.line = line ∧ m.column = column) =
      ms.filter fun m => m.line = line ∧ m.column = column

theorem precedes_iff {b : Mapping} :
    precedes a b ↔ a.line < b.line ∨ a.line = b.line ∧ a.column ≤ b.column := by
  simp [precedes]

theorem precedes_trans (a b c : Mapping) (hab : precedes a b) (hbc : precedes b c) :
    precedes a c := by
  rw [precedes_iff] at *
  omega

theorem precedes_total (a b : Mapping) : (precedes a b || precedes b a) := by
  rw [Bool.or_eq_true, precedes_iff, precedes_iff]
  omega

theorem stablySorted_mergeSort (ms : List Mapping) : StablySorted ms (ms.mergeSort precedes) where
  perm := mergeSort_perm ms precedes
  ordered := (pairwise_mergeSort precedes_trans precedes_total ms).imp precedes_iff.mp
  stable := by
    intro line column
    -- Mappings at one place are in order already, so sorting keeps them as a sublist.
    have hequal : (ms.filter fun m => m.line = line ∧ m.column = column).Pairwise
        fun a b => precedes a b := by
      rw [pairwise_filter]
      refine pairwise_of_forall fun a b ha hb => precedes_iff.mpr ?_
      simp only [decide_eq_true_eq] at ha hb
      omega
    have hsub := sublist_mergeSort precedes_trans precedes_total hequal filter_sublist
    have hsub' := hsub.filter fun m => decide (m.line = line ∧ m.column = column)
    rw [filter_filter] at hsub'
    simp only [Bool.and_self] at hsub'
    exact (hsub'.eq_of_length ((mergeSort_perm ms precedes).filter _).length_eq.symm).symm

/-! ## Recorded names -/

/-- The map after a sequence of additions. -/
def recorded (file source : Text) (added : List Mapping) : SourceMap :=
  added.foldl add ⟨file, source, [], []⟩

/-- An addition changes nothing, or it puts the mapping at the end of those before it, or in place of
the last of them. -/
theorem add_cases (m : SourceMap) (new : Mapping) :
    m.add new = m ∨ ∃ kept, List.Sublist kept m.mappings ∧
      m.add new = { m.withName new.name with mappings := kept ++ [new] } := by
  unfold add
  split
  · split
    · split
      · exact .inr ⟨_, dropLast_sublist _, rfl⟩
      · exact .inl rfl
    · exact .inr ⟨_, List.Sublist.refl _, rfl⟩
  · exact .inr ⟨[], nil_sublist _, rfl⟩

theorem nodup_withName (h : m.names.Nodup) (name : Option Text) : (m.withName name).names.Nodup := by
  unfold withName
  split
  · exact h
  · split
    · exact h
    · rename_i n hn
      rw [contains_iff_mem] at hn
      refine nodup_append.mpr ⟨h, by simp, fun a ha b hb e => hn ?_⟩
      exact mem_singleton.mp hb ▸ e ▸ ha

theorem mem_withName (m : SourceMap) {name : Option Text} {n : Text} (h : n ∈ m.names ∨ name = some n) :
    n ∈ (m.withName name).names := by
  unfold withName
  split
  · simpa using h
  · rename_i n'
    rw [Option.some.injEq] at h
    split
    · rename_i hn
      rw [contains_iff_mem] at hn
      exact h.elim id fun e => e ▸ hn
    · exact mem_append.mpr (h.imp id fun e => mem_singleton.mpr e.symm)

/-- The names are distinct and every name of a mapping is among them. -/
structure Named (m : SourceMap) : Prop where
  nodup : m.names.Nodup
  mem : ∀ a ∈ m.mappings, ∀ n, a.name = some n → n ∈ m.names

theorem Named.add (h : m.Named) (new : Mapping) : (m.add new).Named := by
  rcases add_cases m new with heq | ⟨kept, hkept, heq⟩
  · rwa [heq]
  · rw [heq]
    refine ⟨nodup_withName h.nodup new.name, fun a ha n hn => mem_withName m ?_⟩
    rcases mem_append.mp ha with ha | ha
    · exact .inl (h.mem a (hkept.subset ha) n hn)
    · exact .inr (mem_singleton.mp ha ▸ hn)

theorem Named.foldl_add (h : m.Named) (added : List Mapping) : (added.foldl SourceMap.add m).Named := by
  induction added generalizing m with
  | nil => exact h
  | cons new added ih => exact ih (h.add new)

theorem named_recorded (file source : Text) (added : List Mapping) :
    (recorded file source added).Named :=
  Named.foldl_add ⟨nodup_nil, by simp⟩ added

theorem mem_foldl_add (h : a ∈ (added.foldl add m).mappings) : a ∈ m.mappings ∨ a ∈ added := by
  induction added generalizing m with
  | nil => exact .inl h
  | cons new added ih =>
    rcases ih h with h | h
    · rcases add_cases m new with heq | ⟨kept, hkept, heq⟩
      · exact .inl (heq ▸ h)
      · rw [heq] at h
        rcases mem_append.mp h with h | h
        · exact .inl (hkept.subset h)
        · exact .inr (mem_singleton.mp h ▸ mem_cons_self)
    · exact .inr (.tail _ h)

theorem mem_of_mem_recorded {file source : Text} (h : a ∈ (recorded file source added).mappings) :
    a ∈ added :=
  (mem_foldl_add h).resolve_left nofun

/-! ## The whole map -/

/-- A segment says what a mapping says: the same places, the one source, and the name by its index. -/
structure Segment.Tells (names : List Text) (m : Mapping) (s : Segment) : Prop where
  line : (s.line : Int) = m.line
  column : s.column = m.column
  source : s.source = 0
  sourceLine : s.sourceLine = m.sourceLine
  sourceColumn : s.sourceColumn = m.sourceColumn
  unnamed : m.name = none → s.name = none
  named : ∀ n, m.name = some n → ∃ k : Nat, s.name = some (k : Int) ∧ names[k]? = some n

theorem segmentOf_tells {names : List Text} {m : Mapping} (hline : 0 ≤ m.line)
    (hname : ∀ n, m.name = some n → n ∈ names) : (segmentOf names m).Tells names m where
  line := Int.toNat_of_nonneg hline
  column := rfl
  source := rfl
  sourceLine := rfl
  sourceColumn := rfl
  unnamed := by
    intro h
    simp [segmentOf, h]
  named := by
    intro n h
    exact ⟨names.idxOf n, by simp [segmentOf, h], getElem?_idxOf (hname n h)⟩

/-- **Source maps decode to what was recorded.** Whatever was added, reading the written mappings
succeeds and gives one segment for each mapping, in the stable order of the generated text. -/
theorem decode_encoded (file source : Text) (added : List Mapping) (hlines : ∀ a ∈ added, 0 ≤ a.line) :
    ∃ sorted segments, StablySorted (recorded file source added).mappings sorted ∧
      decode (recorded file source added).encoded = .ok segments ∧
      List.Forall₂ (Segment.Tells (recorded file source added).names) sorted segments ∧
      (recorded file source added).names.Nodup := by
  have hnamed := named_recorded file source added
  generalize hm : recorded file source added = m at hnamed ⊢
  have hsorted := stablySorted_mergeSort m.mappings
  have hnonneg : ∀ a ∈ m.mappings.mergeSort precedes, 0 ≤ a.line := by
    intro a ha
    have hrecorded : a ∈ m.mappings := hsorted.perm.mem_iff.mp ha
    rw [← hm] at hrecorded
    exact hlines a (mem_of_mem_recorded hrecorded)
  have hread := readOn_encodeFrom m.names (m.mappings.mergeSort precedes) (c := {}) (o := {})
    ⟨rfl, rfl, rfl, rfl, rfl⟩ (Int.le_refl 0) hnonneg (hsorted.ordered.imp (by omega))
  refine ⟨_, _, hsorted, (decode_eq_readOn _).trans hread, ?_, hnamed.nodup⟩
  rw [List.forall₂_map_right_iff, List.forall₂_same]
  intro a ha
  exact segmentOf_tells (hnonneg a ha) (hnamed.mem a (hsorted.perm.mem_iff.mp ha))

/-- Lines out of order and left out, columns before zero, and a name that comes after its place. -/
def scattered : List Mapping :=
  [⟨2, 3, 5, -7, none⟩, ⟨2, 3, 5, -7, some "x"⟩, ⟨0, -40, 1, 2, some "y"⟩, ⟨2, 1, 0, 0, none⟩,
   ⟨2, 3, 8, 8, none⟩, ⟨5, 0, 9, 900, some "x"⟩]

theorem decode_encoded_scattered : (∀ a ∈ scattered, 0 ≤ a.line) ∧
      ∃ sorted segments, StablySorted (recorded "out.js" "in.js" scattered).mappings sorted ∧
        decode (recorded "out.js" "in.js" scattered).encoded = .ok segments ∧
        List.Forall₂ (Segment.Tells (recorded "out.js" "in.js" scattered).names) sorted segments ∧
        (recorded "out.js" "in.js" scattered).names.Nodup :=
  ⟨by decide, decode_encoded "out.js" "in.js" scattered (by decide)⟩

end SourceMap

end ArrowFree
