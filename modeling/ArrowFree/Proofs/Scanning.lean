import ArrowFree.Proofs.Spelling

/-!
# Scanning a text by parts

Blanks give no word, and a bracket or separator gives its word before anything. A fixed text that is
cut into such parts, and into words with a boundary behind each, gives the same words wherever it
stands (`scans_parts`). What the lexer finds spells its terminals (`spells_of_mem_lex`), in order of
place (`pairwise_lex`).
-/

namespace ArrowFree.Token

open List

variable {x a : Text} {k : Terminal} {t : Token}

/-! ## Blanks -/

theorem match?_blank {c : CodePoint} (hc : c.isBlank = true) (r : Text) :
    match? (c :: r) = some (none, 1 + countWhile CodePoint.isBlank r) := by
  have hbound : isBoundary c = true := by simp [isBoundary, hc]
  have hne {d : CodePoint} (hd : d.isBlank = false) : c ≠ d := by
    rintro rfl
    rw [hc] at hd
    cases hd
  have hident : isIdentStart c = false :=
    (Bool.or_eq_false_iff.mp (isIdentPart_of_isBoundary hbound)).1
  have hblank : blankLength? (c :: r) = some (1 + countWhile CodePoint.isBlank r) := by
    have : countWhile CodePoint.isBlank (c :: r) = 1 + countWhile CodePoint.isBlank r := by
      simp [countWhile, hc, Nat.add_comm]
    unfold blankLength?
    rw [this, Nat.add_comm]
    rfl
  have hpoint : c = '.' → Stops CodePoint.isDecimalDigit r := fun h => absurd h (hne (by decide))
  have hslash : c = '/' → Stops (fun d => d = '/' || d = '*') r :=
    fun h => absurd h (hne (by decide))
  unfold match?
  simp only [numberLength?_eq_none (isDecimalDigit_of_isBoundary hbound) hpoint,
    stringLength?_eq_none ⟨hne (by decide), hne (by decide)⟩, identLength?_eq_none hident,
    comments_eq_none hslash, hblank]

theorem lexAt_blanks {s : Text} (p : Position) (hx : ∀ c ∈ x, c.isBlank = true)
    (hs : Stops CodePoint.isBlank s) : lexAt p (x ++ s) = lexAt (p.advance x) s := by
  cases x with
  | nil => rfl
  | cons c x =>
    have hmatch := match?_blank (hx c mem_cons_self) (x ++ s)
    rw [countWhile_append (fun d hd => hx d (.tail _ hd)) hs, Nat.add_comm] at hmatch
    exact lexAt_of_match? (x := c :: x) p hmatch

namespace Scans

theorem blanks (ha : ∀ c ∈ a, c.isBlank = true) (r : Text) : Scans a [] r := by
  intro p
  obtain ⟨x, s, rfl, -, hx, hs⟩ := countWhile_split CodePoint.isBlank r
  refine ⟨[], rfl, ?_⟩
  rw [← append_assoc, lexAt_blanks p (fun c hc => ?_) hs, lexAt_blanks _ hx hs,
    Position.advance_append]
  · rfl
  · rcases mem_append.mp hc with hc | hc
    · exact ha c hc
    · exact hx c hc

end Scans

/-! ## Parts -/

/-- The word that a text is, with its terminal. -/
def lexeme (x : Text) : Word := (((match? x).bind Prod.fst).getD .ident, x)

theorem Spells.lexeme_eq (h : Spells k x) : lexeme x = (k, x) := by
  unfold lexeme
  rw [h]
  rfl

/-- A mark that goes on with nothing. -/
def isSolid (x : Text) : Bool :=
  markSpellings.contains x && markSpellings.all (fun s => ! x.isPrefixOf s || s = x) &&
    x ≠ "." && x ≠ "/"

theorem scans_solid (h : isSolid x = true) (r : Text) : Scans x [lexeme x] r := by
  simp only [isSolid, Bool.and_eq_true, contains_iff_mem, decide_eq_true_eq] at h
  obtain ⟨⟨⟨hmem, hall⟩, hpoint⟩, hslash⟩ := h
  obtain ⟨⟨k, ss⟩, hss, hx⟩ := mem_flatMap.mp hmem
  have hspells : Spells k x := spells_iff_lexeme.mpr (.mark hss hx)
  rw [hspells.lexeme_eq]
  refine hspells.scans fun c _ => ?_
  have hlonger : (markSpellings.any fun s => (x ++ [c]).isPrefixOf s) = false := by
    refine any_eq_false.mpr fun s hs hp => ?_
    have hprefix := isPrefixOf_iff_prefix.mp hp
    have := all_eq_true.mp hall s hs
    rw [ isPrefixOf_iff_prefix.mpr ((prefix_append x [c]).trans hprefix)] at this
    obtain rfl : s = x := by simpa using this
    exact absurd hprefix.length_le (by simp)
  rw [runsInto_mark hss hx, markGoesOn]
  simp [hlonger, hpoint, hslash]

/-- Each part is blank, or a mark that goes on with nothing, or a word with a boundary behind it. -/
def fits : List Text → Bool
  | [] => true
  | x :: xs =>
    (x.all CodePoint.isBlank || isSolid x ||
      (decide (Spells (lexeme x).1 x) && xs.flatten.head?.any isBoundary)) && fits xs

/-- The words among some parts. -/
def wordsOf (xs : List Text) : List Word :=
  (xs.filter fun x => ! x.all CodePoint.isBlank).map lexeme

theorem wordsOf_cons (x : Text) (xs : List Text) :
    wordsOf (x :: xs) = (if x.all CodePoint.isBlank then [] else [lexeme x]) ++ wordsOf xs := by
  unfold wordsOf
  cases hx : x.all CodePoint.isBlank <;> simp [hx]

theorem not_all_isBlank (h : Spells k x) : x.all CodePoint.isBlank = false := by
  cases hx : x.all CodePoint.isBlank with
  | false => rfl
  | true =>
    cases x with
    | nil => exact absurd (match?_pos h) (by simp)
    | cons c r =>
      have := (match?_blank (all_eq_true.mp hx c mem_cons_self) r).symm.trans h
      cases this

/-- A fixed text gives the same words before anything. -/
theorem scans_parts {xs : List Text} (h : fits xs = true) (r : Text) :
    Scans xs.flatten (wordsOf xs) r := by
  induction xs with
  | nil => exact .nil r
  | cons x xs ih =>
    simp only [fits, Bool.and_eq_true, Bool.or_eq_true, decide_eq_true_eq] at h
    obtain ⟨hx, hxs⟩ := h
    rw [wordsOf_cons, flatten_cons]
    refine .append ?_ (ih hxs)
    rcases hx with (hblank | hsolid) | ⟨hspells, hnext⟩
    · rw [if_pos hblank]
      exact .blanks (all_eq_true.mp hblank) _
    · have hscan := scans_solid hsolid (xs.flatten ++ r)
      rw [if_neg]
      · exact hscan
      · simp only [isSolid, Bool.and_eq_true, contains_iff_mem] at hsolid
        obtain ⟨⟨k, ss⟩, hss, hx⟩ := mem_flatMap.mp hsolid.1.1.1
        simp [not_all_isBlank (spells_iff_lexeme.mpr (.mark hss hx))]
    · rw [if_neg (by simp [not_all_isBlank hspells])]
      have := hspells.before_boundary (r := xs.flatten ++ r) ?_
      · exact this
      · cases hf : xs.flatten with
        | nil => simp [hf] at hnext
        | cons c s => simpa [hf] using hnext

/-! ## What the lexer finds -/

/-- What the lexer finds from a place on: matches one behind the other, each a token or skipped, up to some end. -/
inductive Lexes : Position → Text → List Token → Prop where
  | done (p : Position) (a : Text) : Lexes p a []
  | skip {p : Position} {x r : Text} {ts : List Token} : Lexes (p.advance x) r ts → Lexes p (x ++ r) ts
  | token {p : Position} {k : Terminal} {x r : Text} {ts : List Token} : Spells k x →
      Lexes (p.advance x) r ts → Lexes p (x ++ r) (⟨k, x, p, p.advance x⟩ :: ts)

theorem lexes_lexFrom (fuel : Nat) (p : Position) (a : Text) : Lexes p a (lexFrom fuel p a).tokens := by
  induction fuel generalizing p a with
  | zero => exact .done p a
  | succ fuel ih =>
    cases a with
    | nil => exact .done p []
    | cons c r =>
      rw [lexFrom]
      cases hmatch : match? (c :: r) with
      | none => exact .done p _
      | some kn =>
        obtain ⟨k, n⟩ := kn
        have hrest := ih (p.advance ((c :: r).take n)) ((c :: r).drop n)
        rw [← take_append_drop n (c :: r)]
        cases k with
        | none => simpa using hrest.skip
        | some k =>
          obtain ⟨x, s, hx, rfl, hlex⟩ := lexeme_of_match? hmatch
          simp only [hx, take_left, drop_left] at hrest ⊢
          exact hrest.token (spells_iff_lexeme.mpr hlex)

namespace Lexes

variable {p : Position} {a : Text} {ts : List Token}

theorem found (h : Lexes p a ts) (ht : t ∈ ts) : Spells t.terminal t.text ∧
    ∃ x z, a = x ++ t.text ++ z ∧ t.start = p.advance x ∧ t.stop = p.advance (x ++ t.text) := by
  induction h with
  | done => cases ht
  | @skip p y r ts _ ih =>
    obtain ⟨hspells, x, z, rfl, hstart, hstop⟩ := ih ht
    refine ⟨hspells, y ++ x, z, by simp, ?_, ?_⟩
    · rw [hstart, Position.advance_append]
    · rw [hstop, append_assoc, Position.advance_append p y]
  | @token p k y r ts hk _ ih =>
    rcases mem_cons.mp ht with rfl | ht
    · exact ⟨hk, [], r, rfl, rfl, rfl⟩
    · obtain ⟨hspells, x, z, rfl, hstart, hstop⟩ := ih ht
      refine ⟨hspells, y ++ x, z, by simp, ?_, ?_⟩
      · rw [hstart, Position.advance_append]
      · rw [hstop, append_assoc, Position.advance_append p y]

theorem pairwise (h : Lexes p a ts) : ts.Pairwise fun s t => s.stop.offset ≤ t.start.offset := by
  induction h with
  | done => exact .nil
  | skip _ ih => exact ih
  | token _ hrest ih =>
    refine pairwise_cons.mpr ⟨fun t ht => ?_, ih⟩
    obtain ⟨-, x, -, -, hstart, -⟩ := hrest.found ht
    rw [hstart, Position.offset_advance _ x]
    exact Nat.le_add_right _ _

end Lexes

theorem lexes_lex (a : Text) : Lexes {} a (lex a).tokens := lexes_lexFrom a.length {} a

theorem spells_of_mem_lex (h : t ∈ (lex a).tokens) : Spells t.terminal t.text :=
  ((lexes_lex a).found h).1

theorem start_lt_stop (h : t ∈ (lex a).tokens) : t.start.offset < t.stop.offset := by
  obtain ⟨hspells, x, -, -, hstart, hstop⟩ := (lexes_lex a).found h
  have hpos := match?_pos hspells
  rw [hstart, hstop, Position.offset_advance, Position.offset_advance, length_append]
  omega

theorem pairwise_lex (a : Text) :
    (lex a).tokens.Pairwise fun s t => s.start.offset < t.start.offset :=
  (lexes_lex a).pairwise.imp_of_mem fun hs _ hle => Nat.lt_of_lt_of_le (start_lt_stop hs) hle

end ArrowFree.Token
