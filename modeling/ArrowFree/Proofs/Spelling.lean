import ArrowFree.Proofs.Lexing
import ArrowFree.Proofs.Numerals

/-!
# Spellings

A text spells a terminal if the lexer takes it, standing alone, for one token of that terminal. Every
token that the lexer finds spells its terminal (`spells_of_mem_lex`). The other way round, a spelling is
found again in front of any text that does not go on with it: a blank or a bracket goes on with nothing
(`Spells.before_boundary`), and a bracket goes before anything.
-/

namespace ArrowFree.Token

open List

variable {c : CodePoint} {k : Terminal} {x r t s y : Text} {ss : List Text} {n : Nat}

/-- The text, standing alone, is one token of that terminal. -/
def Spells (k : Terminal) (x : Text) : Prop := match? x = some (some k, x.length)

instance (k : Terminal) (x : Text) : Decidable (Spells k x) :=
  inferInstanceAs (Decidable (_ = _))

/-! ## Strings -/

theorem stringRest?_cons (q c : CodePoint) (r : Text) : stringRest? q (c :: r) =
      if c = q then some 1
      else if c = '\n' then none
      else if c = '\\' then
        match r with
        | [] => none
        | d :: r' => if d = '\n' then none else (stringRest? q r').map (2 + ·)
      else (stringRest? q r).map (1 + ·) := by
  rw [stringRest?.eq_def]
  cases r <;> rfl

theorem stringRest?_local {q : CodePoint} (h : stringRest? q t = some n) :
    ∃ x r, t = x ++ r ∧ x.length = n ∧ ∀ r', stringRest? q (x ++ r') = some n := by
  fun_induction stringRest? q t generalizing n with
  | case1 => cases h
  | case2 r =>
    cases h
    exact ⟨[q], r, rfl, rfl, fun r' => by simp [stringRest?_cons]⟩
  | case3 | case4 | case5 => cases h
  | case6 d r hd hq hn ih =>
    obtain ⟨m, hm, rfl⟩ := Option.map_eq_some_iff.mp h
    obtain ⟨x, s, rfl, rfl, hx⟩ := ih hm
    refine ⟨_ :: d :: x, s, rfl, by simp; omega, fun u => ?_⟩
    simp [stringRest?_cons, hq, hn, hd, hx u]
  | case7 c r hq hn hb ih =>
    obtain ⟨m, hm, rfl⟩ := Option.map_eq_some_iff.mp h
    obtain ⟨x, s, rfl, rfl, hx⟩ := ih hm
    refine ⟨c :: x, s, rfl, by simp; omega, fun u => ?_⟩
    simp [stringRest?_cons, hq, hn, hb, hx u]

theorem stringLength?_local {t : Text} (h : stringLength? t = some n) :
    ∃ x r, t = x ++ r ∧ x.length = n ∧ (∃ q y, x = q :: y ∧ (q = '"' ∨ q = '\'')) ∧
      ∀ r', stringLength? (x ++ r') = some n := by
  unfold stringLength? at h
  split at h
  · cases h
  · rename_i q y
    split at h
    · rename_i hq
      obtain ⟨m, hm, rfl⟩ := Option.map_eq_some_iff.mp h
      obtain ⟨x, s, rfl, rfl, hx⟩ := stringRest?_local hm
      refine ⟨q :: x, s, rfl, by simp; omega, ⟨q, x, rfl, by simpa using hq⟩, fun u => ?_⟩
      simp only [cons_append, stringLength?, hq, if_true, hx u]
      rfl
    · cases h

/-! ## First characters

Which rules can match shows in the first character, but for points and slashes. -/

theorem numberLength?_eq_none (hc : c.isDecimalDigit = false) (hpoint : c = '.' → Stops CodePoint.isDecimalDigit r) :
    numberLength? (c :: r) = none := by
  cases hn : numberLength? (c :: r) with
  | none => rfl
  | some n =>
    exfalso
    obtain ⟨x, s, hx, -, hnum⟩ := numeral_of_numberLength? hn
    obtain ⟨d, y, rfl, hd⟩ := hnum.head
    cases hx
    rcases hd with hd | ⟨rfl, d, y', rfl, hd⟩
    · rw [hc] at hd
      cases hd
    · have := stops_cons.mp (hpoint rfl)
      rw [hd] at this
      cases this

theorem stringLength?_eq_none {c : CodePoint} (hc : c ≠ '"' ∧ c ≠ '\'') (r : Text) :
    stringLength? (c :: r) = none := by
  simp [stringLength?, hc.1, hc.2]

theorem identLength?_eq_none (hc : isIdentStart c = false) (r : Text) : identLength? (c :: r) = none := by
  simp [identLength?, hc]

theorem comments_eq_none (hslash : c = '/' → Stops (fun d => d = '/' || d = '*') r) :
    blockCommentLength? (c :: r) = none ∧ lineCommentLength? (c :: r) = none := by
  cases r with
  | nil => exact ⟨rfl, rfl⟩
  | cons d r =>
    by_cases hc : c = '/'
    · have hd := stops_cons.mp (hslash hc)
      rw [Bool.or_eq_false_iff, decide_eq_false_iff_not, decide_eq_false_iff_not] at hd
      simp [blockCommentLength?, lineCommentLength?, hd.1, hd.2]
    · simp [blockCommentLength?, lineCommentLength?, hc]

theorem blankLength?_eq_none (hc : c.isBlank = false) (r : Text) : blankLength? (c :: r) = none := by
  simp [blankLength?, countWhile, hc]

/-- The code points that a mark can begin with. -/
def markStarts : Text := "><-+*/%&|^=!~:,.\x7b([?\x7d)];"

/-- What begins like a mark, and is neither a number nor a comment, is read as a mark. -/
theorem match?_of_markStart (hc : c ∈ markStarts) (hpoint : c = '.' → Stops CodePoint.isDecimalDigit r)
    (hslash : c = '/' → Stops (fun d => d = '/' || d = '*') r) :
    match? (c :: r) = (mark? (c :: r)).map fun (k, n) => (some k, n) := by
  have table : markStarts.all (fun c => ! c.isDecimalDigit && c ≠ '"' && c ≠ '\'' &&
      ! isIdentStart c && ! c.isBlank) := by decide
  have hall := all_eq_true.mp table c hc
  simp only [Bool.and_eq_true, Bool.not_eq_true', decide_eq_true_eq] at hall
  obtain ⟨⟨⟨⟨hdigit, hq⟩, hq'⟩, hident⟩, hblank⟩ := hall
  unfold match?
  simp only [numberLength?_eq_none hdigit hpoint, stringLength?_eq_none ⟨hq, hq'⟩,
    identLength?_eq_none hident, comments_eq_none hslash, blankLength?_eq_none hblank]

/-! ## Marks -/

/-- The spellings of all marks. -/
def markSpellings : List Text := marks.flatMap (·.2)

/-- Whether a mark goes on with a code point: as a longer mark, a number or a comment. -/
def markGoesOn (x : Text) (c : CodePoint) : Bool :=
  markSpellings.any (fun s => (x ++ [c]).isPrefixOf s) || (x = "." && c.isDecimalDigit) ||
    (x = "/" && (c = '/' || c = '*'))

theorem mem_markSpellings (h : (k, ss) ∈ marks) (hs : s ∈ ss) : s ∈ markSpellings :=
  mem_flatMap.mpr ⟨(k, ss), h, hs⟩

/-- No mark begins like a number or a comment. -/
theorem markSpellings_start : ∀ x ∈ markSpellings, ∃ c y, x = c :: y ∧ c ∈ markStarts ∧
    (c = '.' → y = []) ∧ (c = '/' → y = [] ∨ y = "=") := by
  have table : markSpellings.all (fun x => match x with
      | [] => false
      | c :: y => markStarts.contains c && (c ≠ '.' || y.isEmpty) &&
        (c ≠ '/' || y.isEmpty || y = "=")) := by decide
  intro x hx
  have := all_eq_true.mp table x hx
  cases x with
  | nil => cases this
  | cons c y =>
    simp only [Bool.and_eq_true, Bool.or_eq_true, decide_eq_true_eq, contains_iff_mem,
      List.isEmpty_iff] at this
    obtain ⟨⟨hc, hp⟩, hs⟩ := this
    refine ⟨c, y, rfl, hc, fun h => hp.resolve_left (not_not.mpr h), fun h => ?_⟩
    rcases hs with (hs | hs) | hs
    · exact absurd h hs
    · exact .inl hs
    · exact .inr hs

theorem mark?_eq_of_prefixes {u : Text} (h : ∀ s ∈ markSpellings, s.isPrefixOf t = s.isPrefixOf u) :
    mark? t = mark? u := by
  unfold mark?
  rw [← head?_filterMap, ← head?_filterMap]
  congr 1
  refine filterMap_congr ?_
  rintro ⟨k, ss⟩ he
  have hfind : ss.find? (fun s => s.isPrefixOf t) = ss.find? fun s => s.isPrefixOf u := by
    rw [← head?_filter, ← head?_filter,
      filter_congr fun s hs => h s (mem_markSpellings he hs)]
  simp only [hfind]

/-- A spelling that reaches past a text goes on with what stands behind the text. -/
theorem exists_goesOn (hs : s <+: x ++ r) (hx : ¬ s <+: x) : ∃ d ∈ r.head?, x ++ [d] <+: s := by
  rcases prefix_or_prefix_of_prefix hs (prefix_append x r) with h | ⟨u, rfl⟩
  · exact absurd h hx
  · have hu := (prefix_append_right_inj x).mp hs
    cases u with
    | nil => exact absurd (by simp) hx
    | cons d u =>
      obtain ⟨v, rfl⟩ := hu
      exact ⟨d, rfl, u, by simp⟩

theorem match?_mark_append (hx : x ∈ markSpellings) (hk : mark? x = some (k, x.length))
    (hr : Stops (markGoesOn x) r) :
    match? (x ++ r) = some (some k, x.length) := by
  obtain ⟨c, y, rfl, hc, hpoint, hslash⟩ := markSpellings_start x hx
  have hgo : ∀ d ∈ r.head?, (markSpellings.any fun s => ((c :: y) ++ [d]).isPrefixOf s) = false ∧
      ((c :: y) = "." → d.isDecimalDigit = false) ∧
      ((c :: y) = "/" → (d = '/' || d = '*') = false) := by
    intro d hd
    have := hr d hd
    rw [markGoesOn, Bool.or_eq_false_iff, Bool.or_eq_false_iff] at this
    refine ⟨this.1.1, fun h => ?_, fun h => ?_⟩
    · simpa [h] using this.1.2
    · simpa [h] using this.2
  have hmark : mark? ((c :: y) ++ r) = mark? (c :: y) := by
    refine mark?_eq_of_prefixes fun s hs => ?_
    rw [Bool.eq_iff_iff, isPrefixOf_iff_prefix, isPrefixOf_iff_prefix]
    refine ⟨fun h => ?_, fun h => h.trans (prefix_append _ r)⟩
    by_contra hx
    obtain ⟨d, hd, hgoes⟩ := exists_goesOn h hx
    have := any_eq_false.mp (hgo d hd).1 s hs
    exact this ( isPrefixOf_iff_prefix.mpr hgoes)
  rw [cons_append] at hmark ⊢
  rw [match?_of_markStart hc, hmark, hk]
  · rfl
  · rintro rfl
    obtain rfl := hpoint rfl
    exact fun d hd => (hgo d hd).2.1 rfl
  · rintro rfl
    rcases hslash rfl with rfl | rfl
    · exact fun d hd => (hgo d hd).2.2 rfl
    · exact stops_cons.mpr (by decide)

/-! ## Words -/

theorem isIdentStart_val (h : isIdentStart c) :
    c.val = 0x24 ∨ 0x41 ≤ c.val ∧ c.val ≤ 0x5A ∨ c.val = 0x5F ∨ 0x61 ≤ c.val ∧ c.val ≤ 0x7A := by
  have hunder : (c = '_') = (c.val = 0x5F) := propext Fin.ext_iff
  have hdollar : (c = '$') = (c.val = 0x24) := propext Fin.ext_iff
  simp only [isIdentStart, CodePoint.isAsciiLetter, CodePoint.isAsciiUpper, CodePoint.isAsciiLower,
    hunder, hdollar, Bool.or_eq_true, Bool.and_eq_true, decide_eq_true_eq] at h
  omega

theorem isDecimalDigit_of_isIdentStart (h : isIdentStart c) : c.isDecimalDigit = false := by
  cases hd : c.isDecimalDigit with
  | false => rfl
  | true =>
    have := forall_digit (P := fun c => ! isIdentStart c) (by decide) hd
    rw [h] at this
    cases this

theorem match?_word_append (hc : isIdentStart c) (hy : ∀ d ∈ y, isIdentPart d) (hr : Stops isIdentPart r) :
    match? (c :: (y ++ r)) = some (some (wordTerminal (c :: y)), (c :: y).length) := by
  have hne {d : CodePoint} (hd : isIdentStart d = false) : c ≠ d := by
    rintro rfl
    rw [hc] at hd
    cases hd
  have hnum : numberLength? (c :: (y ++ r)) = none :=
    numberLength?_eq_none (isDecimalDigit_of_isIdentStart hc) fun h => absurd h (hne (by decide))
  have hstr : stringLength? (c :: (y ++ r)) = none :=
    stringLength?_eq_none ⟨hne (by decide), hne (by decide)⟩ _
  have hident : identLength? (c :: (y ++ r)) = some (c :: y).length := by
    rw [identLength?, if_pos hc, countWhile_append hy hr, length_cons, Nat.add_comm]
  unfold match?
  simp only [hnum, hstr, hident]
  simp

/-! ## Every spelling -/

/-- What the lexer takes for one token, by the rule that takes it. -/
inductive Lexeme : Terminal → Text → Prop where
  | number {x : Text} : Numeral x → Lexeme .number x
  | string {x : Text} : (∃ q y, x = q :: y ∧ (q = '"' ∨ q = '\'')) →
      (∀ r, stringLength? (x ++ r) = some x.length) → Lexeme .string x
  | word {c : CodePoint} {y : Text} : isIdentStart c = true → (∀ d ∈ y, isIdentPart d = true) →
      Lexeme (wordTerminal (c :: y)) (c :: y)
  | mark {k : Terminal} {ss : List Text} {x : Text} : (k, ss) ∈ marks → x ∈ ss → Lexeme k x

/-- The first token of a text is a lexeme of its terminal. -/
theorem lexeme_of_match? (h : match? t = some (some k, n)) :
    ∃ x r, t = x ++ r ∧ x.length = n ∧ Lexeme k x := by
  generalize hk : some k = k' at h
  cases taken_of_match? h with
  | number hn =>
    cases hk
    obtain ⟨x, r, hx, hlen, hnum⟩ := numeral_of_numberLength? hn
    exact ⟨x, r, hx, hlen, .number hnum⟩
  | string _ hs =>
    cases hk
    obtain ⟨x, r, hx, rfl, hq, hlocal⟩ := stringLength?_local hs
    exact ⟨x, r, hx, rfl, .string hq hlocal⟩
  | word _ _ hw =>
    cases hk
    cases t with
    | nil => cases hw
    | cons c s =>
      rw [identLength?] at hw
      split at hw
      · rename_i hc
        obtain ⟨y, r, rfl, hlen, hy, -⟩ := countWhile_split isIdentPart s
        cases hw
        rw [← hlen, Nat.add_comm]
        refine ⟨c :: y, r, rfl, rfl, ?_⟩
        have htake : (c :: (y ++ r)).take (y.length + 1) = c :: y := by simp
        rw [htake]
        exact .word hc hy
      · cases hw
  | skipped _ => cases hk
  | mark _ _ _ _ _ _ hm =>
    cases hk
    obtain ⟨ss, hss, s, hs, ⟨r, rfl⟩, rfl⟩ := mark?_spec hm
    exact ⟨s, r, rfl, rfl, .mark hss hs⟩

/-- Whether a token goes on with a code point. -/
def runsInto (k : Terminal) (x : Text) (c : CodePoint) : Bool :=
  match k with
  | .number => goesOn c || (c = '.' && ! x.any fun d => (".eExX" : Text).contains d)
  | .string => false
  | _ => if x.head?.any isIdentStart then isIdentPart c else markGoesOn x c

theorem mem_keywords (h : keywords.lookup t = some k) : (t, k) ∈ keywords := by
  obtain ⟨l₁, l₂, heq, -⟩ := lookup_eq_some_iff.mp h
  simp [heq]

theorem wordTerminal_ne (t : Text) : wordTerminal t ≠ .number ∧ wordTerminal t ≠ .string := by
  have table : keywords.all (fun e => e.2 ≠ .number && e.2 ≠ .string) := by decide
  unfold wordTerminal
  cases hl : keywords.lookup t with
  | none => decide
  | some k =>
    have := all_eq_true.mp table _ (mem_keywords hl)
    simpa using this

theorem runsInto_word (hc : isIdentStart c) : runsInto (wordTerminal (c :: y)) (c :: y) = isIdentPart := by
  obtain ⟨hnum, hstr⟩ := wordTerminal_ne (c :: y)
  funext d
  unfold runsInto
  split
  · exact absurd ‹_› hnum
  · exact absurd ‹_› hstr
  · simp [hc]

theorem mark_facts (h : (k, ss) ∈ marks) (hx : x ∈ ss) :
    mark? x = some (k, x.length) ∧ k ≠ .number ∧ k ≠ .string ∧ x.head?.any isIdentStart = false := by
  have table : marks.all (fun e => e.1 ≠ .number && e.1 ≠ .string && e.2.all fun x =>
      mark? x = some (e.1, x.length) && ! x.head?.any isIdentStart) := by decide
  have := all_eq_true.mp table _ h
  simp only [Bool.and_eq_true, decide_eq_true_eq] at this
  obtain ⟨⟨hnum, hstr⟩, hall⟩ := this
  have := all_eq_true.mp hall x hx
  simp only [Bool.and_eq_true, decide_eq_true_eq, Bool.not_eq_true'] at this
  exact ⟨this.1, hnum, hstr, this.2⟩

theorem runsInto_mark (h : (k, ss) ∈ marks) (hx : x ∈ ss) : runsInto k x = markGoesOn x := by
  obtain ⟨-, hnum, hstr, hhead⟩ := mark_facts h hx
  funext d
  unfold runsInto
  split
  · exact absurd rfl hnum
  · exact absurd rfl hstr
  · simp [hhead]

/-- A lexeme is found again in front of what it does not go on with. -/
theorem Lexeme.match?_append (h : Lexeme k x) (hr : Stops (runsInto k x) r) :
    match? (x ++ r) = some (some k, x.length) := by
  cases h with
  | number hnum =>
    have hlen : numberLength? (x ++ r) = some x.length := by
      refine hnum.numberLength?_append (fun c hc => ?_) fun hpoint => ?_
      · exact (Bool.or_eq_false_iff.mp (hr c hc)).1
      · have := (Bool.or_eq_false_iff.mp (hr _ hpoint)).2
        simpa using this
    unfold match?
    simp only [hlen]
  | string hq hlocal =>
    obtain ⟨q, y, rfl, hq⟩ := hq
    have hnum : numberLength? (q :: (y ++ r)) = none := by
      rcases hq with rfl | rfl <;>
        exact numberLength?_eq_none (by decide) fun h => absurd h (by decide)
    have hlen := hlocal r
    rw [cons_append] at hlen ⊢
    unfold match?
    simp only [hnum, hlen]
  | word hc hy => exact match?_word_append hc hy (runsInto_word hc ▸ hr)
  | mark hss hx =>
    exact match?_mark_append (mem_markSpellings hss hx) (mark_facts hss hx).1
      (runsInto_mark hss hx ▸ hr)

theorem spells_iff_lexeme : Spells k x ↔ Lexeme k x := by
  constructor
  · intro h
    obtain ⟨y, r, rfl, hlen, hy⟩ := lexeme_of_match? h
    obtain rfl : r = [] := by simpa using hlen
    rwa [append_nil]
  · intro h
    have := h.match?_append (stops_nil _)
    rwa [append_nil] at this

theorem Spells.scans (h : Spells k x) (hr : Stops (runsInto k x) r) : Scans x [(k, x)] r :=
  .token ((spells_iff_lexeme.mp h).match?_append hr)

/-! ## Fixed spellings -/

/-- The texts that spell a terminal which is no number, string or identifier. -/
def spellings (k : Terminal) : List Text :=
  (marks.lookup k).getD [] ++ (keywords.filter fun e => e.2 = k).map Prod.fst

theorem Spells.mem_spellings (h : Spells k x) (hnum : k ≠ .number) (hstr : k ≠ .string) (hident : k ≠ .ident) :
    x ∈ spellings k := by
  cases spells_iff_lexeme.mp h with
  | number _ => exact absurd rfl hnum
  | string _ _ => exact absurd rfl hstr
  | @word c y _ _ =>
    unfold wordTerminal at hident ⊢
    cases hl : keywords.lookup (c :: y) with
    | none => simp [hl] at hident
    | some k =>
      refine mem_append_right _ (mem_map.mpr ⟨(c :: y, k), ?_, rfl⟩)
      simpa using mem_keywords hl
  | mark hss hx =>
    have table : marks.all (fun e => marks.lookup e.1 = some e.2) := by decide
    have := all_eq_true.mp table _ hss
    rw [decide_eq_true_eq] at this
    exact mem_append_left _ (by rw [this]; exact hx)

/-! ## Boundaries -/

/-- Blanks, brackets and separators: no token goes on with them. -/
def isBoundary (c : CodePoint) : Bool := c.isBlank || ("()[]\x7b\x7d,;:?" : Text).contains c

/-- The code points that a mark can have after its first one. -/
def markTails : Text := "=<>+-&|"

theorem mem_markTails (hs : s ∈ markSpellings) (hne : x ≠ []) (h : x ++ [c] <+: s) : c ∈ markTails := by
  have table : markSpellings.all (fun s => s.tail.all fun c => markTails.contains c) := by
    decide
  obtain ⟨d, y, rfl⟩ := exists_cons_of_ne_nil hne
  obtain ⟨u, rfl⟩ := h
  have := all_eq_true.mp (all_eq_true.mp table _ hs) c (by simp)
  simpa using this

theorem isBoundary_ne (hc : isBoundary c) {l : Text} (h : (l.all fun d => ! isBoundary d)) : c ∉ l := by
  intro hmem
  have := all_eq_true.mp h c hmem
  rw [hc] at this
  cases this

theorem isDecimalDigit_of_isBoundary (hc : isBoundary c) : c.isDecimalDigit = false := by
  cases hd : c.isDecimalDigit with
  | false => rfl
  | true =>
    have := forall_digit (P := fun c => ! isBoundary c) (by decide) hd
    rw [hc] at this
    cases this

theorem isBoundary_val (hc : isBoundary c) :
    ¬ (0x30 ≤ c.val ∧ c.val ≤ 0x39) ∧ ¬ (0x41 ≤ c.val ∧ c.val ≤ 0x5A) ∧
      ¬ (0x61 ≤ c.val ∧ c.val ≤ 0x7A) ∧ c.val ≠ 0x24 ∧ c.val ≠ 0x5F := by
  rcases Bool.or_eq_true_iff.mp hc with h | h
  · simp only [CodePoint.isBlank, Bool.or_eq_true, Bool.and_eq_true, decide_eq_true_eq,
      beq_iff_eq] at h
    omega
  · have table : (("()[]\x7b\x7d,;:?" : Text).all fun c => ! (0x30 ≤ c.val && c.val ≤ 0x39) &&
        ! (0x41 ≤ c.val && c.val ≤ 0x5A) && ! (0x61 ≤ c.val && c.val ≤ 0x7A) && c.val ≠ 0x24 &&
        c.val ≠ 0x5F) := by decide
    have := all_eq_true.mp table c (contains_iff_mem.mp h)
    simp only [Bool.and_eq_true, Bool.not_eq_true', Bool.and_eq_false_iff, decide_eq_false_iff_not,
      decide_eq_true_eq] at this
    omega

theorem isIdentPart_of_isBoundary (hc : isBoundary c) : isIdentPart c = false := by
  have hval := isBoundary_val hc
  cases hp : isIdentPart c with
  | false => rfl
  | true =>
    rcases Bool.or_eq_true_iff.mp hp with h | h
    · have := isIdentStart_val h
      omega
    · simp only [CodePoint.isAsciiDigit, Bool.and_eq_true, decide_eq_true_eq] at h
      omega

theorem isHexDigit_of_isBoundary (hc : isBoundary c) : c.isHexDigit = false := by
  have hval := isBoundary_val hc
  unfold CodePoint.isHexDigit CodePoint.hexValue? CodePoint.isAsciiDigit
  grind

theorem Spells.runsInto_boundary (h : Spells k x) (hc : isBoundary c) : runsInto k x c = false := by
  have hne {d : CodePoint} (hd : isBoundary d = false) : c ≠ d := by
    rintro rfl
    rw [hc] at hd
    cases hd
  cases spells_iff_lexeme.mp h with
  | number _ =>
    simp [runsInto, goesOn, isDecimalDigit_of_isBoundary hc, isHexDigit_of_isBoundary hc,
      hne (d := 'x') (by decide), hne (d := 'X') (by decide), hne (d := '.') (by decide)]
  | string _ _ => rfl
  | word hstart _ => rw [runsInto_word hstart, isIdentPart_of_isBoundary hc]
  | mark hss hx =>
    rw [runsInto_mark hss hx, markGoesOn]
    have hxne : x ≠ [] := by
      rintro rfl
      exact absurd (match?_pos h) (by simp)
    have hlonger : (markSpellings.any fun s => (x ++ [c]).isPrefixOf s) = false := by
      refine any_eq_false.mpr fun s hs hp => ?_
      exact isBoundary_ne hc (l := markTails) (by decide)
        (mem_markTails hs hxne ( isPrefixOf_iff_prefix.mp hp))
    simp [hlonger, isDecimalDigit_of_isBoundary hc, hne (d := '/') (by decide),
      hne (d := '*') (by decide)]

/-- A token ends where a boundary follows, or nothing. -/
theorem Spells.before_boundary (h : Spells k x) (hr : ∀ c ∈ r.head?, isBoundary c) : Scans x [(k, x)] r :=
  h.scans fun c hc => h.runsInto_boundary (hr c hc)

end ArrowFree.Token
