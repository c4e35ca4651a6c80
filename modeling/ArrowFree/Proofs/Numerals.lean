import ArrowFree.Literal
import ArrowFree.Token.Lexer
import Mathlib.Data.List.Basic

/-!
# Numerals

What the rule for numbers takes is a numeral (`numeral_of_numberLength?`), and a numeral is taken whole
where what follows cannot go on with it (`Numeral.numberLength?_append`). Every numeral has a value
(`Numeral.readNumber`).
-/

namespace ArrowFree.Token

open List

variable {ds : Text}

/-! ## Counting -/

variable {c : CodePoint} {r m e x s a t : Text} {p : CodePoint → Bool} {n : Nat}

/-- The text does not begin with such a code point. -/
def Stops (p : CodePoint → Bool) (r : Text) : Prop := ∀ c ∈ r.head?, p c = false

theorem stops_nil (p : CodePoint → Bool) : Stops p [] := by simp [Stops]

theorem stops_cons : Stops p (c :: r) ↔ p c = false := by
  simp [Stops]

theorem countWhile_of_stops (h : Stops p r) : countWhile p r = 0 := by
  cases r with
  | nil => rfl
  | cons c r => simp [countWhile, stops_cons.mp h]

theorem countWhile_append (ha : ∀ c ∈ a, p c) (hr : Stops p r) : countWhile p (a ++ r) = a.length := by
  have hnil := eq_nil_of_length_eq_zero (countWhile_of_stops hr)
  rw [countWhile, takeWhile_append_of_pos ha, hnil, append_nil]

theorem countWhile_split (p : CodePoint → Bool) (t : Text) :
    ∃ a r, t = a ++ r ∧ a.length = countWhile p t ∧ (∀ c ∈ a, p c) ∧ Stops p r := by
  refine ⟨t.takeWhile p, t.dropWhile p, takeWhile_append_dropWhile.symm, rfl,
    all_eq_true.mp all_takeWhile, fun c hc => ?_⟩
  have := head?_dropWhile_not p t
  rw [Option.mem_def.mp hc] at this
  simpa using this

/-! ## The parts of a numeral -/

def Digits (a : Text) : Prop := ∀ c ∈ a, c.isDecimalDigit = true

theorem ne_of_digit {d : CodePoint} (hd : d.isDecimalDigit) (hc : c.isDecimalDigit = false) : d ≠ c := by
  rintro rfl
  exact absurd (hd.symm.trans hc) (by decide)

/-- Digits, or digits with a point among, before or behind them. -/
inductive Mantissa : Text → Prop where
  | whole {a : Text} : a ≠ [] → Digits a → Mantissa a
  | point {a f : Text} : a ≠ [] ∨ f ≠ [] → Digits a → Digits f → Mantissa (a ++ (('.' : CodePoint) :: f))

inductive Exponent : Text → Prop where
  | absent : Exponent []
  | present {c : CodePoint} {s ds : Text} : c = 'e' ∨ c = 'E' → s = [] ∨ s = "+" ∨ s = "-" →
      ds ≠ [] → Digits ds → Exponent (c :: (s ++ ds))

inductive Numeral : Text → Prop where
  | hex {c : CodePoint} {ds : Text} : c = 'x' ∨ c = 'X' → ds ≠ [] → (∀ d ∈ ds, d.isHexDigit = true) →
      Numeral (('0' : CodePoint) :: c :: ds)
  | decimal {m e : Text} : Mantissa m → Exponent e → Numeral (m ++ e)

/-! ## What the rules take -/

theorem numeral_of_hexLength? (h : hexLength? t = some n) : ∃ x r, t = x ++ r ∧ x.length = n ∧ Numeral x := by
  unfold hexLength? at h
  split at h
  · rename_i z c s
    split at h
    · rename_i hzx
      simp only [Bool.and_eq_true, Bool.or_eq_true, decide_eq_true_eq] at hzx
      obtain ⟨a, r, hs, hlen, ha, -⟩ := countWhile_split CodePoint.isHexDigit s
      split at h
      · cases h
      · rename_i hne
        refine ⟨z :: c :: a, r, by rw [hs]; rfl, ?_, ?_⟩
        · simp only [Option.some.injEq] at h
          simp only [length_cons]
          omega
        · rw [hzx.1]
          refine .hex hzx.2 (fun hnil => hne ?_) ha
          rw [← hlen, hnil]
          rfl
    · cases h
  · cases h

theorem mantissa_of_mantissaLength? (h : mantissaLength? t = some n) :
    ∃ x r, t = x ++ r ∧ x.length = n ∧ Mantissa x := by
  obtain ⟨a, s, hs, hlen, ha, -⟩ := countWhile_split CodePoint.isDecimalDigit t
  have hdrop : t.drop (countDigits t) = s := by
    rw [countDigits, ← hlen, hs, drop_left]
  have hwhole : countDigits t = a.length := hlen.symm
  unfold mantissaLength? at h
  simp only [hdrop] at h
  rw [hwhole] at h
  have plain (h : (if a.length = 0 then none else some a.length) = some n) :
      ∃ x r, t = x ++ r ∧ x.length = n ∧ Mantissa x := by
    split at h
    · cases h
    · rename_i hne
      exact ⟨a, s, hs, Option.some.inj h, .whole (fun hnil => hne (by rw [hnil]; rfl)) ha⟩
  cases s with
  | nil => exact plain h
  | cons c s' =>
    simp only at h
    split at h
    · rename_i hc
      obtain ⟨f, r, hf, hflen, hdf, -⟩ := countWhile_split CodePoint.isDecimalDigit s'
      split at h
      · cases h
      · rename_i hne
        refine ⟨a ++ (('.' : CodePoint) :: f), r, by rw [hs, hf, hc]; simp, ?_, .point ?_ ha hdf⟩
        · simp only [Option.some.injEq, countDigits, ← hflen] at h
          simp only [length_append, length_cons]
          omega
        · by_contra hcon
          simp only [ne_eq, not_or, not_not] at hcon
          apply hne
          rw [countDigits, ← hflen, hcon.1, hcon.2]
          rfl
    · exact plain h

theorem exponentLength_of_ne (h : ¬ (c = 'e' ∨ c = 'E')) (r : Text) : exponentLength (c :: r) = 0 := by
  have hif : (c = 'e' || c = 'E') = false := by simpa using h
  simp [exponentLength, hif]

theorem digitsOrNone_eq (n k : Nat) : (match n with | 0 => 0 | n => 1 + k + n) = if n = 0 then 0 else 1 + k + n := by
  cases n <;> rfl

theorem exponentLength_eq (hc : c = 'e' ∨ c = 'E')
    (h : s = "+" ∨ s = "-" ∨ s = [] ∧ Stops (fun d => d = '+' || d = '-') r) :
    exponentLength (c :: (s ++ r)) =
      if countDigits r = 0 then 0 else 1 + s.length + countDigits r := by
  have hif : (c = 'e' || c = 'E') := by simpa using hc
  unfold exponentLength
  simp only [hif, if_true]
  rcases h with rfl | rfl | ⟨rfl, hr⟩
  · exact digitsOrNone_eq (countDigits r) 1
  · exact digitsOrNone_eq (countDigits r) 1
  · cases r with
    | nil => rfl
    | cons d r =>
      simp only [nil_append, stops_cons.mp hr]
      exact digitsOrNone_eq (countDigits (d :: r)) 0

theorem exponent_of_exponentLength (t : Text) :
    ∃ x r, t = x ++ r ∧ x.length = exponentLength t ∧ Exponent x := by
  have empty (h : exponentLength t = 0) :
      ∃ x r, t = x ++ r ∧ x.length = exponentLength t ∧ Exponent x :=
    ⟨[], t, rfl, h.symm, .absent⟩
  cases t with
  | nil => exact empty rfl
  | cons c r =>
    by_cases hc : c = 'e' ∨ c = 'E'
    · have hsign : ∃ s r', r = s ++ r' ∧
          (s = "+" ∨ s = "-" ∨ s = [] ∧ Stops (fun d => d = '+' || d = '-') r') := by
        cases r with
        | nil => exact ⟨[], [], rfl, .inr (.inr ⟨rfl, stops_nil _⟩)⟩
        | cons d r' =>
          by_cases hd : d = '+' ∨ d = '-'
          · rcases hd with rfl | rfl
            · exact ⟨"+", r', rfl, .inl rfl⟩
            · exact ⟨"-", r', rfl, .inr (.inl rfl)⟩
          · exact ⟨[], d :: r', rfl, .inr (.inr ⟨rfl, stops_cons.mpr (by simpa using hd)⟩)⟩
      obtain ⟨s, r', rfl, hs⟩ := hsign
      have hlen := exponentLength_eq hc hs
      obtain ⟨ds, r'', hr', hdlen, hds, -⟩ := countWhile_split CodePoint.isDecimalDigit r'
      by_cases hzero : countDigits r' = 0
      · rw [if_pos hzero] at hlen
        exact empty hlen
      · rw [if_neg hzero, countDigits, ← hdlen] at hlen
        refine ⟨c :: (s ++ ds), r'', by rw [hr']; simp, ?_, .present hc ?_ ?_ hds⟩
        · rw [hlen, length_cons, length_append]
          omega
        · rcases hs with hs | hs | ⟨hs, -⟩
          · exact .inr (.inl hs)
          · exact .inr (.inr hs)
          · exact .inl hs
        · rintro rfl
          exact hzero hdlen.symm
    · exact empty (exponentLength_of_ne hc r)

/-- The rule for numbers takes a numeral. -/
theorem numeral_of_numberLength? (h : numberLength? t = some n) : ∃ x r, t = x ++ r ∧ x.length = n ∧ Numeral x := by
  unfold numberLength? at h
  cases hx : hexLength? t with
  | some m =>
    obtain rfl : m = n := by simpa [hx] using h
    exact numeral_of_hexLength? hx
  | none =>
    obtain ⟨k, hk, rfl⟩ : ∃ k, mantissaLength? t = some k ∧ k + exponentLength (t.drop k) = n := by
      simpa [hx] using h
    obtain ⟨m, s, hs, hm, hmant⟩ := mantissa_of_mantissaLength? hk
    have hdrop : t.drop k = s := by rw [← hm, hs, drop_left]
    obtain ⟨e, r, hr, he, hexp⟩ := exponent_of_exponentLength s
    refine ⟨m ++ e, r, by rw [hs, hr, append_assoc], ?_, .decimal hmant hexp⟩
    rw [length_append, hm, he, hdrop]

/-! ## Numerals are taken whole -/

theorem Mantissa.ne_nil (h : Mantissa m) : m ≠ [] := by
  cases h with
  | whole hne _ => exact hne
  | point _ _ _ => simp

/-- A mantissa ends before what is no digit; one without a point also has to end before no point. -/
theorem Mantissa.mantissaLength?_append (h : Mantissa m) (hs : Stops CodePoint.isDecimalDigit s)
    (hpoint : s.head? = some ('.' : CodePoint) → ('.' : CodePoint) ∈ m) :
    mantissaLength? (m ++ s) = some m.length := by
  unfold mantissaLength?
  cases h with
  | whole hne hd =>
    have hlen : m.length ≠ 0 := by simpa using hne
    have hcount : countDigits (m ++ s) = m.length := countWhile_append hd hs
    simp only [hcount, drop_left]
    cases s with
    | nil => simp [hlen]
    | cons c s =>
      have hc : c ≠ '.' := by
        rintro rfl
        exact absurd (hd _ (hpoint rfl)) (by decide)
      simp [hc, hlen]
  | @point a f hne ha hf =>
    have hpt : Stops CodePoint.isDecimalDigit (('.' : CodePoint) :: (f ++ s)) :=
      stops_cons.mpr (by decide)
    have hcount : countDigits (a ++ (('.' : CodePoint) :: (f ++ s))) = a.length :=
      countWhile_append ha hpt
    have hfrac : countDigits (f ++ s) = f.length := countWhile_append hf hs
    have hsome : (decide (a.length = 0) && decide (f.length = 0)) = false := by
      rcases hne with hne | hne <;> simp [hne]
    simp only [append_assoc, cons_append, hcount, drop_left, hfrac, if_true, hsome]
    simp
    omega

theorem Exponent.exponentLength_append (h : Exponent e) (hr : Stops CodePoint.isDecimalDigit r)
    (he : Stops (fun c => c = 'e' || c = 'E') r) : exponentLength (e ++ r) = e.length := by
  cases h with
  | absent =>
    cases r with
    | nil => rfl
    | cons c r => exact exponentLength_of_ne (by simpa using stops_cons.mp he) r
  | @present c s ds hc hs hne hds =>
    have hcount : countDigits (ds ++ r) = ds.length := countWhile_append hds hr
    have hlen : ds.length ≠ 0 := by simpa using hne
    have hsign : s = "+" ∨ s = "-" ∨ s = [] ∧ Stops (fun d => d = '+' || d = '-') (ds ++ r) := by
      rcases hs with hs | hs | hs
      · refine .inr (.inr ⟨hs, ?_⟩)
        obtain ⟨d, ds', rfl⟩ := exists_cons_of_ne_nil hne
        have hd := hds d mem_cons_self
        exact stops_cons.mpr (by simp [ne_of_digit hd (c := '+') (by decide), ne_of_digit hd (c := '-') (by decide)])
      · exact .inl hs
      · exact .inr (.inl hs)
    rw [cons_append, append_assoc, exponentLength_eq hc hsign, hcount, if_neg hlen]
    simp only [length_cons, length_append]
    omega

/-- The code points that a numeral may go on with, the point apart. -/
def goesOn (c : CodePoint) : Bool :=
  c.isDecimalDigit || c.isHexDigit || c = 'x' || c = 'X'

/-- No hexadecimal number begins with a mantissa. -/
theorem Mantissa.second_ne {u : Text} {z : CodePoint} (h : Mantissa m) (hs : Stops (fun c => c = 'x' || c = 'X') s)
    (heq : m ++ s = z :: c :: u) : ¬ (c = 'x' ∨ c = 'X') := by
  have digit {c : CodePoint} (hc : c.isDecimalDigit) : ¬ (c = 'x' ∨ c = 'X') :=
    not_or.mpr ⟨ne_of_digit hc (by decide), ne_of_digit hc (by decide)⟩
  cases h with
  | whole hne hd =>
    match m, hne with
    | [d], _ =>
      obtain ⟨-, hsc⟩ := cons.inj heq
      have : Stops (fun c => c = 'x' || c = 'X') (c :: u) := by
        rw [← hsc]
        exact hs
      simpa using stops_cons.mp this
    | d :: d' :: m', _ =>
      obtain ⟨-, hsc⟩ := cons.inj heq
      cases hsc
      exact digit (hd _ (by simp))
  | @point a f hne ha hf =>
    match a with
    | [] =>
      rcases hne with hne | hne
      · exact absurd rfl hne
      · obtain ⟨d, f', rfl⟩ := exists_cons_of_ne_nil hne
        obtain ⟨-, hsc⟩ := cons.inj heq
        cases hsc
        exact digit (hf _ (by simp))
    | [d] =>
      obtain ⟨-, hsc⟩ := cons.inj heq
      cases hsc
      decide
    | d :: d' :: a' =>
      cases heq
      exact digit (ha _ (by simp))

theorem hexLength?_eq_none (h : Mantissa m) (hs : Stops (fun c => c = 'x' || c = 'X') s) :
    hexLength? (m ++ s) = none := by
  unfold hexLength?
  split
  · rename_i z c u heq
    have := h.second_ne hs heq
    rw [if_neg]
    simp only [Bool.and_eq_true, Bool.or_eq_true, decide_eq_true_eq]
    exact fun hzx => this hzx.2
  · rfl

theorem Exponent.stops (h : Exponent e) (hp : p 'e' = false ∧ p 'E' = false) : Stops p e := by
  cases h with
  | absent => exact stops_nil p
  | present hc _ _ _ =>
    rcases hc with rfl | rfl
    · exact stops_cons.mpr hp.1
    · exact stops_cons.mpr hp.2

/-- A numeral in front of a text that cannot go on with it is taken whole. Before a point it has to
have a mark of its own. -/
theorem Numeral.numberLength?_append (h : Numeral x) (hr : Stops goesOn r)
    (hpoint : r.head? = some ('.' : CodePoint) → ∃ c ∈ x, c ∈ (".eExX" : Text)) :
    numberLength? (x ++ r) = some x.length := by
  have weaken {p : CodePoint → Bool} (hp : ∀ c, p c → goesOn c) : Stops p r := by
    intro c hc
    by_contra hne
    exact absurd (hp c (by simpa using hne)) (by simp [hr c hc])
  have hdigit : Stops CodePoint.isDecimalDigit r := weaken fun c hc => by simp [goesOn, hc]
  unfold numberLength?
  cases h with
  | @hex c ds hc hne hds =>
    have hhex : Stops CodePoint.isHexDigit r := weaken fun c hc => by simp [goesOn, hc]
    have hcount : countWhile CodePoint.isHexDigit (ds ++ r) = ds.length := countWhile_append hds hhex
    have hxx : (c = 'x' || c = 'X') := by simpa using hc
    have hlen : ds.length ≠ 0 := by simpa using hne
    have : hexLength? ((('0' : CodePoint) :: c :: ds) ++ r) = some (2 + ds.length) := by
      simp only [cons_append, hexLength?, hxx, hcount]
      cases hds' : ds.length with
      | zero => exact absurd hds' hlen
      | succ n => rfl
    rw [this]
    simp only [length_cons]
    rw [show 2 + ds.length = ds.length + 1 + 1 by omega]
    rfl
  | @decimal m e hm he =>
    have either {a b : CodePoint} (ha : goesOn a) (hb : goesOn b) :
        Stops (fun c => c = a || c = b) r := weaken fun c hc => by
      have hc : c = a ∨ c = b := by simpa using hc
      rcases hc with rfl | rfl <;> assumption
    have hee : Stops (fun c => c = 'e' || c = 'E') r := either (by decide) (by decide)
    have hxx : Stops (fun c => c = 'x' || c = 'X') r := either (by decide) (by decide)
    have hexp := he.exponentLength_append hdigit hee
    have hfront : Stops CodePoint.isDecimalDigit (e ++ r) ∧
        Stops (fun c => c = 'x' || c = 'X') (e ++ r) ∧
        ((e ++ r).head? = some ('.' : CodePoint) → ('.' : CodePoint) ∈ m) := by
      cases he with
      | absent =>
        refine ⟨hdigit, hxx, fun hhead => ?_⟩
        obtain ⟨c, hc, hmark⟩ := hpoint hhead
        rw [append_nil] at hc
        cases hm with
        | whole _ hd =>
          have hnot : (".eExX" : Text).all (fun c => ! c.isDecimalDigit) := by decide
          have := all_eq_true.mp hnot c hmark
          simp [hd c hc] at this
        | point _ _ _ => simp
      | @present c s ds hc _ _ _ =>
        rcases hc with rfl | rfl <;> exact ⟨stops_cons.mpr (by decide), stops_cons.mpr (by decide),
          fun h => absurd (Option.some.inj h) (by decide)⟩
    rw [append_assoc, hexLength?_eq_none hm hfront.2.1,
      hm.mantissaLength?_append hfront.1 hfront.2.2]
    simp [hexp]

/-! ## The value of a numeral -/

/-- Neither a blank nor an underscore, both of which the readers of numbers treat apart. -/
def plain (c : CodePoint) : Bool := ! c.isBlank && c ≠ '_'

theorem forall_digit {P : CodePoint → Bool}
    (table : CodePoint.zeros.all (fun z => (range 10).all fun k => P (CodePoint.ofNat (z + k))))
    (h : c.isDecimalDigit) : P c := by
  obtain ⟨v, hv⟩ := Option.isSome_iff_exists.mp h
  obtain ⟨z, hz, -⟩ := Option.map_eq_some_iff.mp hv
  have hbounds : z ≤ c.val ∧ c.val < z + 10 := by simpa using find?_some hz
  have hmem := all_eq_true.mp table z (mem_of_find?_eq_some hz)
  have := all_eq_true.mp hmem (c.val - z) (mem_range.mpr (by omega))
  have hc : CodePoint.ofNat (z + (c.val - z)) = c := by
    apply Fin.ext
    show (z + (c.val - z)) % 0x110000 = c.val
    rw [Nat.add_sub_cancel' hbounds.1, Nat.mod_eq_of_lt c.isLt]
  rwa [hc] at this

theorem Digits.plain (h : Digits a) : ∀ c ∈ a, plain c := fun c hc =>
  forall_digit (P := Token.plain) (by decide) (h c hc)

theorem plain_of_hexDigit (h : c.isHexDigit) : plain c := by
  have hval : c.val < 0x5F ∧ 0x30 ≤ c.val ∨ 0x61 ≤ c.val ∧ c.val ≤ 0x66 := by
    unfold CodePoint.isHexDigit CodePoint.hexValue? CodePoint.isAsciiDigit at h
    grind
  have hne : c ≠ '_' := by
    rintro rfl
    revert hval
    decide
  have hblank : c.isBlank = false := by
    unfold CodePoint.isBlank
    simp only [Bool.or_eq_false_iff, Bool.and_eq_false_iff, decide_eq_false_iff_not, beq_eq_false_iff_ne]
    omega
  simp [plain, hne, hblank]

theorem Exponent.plain (h : Exponent e) : ∀ c ∈ e, plain c := by
  cases h with
  | absent => simp
  | @present c s ds hc hs _ hds =>
    have hmark : Token.plain c := by rcases hc with rfl | rfl <;> decide
    have hsign : ∀ c ∈ s, Token.plain c := by
      rcases hs with rfl | rfl | rfl <;> exact all_eq_true.mp (by decide)
    exact forall_mem_cons.mpr ⟨hmark, forall_mem_append.mpr ⟨hsign, hds.plain⟩⟩

theorem Mantissa.plain (h : Mantissa m) : ∀ c ∈ m, plain c := by
  cases h with
  | whole _ hd => exact hd.plain
  | point _ ha hf =>
    exact forall_mem_append.mpr ⟨ha.plain, forall_mem_cons.mpr ⟨by decide, hf.plain⟩⟩

theorem Numeral.plain (h : Numeral x) : ∀ c ∈ x, plain c := by
  cases h with
  | @hex c ds hc _ hds =>
    have hmark : Token.plain c := by rcases hc with rfl | rfl <;> decide
    exact forall_mem_cons.mpr ⟨by decide,
      forall_mem_cons.mpr ⟨hmark, fun d hd => plain_of_hexDigit (hds d hd)⟩⟩
  | decimal hm he => exact forall_mem_append.mpr ⟨hm.plain, he.plain⟩

theorem trim_of_plain (h : ∀ c ∈ x, plain c) : Number.trim x = x := by
  have keep {y : Text} (hy : ∀ c ∈ y, plain c) : y.dropWhile CodePoint.isBlank = y := by
    cases y with
    | nil => rfl
    | cons c y =>
      have hc := hy c mem_cons_self
      rw [plain, Bool.and_eq_true, Bool.not_eq_true'] at hc
      rw [dropWhile_cons_of_neg (by simp [hc.1])]
  unfold Number.trim
  rw [keep h, keep fun c hc => h c (mem_reverse.mp hc), reverse_reverse]

theorem dropUnderscores_of_plain (h : ∀ c ∈ x, plain c) (digit : CodePoint → Bool) (b : Bool) :
    Number.dropUnderscores digit b x = some x := by
  induction x generalizing b with
  | nil => rfl
  | cons c x ih =>
    have hc := h c mem_cons_self
    rw [plain, Bool.and_eq_true, decide_eq_true_eq] at hc
    rw [Number.dropUnderscores, if_neg hc.2, ih fun d hd => h d (.tail _ hd)]
    rfl

theorem takeSign_of_head (h : c ≠ '+' ∧ c ≠ '-') : Number.takeSign (c :: r) = (false, c :: r) := by
  rw [Number.takeSign, if_neg h.2, if_neg h.1]

theorem takeDigits_append (ha : Digits a) (hr : Stops CodePoint.isDecimalDigit r) :
    ∃ ds : List Nat, Number.takeDigits (a ++ r) = (ds, r) ∧ (ds = [] ↔ a = []) := by
  induction a with
  | nil =>
    refine ⟨[], ?_, by simp⟩
    cases r with
    | nil => rfl
    | cons c r =>
      have hc : c.digitValue? = none := by
        simpa [CodePoint.isDecimalDigit] using stops_cons.mp hr
      simp [Number.takeDigits, hc]
  | cons d a ih =>
    obtain ⟨ds, hds, -⟩ := ih fun c hc => ha c (.tail _ hc)
    obtain ⟨v, hv⟩ := Option.isSome_iff_exists.mp (ha d mem_cons_self)
    exact ⟨v :: ds, by simp [Number.takeDigits, hv, hds], by simp⟩

/-- All of the text is digits. -/
theorem takeDigits_eq (ha : Digits a) (hne : a ≠ []) : ∃ d ds, Number.takeDigits a = (d :: ds, []) := by
  obtain ⟨ds, hds, hiff⟩ := takeDigits_append ha (stops_nil CodePoint.isDecimalDigit)
  obtain ⟨d, ds, rfl⟩ := exists_cons_of_ne_nil (mt hiff.mp hne)
  exact ⟨d, ds, by rwa [append_nil] at hds⟩

theorem Exponent.readExponent? (h : Exponent e) : ∃ n, Number.readExponent? e = some n := by
  cases h with
  | absent => exact ⟨0, rfl⟩
  | @present c s ds hc hs hne hds =>
    have hif : (c = 'e' || c = 'E') := by simpa using hc
    obtain ⟨v, vs, hvs⟩ := takeDigits_eq hds hne
    have hsign : ∃ b, Number.takeSign (s ++ ds) = (b, ds) := by
      rcases hs with rfl | rfl | rfl
      · obtain ⟨d, ds', rfl⟩ := exists_cons_of_ne_nil hne
        have hd := hds d mem_cons_self
        exact ⟨false, takeSign_of_head ⟨ne_of_digit hd (by decide), ne_of_digit hd (by decide)⟩⟩
      · exact ⟨false, rfl⟩
      · exact ⟨true, rfl⟩
    obtain ⟨b, hb⟩ := hsign
    simp [Number.readExponent?, hif, hb, hvs]

theorem readUnsigned?_decimal (hm : Mantissa m) (he : Exponent e) (b : Bool) :
    ∃ d, Number.readUnsigned? b (m ++ e) = some d := by
  obtain ⟨n, hn⟩ := he.readExponent?
  have hstop : Stops CodePoint.isDecimalDigit e := he.stops (by decide)
  cases hm with
  | whole hne hd =>
    obtain ⟨ds, hds, hiff⟩ := takeDigits_append hd hstop
    have hds0 : ds.isEmpty = false := by simp [hiff, hne]
    unfold Number.readUnsigned?
    simp only [hds]
    cases he with
    | absent => simp [hds0, hn]
    | @present c s es hc hs _ _ =>
      have hc' : c ≠ '.' := by rcases hc with rfl | rfl <;> decide
      simp [hds0, hn, hc']
  | @point a f hne ha hf =>
    have hpt : Stops CodePoint.isDecimalDigit (('.' : CodePoint) :: (f ++ e)) :=
      stops_cons.mpr (by decide)
    obtain ⟨ds, hds, hiff⟩ := takeDigits_append ha hpt
    obtain ⟨fs, hfs, hfiff⟩ := takeDigits_append hf hstop
    have hsome : (ds.isEmpty && fs.isEmpty) = false := by
      rcases hne with hne | hne <;> simp [hiff, hfiff, hne]
    unfold Number.readUnsigned?
    rw [append_assoc, cons_append]
    simp only [hds, if_true, hfs, hsome]
    simp [hn]

theorem Numeral.head (h : Numeral x) : ∃ c r, x = c :: r ∧ (c.isDecimalDigit ∨
      c = '.' ∧ ∃ d r', r = d :: r' ∧ d.isDecimalDigit) := by
  cases h with
  | hex _ _ _ => exact ⟨_, _, rfl, .inl (by decide)⟩
  | @decimal m e hm _ =>
    cases hm with
    | whole hne hd =>
      obtain ⟨d, a, rfl⟩ := exists_cons_of_ne_nil hne
      exact ⟨d, a ++ e, rfl, .inl (hd d mem_cons_self)⟩
    | @point a f hne ha hf =>
      cases a with
      | nil =>
        obtain ⟨d, f', rfl⟩ := exists_cons_of_ne_nil (hne.resolve_left (not_not.mpr rfl))
        exact ⟨_, _, rfl, .inr ⟨rfl, d, f' ++ e, rfl, hf d mem_cons_self⟩⟩
      | cons d a => exact ⟨d, _, rfl, .inl (ha d mem_cons_self)⟩

theorem Numeral.takeSign (h : Numeral x) : Number.takeSign x = (false, x) := by
  obtain ⟨c, r, rfl, hc⟩ := h.head
  rcases hc with hc | ⟨rfl, -⟩
  · exact takeSign_of_head ⟨ne_of_digit hc (by decide), ne_of_digit hc (by decide)⟩
  · rfl

theorem readBinary64?_decimal (hm : Mantissa m) (he : Exponent e) : ∃ v, Number.readBinary64? (m ++ e) = some v := by
  have hnum := Numeral.decimal hm he
  obtain ⟨d, hd⟩ := readUnsigned?_decimal hm he false
  unfold Number.readBinary64?
  simp only [trim_of_plain hnum.plain, hnum.takeSign, dropUnderscores_of_plain hnum.plain]
  by_cases hinf : ((m ++ e).map CodePoint.lower = "inf" ||
      (m ++ e).map CodePoint.lower = "infinity")
  · rw [if_pos hinf]
    exact ⟨_, rfl⟩
  · rw [if_neg hinf]
    by_cases hnan : (m ++ e).map CodePoint.lower = "nan"
    · rw [if_pos hnan]
      exact ⟨_, rfl⟩
    · rw [if_neg hnan]
      simp [hd]

theorem readInt?_digits (hne : a ≠ []) (ha : Digits a) : ∃ v, Number.readInt? a = some v := by
  have hnum : Numeral a := by simpa using Numeral.decimal (.whole hne ha) .absent
  obtain ⟨d, ds, hds⟩ := takeDigits_eq ha hne
  unfold Number.readInt?
  simp only [trim_of_plain hnum.plain, hnum.takeSign, dropUnderscores_of_plain hnum.plain]
  simp [hds]

theorem mapM_hexDigit? (h : ∀ d ∈ ds, d.isHexDigit) :
    ∃ vs, ds.mapM Number.hexDigit? = some vs ∧ (vs = [] ↔ ds = []) := by
  induction ds with
  | nil => exact ⟨[], rfl, by simp⟩
  | cons d ds ih =>
    obtain ⟨vs, hvs, -⟩ := ih fun c hc => h c (.tail _ hc)
    obtain ⟨v, hv⟩ := Option.isSome_iff_exists.mp (h d mem_cons_self)
    have hd : Number.hexDigit? d = some v := by simp [Number.hexDigit?, hv]
    exact ⟨v :: vs, by simp [hd, hvs], by simp⟩

theorem readHex?_hex (h : Numeral (('0' : CodePoint) :: c :: ds)) (hne : ds ≠ [])
    (hds : ∀ d ∈ ds, d.isHexDigit) : ∃ v, Number.readHex? (('0' : CodePoint) :: c :: ds) = some v := by
  have hplain : ∀ d ∈ ds, plain d := fun d hd => plain_of_hexDigit (hds d hd)
  obtain ⟨vs, hvs, hiff⟩ := mapM_hexDigit? hds
  unfold Number.readHex?
  simp only [trim_of_plain h.plain, drop_succ_cons, drop_zero,
    dropUnderscores_of_plain hplain]
  simp [hvs, hiff, hne]

/-- The value that a numeral can have. -/
def IsNumber (v : Scalar) : Prop := (∃ i, v = .int i) ∨ ∃ x, v = .float x

theorem readDecimal (hm : Mantissa m) (he : Exponent e) :
    ∃ v, (if (m ++ e).any fun c => c = '.' || c = 'e' || c = 'E' then
        (Number.readBinary64? (m ++ e)).map Scalar.float
      else (Number.readInt? (m ++ e)).map Scalar.int) = some v ∧ IsNumber v := by
  by_cases hmark : ((m ++ e).any fun c => c = '.' || c = 'e' || c = 'E')
  · obtain ⟨v, hv⟩ := readBinary64?_decimal hm he
    exact ⟨.float v, by rw [if_pos hmark, hv]; rfl, .inr ⟨v, rfl⟩⟩
  · have hall : ∀ c ∈ m ++ e, c ≠ '.' ∧ c ≠ 'e' ∧ c ≠ 'E' := by
      simp only [Bool.not_eq_true, any_eq_false, Bool.or_eq_true, decide_eq_true_eq,
        not_or, and_assoc] at hmark
      exact hmark
    have hdigits : m ≠ [] ∧ Digits m ∧ e = [] := by
      refine ⟨hm.ne_nil, ?_, ?_⟩
      · cases hm with
        | whole _ hd => exact hd
        | point _ _ _ => exact absurd rfl (hall '.' (by simp)).1
      · cases he with
        | absent => rfl
        | present hc _ _ _ =>
          have := (hall _ (mem_append_right _ mem_cons_self)).2
          exact absurd hc (not_or.mpr this)
    obtain ⟨hne, hd, rfl⟩ := hdigits
    rw [append_nil] at hmark ⊢
    obtain ⟨v, hv⟩ := readInt?_digits hne hd
    exact ⟨.int v, by rw [if_neg hmark, hv]; rfl, .inl ⟨v, rfl⟩⟩

theorem Numeral.readNumber (h : Numeral x) : ∃ v, Literal.readNumber x = .ok v ∧ IsNumber v := by
  have found : ∃ v, (if x.take 2 = "0x" || x.take 2 = "0X" then
      (Number.readHex? x).map fun n => Scalar.int n
    else if x.any fun c => c = '.' || c = 'e' || c = 'E' then
      (Number.readBinary64? x).map .float
    else (Number.readInt? x).map .int) = some v ∧ IsNumber v := by
    cases h with
    | @hex c ds hc hne hds =>
      have htake : ((('0' : CodePoint) :: c :: ds).take 2 = "0x" ||
          (('0' : CodePoint) :: c :: ds).take 2 = "0X") := by
        rcases hc with rfl | rfl <;> rfl
      obtain ⟨n, hn⟩ := readHex?_hex (.hex hc hne hds) hne hds
      exact ⟨.int n, by rw [if_pos htake, hn]; rfl, .inl ⟨n, rfl⟩⟩
    | @decimal m e hm he =>
      have htake : ¬ (((m ++ e).take 2 = "0x" || (m ++ e).take 2 = "0X")) := by
        intro h
        simp only [Bool.or_eq_true, decide_eq_true_eq] at h
        have hstop := he.stops (p := fun c => c = 'x' || c = 'X') (by decide)
        have hsplit := (take_append_drop 2 (m ++ e)).symm
        rcases h with h | h <;> rw [h] at hsplit
        · exact hm.second_ne hstop hsplit (.inl rfl)
        · exact hm.second_ne hstop hsplit (.inr rfl)
      rw [if_neg htake]
      exact readDecimal hm he
  obtain ⟨v, hv, hnum⟩ := found
  refine ⟨v, ?_, hnum⟩
  unfold Literal.readNumber
  simp only [hv]

end ArrowFree.Token
