import ArrowFree.Proofs.FoldedLines
import ArrowFree.Proofs.Formed
import ArrowFree.Proofs.Names

/-!
# Compact forms are unique

Trees of known kinds that have the same compact form are the same up to identities and locations
(`bare_eq_of_compact`).

1. The first character says whether a word, a number, a text or a list is written. A word or a number goes up to the
   space or the parenthesis behind it, a text up to its closing quote, so that an S-expression in front of what may
   follow is written in a way of its own (`Readable.unique`).
2. A list begins with a node, with `nil` or not at all, a node begins with its type. The S-expressions of different
   trees are therefore different (`bare_of_ofTree`).
-/

namespace ArrowFree

open List

namespace Sexpr

open Text

/-! ## Words, numbers and texts -/

/-- What can follow a written S-expression. -/
def Ends (r : Text) : Prop := ∀ c ∈ r.head?, c = ' ' ∨ c = ')'

/-- Whether nothing in the text is taken for its end. -/
def isSolid (s : Text) : Bool := s.all fun c => c ≠ ' ' && c ≠ ')'

variable {s t r r' : Text}

theorem solid_inj (hs : isSolid s) (ht : isSolid t) (hr : Ends r) (hr' : Ends r') (h : s ++ r = t ++ r') :
    s = t ∧ r = r' := by
  -- what is left of the longer one begins with an end, which it does not have
  have hnil {x y r : Text} (hy : isSolid (x ++ y)) (hr : Ends (y ++ r)) : y = [] := by
    cases y with
    | nil => rfl
    | cons c y =>
      have hc := all_eq_true.mp hy c (by simp)
      rcases hr c rfl with rfl | rfl <;> cases hc
  rcases append_eq_append_iff.mp h with ⟨x, rfl, hx⟩ | ⟨x, rfl, hx⟩
  · obtain rfl := hnil ht (hx ▸ hr)
    simpa using hx
  · obtain rfl := hnil hs (hx ▸ hr')
    simpa using hx.symm

theorem isSolid_ofInt (i : Int) : isSolid (ofInt i) := by
  have hnat (n : Nat) : ∀ c ∈ ofNat n, (c ≠ ' ' && c ≠ ')') = true := by
    intro c hc
    have hdigit := isAsciiDigit_ofNat n c hc
    simp only [Bool.and_eq_true, decide_eq_true_eq]
    constructor <;> rintro rfl <;> cases hdigit
  cases i with
  | ofNat n => exact all_eq_true.mpr (hnat n)
  | negSucc n => exact all_eq_true.mpr (forall_mem_cons.mpr ⟨by decide, hnat (n + 1)⟩)

theorem ofNat_eq_cons (n : Nat) : ∃ c x, ofNat n = c :: x ∧ c.isAsciiDigit := by
  obtain ⟨c, x, h⟩ := exists_cons_of_ne_nil (fun h => Nat.toDigits_ne_nil (map_eq_nil_iff.mp h) : ofNat n ≠ [])
  exact ⟨c, x, h, isAsciiDigit_ofNat n c (h ▸ mem_cons_self)⟩

theorem ofInt_injective : Function.Injective ofInt := by
  have hsign (m n : Nat) : ofNat m ≠ "-" ++ ofNat n := by
    obtain ⟨c, x, h, hc⟩ := ofNat_eq_cons m
    rw [h]
    rintro h
    obtain ⟨rfl, -⟩ := List.cons.inj h
    cases hc
  rintro (m | m) (n | n) h
  · exact congrArg Int.ofNat (ofNat_injective h)
  · exact absurd h (hsign m (n + 1))
  · exact absurd h.symm (hsign n (m + 1))
  · exact congrArg Int.negSucc (Nat.succ.inj (ofNat_injective (append_cancel_left h)))

theorem standsFor_plainEscape (c : CodePoint) : Literal.StandsFor (plainEscape c) [c] := by
  unfold plainEscape
  split
  · next hquoted =>
    obtain rfl | rfl : c = '"' ∨ c = '\\' := by simpa using hquoted
    all_goals exact .short (by decide)
  · next hquoted =>
    split
    · next d hd =>
      obtain ⟨hletter, hshort, -⟩ := Literal.controlLetter?_spec hd
      exact hshort ▸ .short hletter
    · next hcontrol =>
      refine .plain ⟨?_, ?_, ?_⟩
      all_goals
        rintro rfl
        revert hquoted hcontrol
        decide

theorem plainQuoted_inj (h : s.plainQuoted ++ r = t.plainQuoted ++ r') : s = t ∧ r = r' := by
  have hbody (s : Text) : Literal.StandsFor (s.flatMap plainEscape) s := by
    simpa using Literal.StandsFor.flatMap standsFor_plainEscape s
  have hend (s r : Text) : Token.stringRest? '"' (s.flatMap plainEscape ++ (('"' : CodePoint) :: r)) =
      some ((s.flatMap plainEscape).length + 1) := by
    rw [(hbody s).goesOn, Token.stringRest?_cons, if_pos rfl]
    rfl
  have htail : s.flatMap plainEscape ++ (('"' : CodePoint) :: r) =
      t.flatMap plainEscape ++ (('"' : CodePoint) :: r') := by
    simpa [plainQuoted, ofString] using h
  have hlength := (hend s r).symm.trans ((congrArg _ htail).trans (hend t r'))
  obtain ⟨hsame, hrest⟩ := append_inj htail (Nat.succ.inj (Option.some.inj hlength))
  refine ⟨?_, (List.cons.inj hrest).2⟩
  have hread (s : Text) : Literal.unescape (s.flatMap plainEscape) = s := by
    simpa [Literal.unescape] using (hbody s).read []
  rw [← hread s, hsame, hread]

/-! ## S-expressions -/

/-- Whether a text is a name that can be told from a number. -/
def isWord : Text → Bool
  | [] => false
  | c :: s => (c.isAsciiLetter || c = ':') && isPlainName (c :: s)

/-- S-expressions of words, integers and texts. -/
inductive Readable : Sexpr → Prop where
  | word {s : Text} : isWord s → Readable (word s)
  | int (i : Int) : Readable (.atom (.int i))
  | text (t : Text) : Readable (.atom (.text t))
  | list {es : List Sexpr} : (∀ e ∈ es, Readable e) → Readable (.list es)

/-- What the first character tells. -/
inductive Start where
  | word
  | number
  | text
  | list

def start : Sexpr → Start
  | .symbol _ => .word
  | .atom (.text _) => .text
  | .atom _ => .number
  | .list _ => .list

def startAt (c : CodePoint) : Start :=
  if c = '"' then .text else if c = '(' then .list else if c.isAsciiLetter || c = ':' then .word else .number

variable {e f : Sexpr}

theorem compact_of_isWord (h : isWord s) : compact (word s) = s := by
  cases s with
  | nil => cases h
  | cons c s => exact compact_word (Bool.and_eq_true_iff.mp h).2

theorem isSolid_of_isWord (h : isWord s) : isSolid s := by
  cases s with
  | nil => cases h
  | cons c s =>
    refine all_eq_true.mpr fun d hd => ?_
    have hplain := (Bool.and_eq_true_iff.mp (all_eq_true.mp (Bool.and_eq_true_iff.mp h).2 d hd)).2
    simp only [Bool.and_eq_true, decide_eq_true_eq]
    constructor <;> rintro rfl <;> cases hplain

theorem Readable.begins (h : Readable e) : ∃ c x, compact e = c :: x ∧ startAt c = e.start ∧ c ≠ ')' := by
  have hdigit {c : CodePoint} (hc : c.isAsciiDigit) : startAt c = .number ∧ c ≠ ')' := by
    have hne {d : CodePoint} (hd : d.isAsciiDigit = false) : c ≠ d := fun h => by rw [h, hd] at hc; cases hc
    have hletter : ¬ (c.isAsciiLetter || c = ':') = true := by
      simp only [CodePoint.isAsciiDigit, Bool.and_eq_true, decide_eq_true_eq] at hc
      simp [CodePoint.isAsciiLetter, CodePoint.isAsciiUpper, CodePoint.isAsciiLower, hne (d := ':') rfl]
      omega
    rw [startAt, if_neg (hne rfl), if_neg (hne rfl), if_neg hletter]
    exact ⟨rfl, hne rfl⟩
  cases h with
  | @word s hs =>
    rw [compact_of_isWord hs]
    cases s with
    | nil => cases hs
    | cons c s =>
      have hletter := (Bool.and_eq_true_iff.mp hs).1
      refine ⟨c, s, rfl, ?_, by rintro rfl; cases hletter⟩
      rw [startAt, if_neg (by rintro rfl; cases hletter), if_neg (by rintro rfl; cases hletter), if_pos hletter]
      rfl
  | int i =>
    cases i with
    | ofNat n =>
      obtain ⟨c, x, h, hc⟩ := ofNat_eq_cons n
      exact ⟨c, x, h, hdigit hc⟩
    | negSucc n => exact ⟨_, _, rfl, rfl, by decide⟩
  | text t => exact ⟨_, _, rfl, rfl, by decide⟩
  | list hes => exact ⟨_, _, rfl, rfl, by decide⟩

theorem Readable.start_eq (he : Readable e) (hf : Readable f) (h : compact e ++ r = compact f ++ r') :
    e.start = f.start := by
  obtain ⟨c, x, hc, hstart, -⟩ := he.begins
  obtain ⟨d, y, hd, hstart', -⟩ := hf.begins
  rw [hc, hd] at h
  rw [← hstart, ← hstart', (List.cons.inj h).1]

/-- The items of a list behind its first. -/
def spaced (es : List Sexpr) : Text := es.flatMap fun e => (' ' : CodePoint) :: compact e

theorem compact_cons (e : Sexpr) (es : List Sexpr) : compact (.list (e :: es)) ++ r =
    ('(' : CodePoint) :: (compact e ++ (spaced es ++ (')' : CodePoint) :: r)) := by
  rw [compact, compactItems_eq_map, map_cons, join_cons, flatMap_map]
  simp [spaced, ofString]

theorem ends_spaced (es : List Sexpr) (r : Text) : Ends (spaced es ++ (')' : CodePoint) :: r) := by
  cases es with
  | nil => exact fun c hc => .inr (Option.some.inj hc).symm
  | cons => exact fun c hc => .inl (Option.some.inj hc).symm

/-- In front of what may follow, `e` is written in a way of its own. -/
def Unique (e : Sexpr) : Prop :=
  ∀ f r r', Readable f → Ends r → Ends r' → compact e ++ r = compact f ++ r' → e = f ∧ r = r'

theorem spaced_inj {es fs : List Sexpr} (hes : ∀ e ∈ es, Unique e) (hfs : ∀ f ∈ fs, Readable f)
    (h : spaced es ++ (')' : CodePoint) :: r = spaced fs ++ (')' : CodePoint) :: r') : es = fs ∧ r = r' := by
  induction es generalizing fs with
  | nil =>
    cases fs with
    | nil => exact ⟨rfl, (List.cons.inj h).2⟩
    | cons f fs => cases (List.cons.inj h).1
  | cons e es ih =>
    cases fs with
    | nil => cases (List.cons.inj h).1
    | cons f fs =>
      obtain ⟨he, hes⟩ := forall_mem_cons.mp hes
      obtain ⟨hf, hrest⟩ := forall_mem_cons.mp hfs
      have hitem : compact e ++ (spaced es ++ (')' : CodePoint) :: r) =
          compact f ++ (spaced fs ++ (')' : CodePoint) :: r') := by
        simpa [spaced] using h
      obtain ⟨rfl, htail⟩ := he f _ _ hf (ends_spaced es r) (ends_spaced fs r') hitem
      obtain ⟨rfl, rfl⟩ := ih hes hrest htail
      exact ⟨rfl, rfl⟩

theorem Readable.unique (he : Readable e) : Unique e := by
  induction he with
  | @word s hs =>
    intro f r r' hf hr hr' h
    have hstart := (Readable.word hs).start_eq hf h
    cases hf with
    | @word s' hs' =>
      rw [compact_of_isWord hs, compact_of_isWord hs'] at h
      obtain ⟨rfl, rfl⟩ := solid_inj (isSolid_of_isWord hs) (isSolid_of_isWord hs') hr hr' h
      exact ⟨rfl, rfl⟩
    | int | text | list => cases hstart
  | int i =>
    intro f r r' hf hr hr' h
    have hstart := (Readable.int i).start_eq hf h
    cases hf with
    | int j =>
      obtain ⟨hij, rfl⟩ := solid_inj (isSolid_ofInt i) (isSolid_ofInt j) hr hr' h
      obtain rfl := ofInt_injective hij
      exact ⟨rfl, rfl⟩
    | word | text | list => cases hstart
  | text t =>
    intro f r r' hf hr hr' h
    have hstart := (Readable.text t).start_eq hf h
    cases hf with
    | text u =>
      obtain ⟨rfl, rfl⟩ := plainQuoted_inj h
      exact ⟨rfl, rfl⟩
    | word | int | list => cases hstart
  | @list es hes ih =>
    intro f r r' hf hr hr' h
    have hstart := (Readable.list hes).start_eq hf h
    cases hf with
    | @list fs hfs =>
      cases es with
      | nil =>
        cases fs with
        | nil => exact ⟨rfl, append_cancel_left h⟩
        | cons f fs =>
          obtain ⟨c, x, hc, -, hne⟩ := (hfs f (.head _)).begins
          rw [compact_cons, hc] at h
          cases hne (List.cons.inj (List.cons.inj h).2).1.symm
      | cons e es =>
        cases fs with
        | nil =>
          obtain ⟨c, x, hc, -, hne⟩ := (hes e (.head _)).begins
          rw [compact_cons, hc] at h
          cases hne (List.cons.inj (List.cons.inj h).2).1
        | cons f fs =>
          rw [compact_cons, compact_cons] at h
          have hspaced := congrArg ((' ' : CodePoint) :: ·) (List.cons.inj h).2
          obtain ⟨hsame, rfl⟩ := spaced_inj ih hfs (by simpa [spaced] using hspaced)
          exact ⟨congrArg _ hsame, rfl⟩
    | word | int | text => cases hstart

theorem Readable.isNamed (h : Readable e) : e.isNamed = true := by
  induction h with
  | word | int | text => rfl
  | list _ ih => exact (areNamed_eq_all _).trans (all_eq_true.mpr ih)

end Sexpr

/-! ## Trees -/

namespace Tree

open Sexpr

mutual

/-- Whether a value is one for a child field, or else one for an attribute, of a node of known kind, at any depth. -/
def belongs (child : Bool) : Tree → Bool
  | .scalar .null => true
  | .scalar (.float _) => false
  | .scalar _ => ! child
  | .list items => child && belongAsItems items
  | .node _ (.known k) slots => child && belongIn k.layout slots
  | _ => false

/-- A list in a child field has nodes and nulls. -/
def belongAsItems : List Tree → Bool
  | [] => true
  | t :: ts => (t.isNode || t.isNull) && belongs true t && belongAsItems ts

def belongIn : List Field → List Tree → Bool
  | [], [] => true
  | f :: fs, t :: ts => belongs f.child t && belongIn fs ts
  | _, _ => false

end

theorem isWord_names (k : Kind) :
    isWord k.typeName ∧ k.typeName ≠ "nil" ∧ k.layout.all fun f => isPlainName f.name := by
  have table : ∀ k ∈ Kind.all,
      isWord k.typeName ∧ k.typeName ≠ "nil" ∧ k.layout.all fun f => isPlainName f.name := by
    decide +kernel
  exact table k k.mem_all

mutual

theorem readable_ofTree (located : Bool) : (t : Tree) → {child : Bool} → t.belongs child → Readable (ofTree located t)
  | .scalar .null, _, _ => .word (by decide)
  | .scalar (.bool b), _, _ => by cases b <;> exact .word (by decide)
  | .scalar (.int _), _, _ => .int _
  | .scalar (.text _), _, _ => .text _
  | .list items, _, h => .list (readable_ofItems located items (Bool.and_eq_true_iff.mp h).2)
  | .node i (.known k) slots, _, h => by
    obtain ⟨hname, -, hfields⟩ := isWord_names k
    refine .list (forall_mem_cons.mpr ⟨.word hname, forall_mem_append.mpr ⟨?_, ?_⟩⟩)
    · exact readable_ofSlots located hfields slots (Bool.and_eq_true_iff.mp h).2
    · unfold ofLocation
      split
      · exact forall_mem_cons.mpr ⟨.word (by decide), forall_mem_singleton.mpr (.text _)⟩
      · exact nofun

theorem readable_ofItems (located : Bool) : (ts : List Tree) → belongAsItems ts → ∀ e ∈ ofItems located ts, Readable e
  | [], _ => nofun
  | t :: ts, h => by
    obtain ⟨ht, hts⟩ := Bool.and_eq_true_iff.mp h
    exact forall_mem_cons.mpr ⟨readable_ofTree located t (Bool.and_eq_true_iff.mp ht).2,
      readable_ofItems located ts hts⟩

theorem readable_ofSlots (located : Bool) : {fs : List Field} → (fs.all fun f => isPlainName f.name) →
    (ts : List Tree) → belongIn fs ts → ∀ e ∈ ofSlots located fs ts, Readable e
  | [], _, [], _ => nofun
  | f :: fs, hfs, t :: ts, h => by
    obtain ⟨hf, hfs⟩ := Bool.and_eq_true_iff.mp hfs
    obtain ⟨ht, hts⟩ := Bool.and_eq_true_iff.mp h
    exact forall_mem_cons.mpr ⟨.word hf, forall_mem_cons.mpr ⟨readable_ofTree located t ht,
      readable_ofSlots located hfs ts hts⟩⟩

end

/-- What a list of nodes and nulls is written as does not begin with a type name. -/
theorem ofItems_ne_cons (located : Bool) {ts : List Tree} (h : belongAsItems ts) (k : Kind) (es : List Sexpr) :
    ofItems located ts ≠ .symbol (.text k.typeName) :: es := by
  intro heq
  cases ts with
  | nil => cases heq
  | cons t ts =>
    have ht := (List.cons.inj heq).1
    cases t with
    | node | list | object => cases ht
    | scalar x =>
      cases x with
      | null =>
        injection ht with hname
        injection hname with hname
        exact (isWord_names k).2.1 hname.symm
      | bool | int | float | text => cases h

theorem ofScalar_injective : Function.Injective ofScalar := by
  intro x y h
  rcases x with _ | (_ | _) | _ | _ | _ <;> rcases y with _ | (_ | _) | _ | _ | _ <;> cases h <;> rfl

theorem ofScalar_ne_list (x : Scalar) (es : List Sexpr) : ofScalar x ≠ .list es := by
  rcases x with _ | (_ | _) | _ | _ | _ <;> exact nofun

mutual

theorem bare_of_ofTree (located : Bool) : (t : Tree) → {u : Tree} → {c d : Bool} → t.belongs c → u.belongs d →
    ofTree located t = ofTree located u → t.bare = u.bare
  | .scalar x, u, _, _, _, _, h => by
    cases u with
    | scalar y => exact congrArg scalar (ofScalar_injective h)
    | list | node => cases ofScalar_ne_list x _ h
    | object => contradiction
  | .list ts, u, _, _, ht, hu, h => by
    have hts := (Bool.and_eq_true_iff.mp ht).2
    cases u with
    | scalar x => cases ofScalar_ne_list x _ h.symm
    | list us =>
      have hsame := bare_of_ofItems located ts hts (Bool.and_eq_true_iff.mp hu).2 (Sexpr.list.inj h)
      rw [bare_list, bare_list, hsame]
    | node j s us =>
      cases s with
      | known l => cases ofItems_ne_cons located hts _ _ (Sexpr.list.inj h)
      | other => contradiction
    | object => contradiction
  | .node i (.known k) ts, u, _, _, ht, hu, h => by
    have hts := (Bool.and_eq_true_iff.mp ht).2
    cases u with
    | scalar x => cases ofScalar_ne_list x _ h.symm
    | list us => cases ofItems_ne_cons located (Bool.and_eq_true_iff.mp hu).2 _ _ (Sexpr.list.inj h).symm
    | node j s us =>
      cases s with
      | known l =>
        obtain ⟨htype, hslots⟩ := List.cons.inj (Sexpr.list.inj h)
        injection htype with htype
        injection htype with htype
        obtain rfl := Kind.typeName_injective _ _ htype
        have hsame := bare_of_ofSlots located ts hts (Bool.and_eq_true_iff.mp hu).2 hslots
        rw [bare_node, bare_node, hsame]
      | other => contradiction
    | object => contradiction

theorem bare_of_ofItems (located : Bool) : (ts : List Tree) → {us : List Tree} → belongAsItems ts →
    belongAsItems us → ofItems located ts = ofItems located us → ts.map bare = us.map bare
  | [], [], _, _, _ => rfl
  | t :: ts, u :: us, ht, hu, h => by
    obtain ⟨hhead, htail⟩ := List.cons.inj h
    obtain ⟨ht, hts⟩ := Bool.and_eq_true_iff.mp ht
    obtain ⟨hu, hus⟩ := Bool.and_eq_true_iff.mp hu
    rw [map_cons, map_cons, bare_of_ofTree located t (Bool.and_eq_true_iff.mp ht).2 (Bool.and_eq_true_iff.mp hu).2
      hhead, bare_of_ofItems located ts hts hus htail]

theorem bare_of_ofSlots (located : Bool) : {fs : List Field} → {l l' : List Sexpr} → (ts : List Tree) →
    {us : List Tree} → belongIn fs ts → belongIn fs us → ofSlots located fs ts ++ l = ofSlots located fs us ++ l' →
    ts.map bare = us.map bare
  | [], _, _, [], [], _, _, _ => rfl
  | f :: fs, _, _, t :: ts, u :: us, ht, hu, h => by
    obtain ⟨hhead, htail⟩ := List.cons.inj (List.cons.inj h).2
    obtain ⟨ht, hts⟩ := Bool.and_eq_true_iff.mp ht
    obtain ⟨hu, hus⟩ := Bool.and_eq_true_iff.mp hu
    rw [map_cons, map_cons, bare_of_ofTree located t ht hu hhead, bare_of_ofSlots located ts hts hus htail]

end

/-- **Compact forms are unique.** Trees of known kinds, with texts, integers, booleans and nulls as attributes and
with nodes, nulls and lists of those in their child fields, have compact forms. If these are the same, then so are
the trees, up to identities and locations. -/
theorem bare_eq_of_compact {t u : Tree} (ht : t.belongs true) (hu : u.belongs true) (located : Bool) :
    ∃ x y, t.sexpr located false = .ok x ∧ u.sexpr located false = .ok y ∧ (x = y → t.bare = u.bare) := by
  have hreadt := readable_ofTree located t ht
  have hreadu := readable_ofTree located u hu
  refine ⟨_, _, if_pos hreadt.isNamed, if_pos hreadu.isNamed, fun h => bare_of_ofTree located t ht hu ?_⟩
  exact (hreadt.unique _ [] [] hreadu nofun nofun (congrArg (· ++ []) h)).1

/-- An array with a hole, with an empty array and with literals of texts, an integer and a truth value. -/
def mixedArray (l : Option Location) : Tree :=
  .mk .arrayExpression l [.list [.null, .mk .arrayExpression l [.list []],
    .mk .literal none [.text "\") nil", .null], .mk .literal l [.scalar (.int (-7)), .text "nil"],
    .mk .literal none [.scalar (.bool true), .text []]]]

theorem bare_eq_of_compact_mixedArray :
    let placed := mixedArray (some { file := "a.js", line := 1, column := 1 })
    (mixedArray none).belongs true ∧ placed.belongs true ∧ (mixedArray none).bare = placed.bare := by
  intro placed
  have ht : (mixedArray none).belongs true := by decide
  have hu : placed.belongs true := by decide
  obtain ⟨x, y, hx, hy, hsame⟩ := bare_eq_of_compact ht hu false
  have hxy : (mixedArray none).sexpr false false = placed.sexpr false false := rfl
  exact ⟨ht, hu, hsame (Except.ok.inj (hx.symm.trans (hxy.trans hy)))⟩

end Tree

end ArrowFree
