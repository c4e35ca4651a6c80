import ArrowFree.Proofs.Words

/-!
# Printed code is read back word by word

The printer succeeds on a well-formed tree, and the lexer cuts its code into the words of the tree
(`Formed.prints`), whatever stands behind it that an expression of that kind can be followed by. No two
words run into each other: a blank, a bracket or a separator stands between them, or else the printer
has made sure that the first code point of the second does not go on with the first.
-/

namespace ArrowFree.Printer

open Token List

variable {c : CodePoint} {i : Info} {x raw r indent a : Text} {parens : Except Fault Bool}
  {v : Scalar} {f g : CodePoint → Bool} {lvl : Nat} {k : Kind} {slots ts : List Tree} {t : Tree}
  {p : Pieces} {ws : List Word}

/-- The texts of some pieces. -/
def codeOf (ps : List Piece) : Text := ps.flatMap textOf

/-- The text begins with such a code point, or is empty. -/
def Follows (f : CodePoint → Bool) (r : Text) : Prop := ∀ c ∈ r.head?, f c = true

/-- Printing gives the code `a`, which consists of the words `ws` in front of what begins so. -/
def Writes (p : Pieces) (a : Text) (ws : List Word) (f : CodePoint → Bool) : Prop :=
  ∃ ps, p = .ok ps ∧ codeOf ps = a ∧ ∀ r, Follows f r → Scans a ws r

/-- Anything may follow. -/
def anything (_ : CodePoint) : Bool := true

theorem follows_anything (r : Text) : Follows anything r := fun _ _ => rfl

theorem follows_cons (h : f c) : Follows f (c :: r) := by
  intro d hd
  cases hd
  exact h

theorem Follows.mono (h : Follows f r) (hfg : ∀ c, f c → g c) : Follows g r := fun c hc => hfg c (h c hc)

namespace Writes

variable {p : Pieces} {ps : List Pieces} {a b : Text} {ws us : List Word} {f g : CodePoint → Bool}

theorem mono (h : Writes p a ws f) (hgf : ∀ c, g c → f c) : Writes p a ws g := by
  obtain ⟨qs, hq, ha, hscan⟩ := h
  exact ⟨qs, hq, ha, fun r hr => hscan r (hr.mono hgf)⟩

theorem fixed (xs : List Text) (h : fits xs) :
    Writes (word xs.flatten) xs.flatten (wordsOf xs) anything :=
  ⟨_, rfl, by simp [codeOf, textOf], fun r _ => scans_parts h r⟩

theorem empty : Writes (.ok []) [] [] anything := ⟨[], rfl, rfl, fun r _ => .nil r⟩

theorem one (h : Writes p a ws f) : Writes (sequence [p]) a ws f := by
  obtain ⟨qs, rfl, ha, hscan⟩ := h
  exact ⟨qs, by simp [sequence, pure, Except.pure, bind, Except.bind], ha, hscan⟩

theorem cons (hp : Writes p a ws f) (hps : Writes (sequence ps) b us g)
    (hb : ∀ r, Follows g r → Follows f (b ++ r)) :
    Writes (sequence (p :: ps)) (a ++ b) (ws ++ us) g := by
  obtain ⟨qs, rfl, rfl, hscan⟩ := hp
  obtain ⟨qs', hqs', rfl, hscan'⟩ := hps
  refine ⟨qs ++ qs', ?_, by simp [codeOf], fun r hr => (hscan _ (hb r hr)).append (hscan' r hr)⟩
  rw [sequence, hqs']
  rfl

theorem consAny (hp : Writes p a ws anything) (hps : Writes (sequence ps) b us g) :
    Writes (sequence (p :: ps)) (a ++ b) (ws ++ us) g :=
  hp.cons hps fun _ _ => follows_anything _

theorem consHead {c : CodePoint} (hp : Writes p a ws f) (hps : Writes (sequence ps) (c :: b) us g)
    (hc : f c) : Writes (sequence (p :: ps)) (a ++ c :: b) (ws ++ us) g :=
  hp.cons hps fun _ _ => follows_cons hc

theorem marked (i : Info) (s : Shape) (slots : List Tree) (h : Writes p a ws f) : Writes (do
      let body ← p
      return markOf i s slots ++ body) a ws f := by
  obtain ⟨qs, rfl, rfl, hscan⟩ := h
  refine ⟨markOf i s slots ++ qs, rfl, ?_, hscan⟩
  have : codeOf (markOf i s slots) = [] := by
    unfold markOf
    split <;> rfl
  rw [codeOf, flatMap_append, ← codeOf, this, nil_append]
  rfl

theorem node (h : Writes (printNode indent lvl k slots) a (nodeWords k slots) f) :
    Writes (print indent lvl (.node i (.known k) slots)) a (words (.node i (.known k) slots)) f := by
  rw [print, words]
  exact h.marked i _ slots

theorem not_null (h : Writes (print indent lvl t) a ws f) : t.isNull = false := by
  obtain ⟨qs, hqs, -⟩ := h
  cases t with
  | scalar s => cases hqs
  | _ => rfl

theorem spaced {x : Text} {k : Terminal} (h : Spells k x) :
    Writes (word (" " ++ x ++ " ")) (" " ++ x ++ " ") [lexeme x] anything := by
  refine ⟨_, rfl, by simp [codeOf, textOf], fun r _ => ?_⟩
  have hblank : ∀ c ∈ (" " : Text), c.isBlank := by
    intro c hc
    rw [mem_singleton.mp hc]
    rfl
  have hx : Scans x [lexeme x] (" " ++ r) := by
    rw [h.lexeme_eq]
    refine h.before_boundary fun c hc => ?_
    cases hc
    rfl
  rw [append_assoc]
  exact (Scans.blanks hblank _).append (hx.append (.blanks hblank r))

theorem newline (h : ∀ c ∈ indent, c.isBlank) (lvl : Nat) :
    Writes (newline indent lvl) ((10 : CodePoint) :: Text.repeated indent lvl) [] anything := by
  refine ⟨_, rfl, by simp [codeOf, textOf]; rfl, fun r _ => .blanks ?_ r⟩
  have hrepeated : ∀ c ∈ Text.repeated indent lvl, c.isBlank := by
    induction lvl with
    | zero => simp [Text.repeated]
    | succ n ih =>
      rw [Text.repeated]
      intro c hc
      exact (mem_append.mp hc).elim (h c) (ih c)
  exact forall_mem_cons.mpr ⟨rfl, hrepeated⟩

theorem parenthesized {parens : Except Fault Bool} (hparens : ∃ b, parens = .ok b)
    (h : Writes p a ws f) (hclose : f ')') :
    Writes (parenthesized parens p) (if holds parens then ('(' : CodePoint) :: (a ++ ")") else a)
      (enclosed (holds parens) ws) (fun c => holds parens || f c) := by
  obtain ⟨b, rfl⟩ := hparens
  cases b with
  | false => exact h
  | true =>
    exact (((fixed ["("] rfl).consAny
      (h.cons (fixed [")"] rfl).one fun _ _ => follows_cons hclose)).mono fun _ _ => rfl)

end Writes

/-! ## What stands around an expression -/

/-- What may follow any expression: a boundary, or the operator of an update. -/
def lax (c : CodePoint) : Bool := isBoundary c || c = '+' || c = '-'

/-- An expression that a point may follow. -/
def isTight (t : Tree) : Bool := callLevel ≤ level t && ! holds (isBareInteger t)

def follows (t : Tree) (c : CodePoint) : Bool := lax c || (c = '.' && isTight t)

/-- What may follow everything but a plain integer. -/
def laxOrPoint (c : CodePoint) : Bool := lax c || c = '.'

theorem laxOrPoint_of_follows (h : follows t c) : laxOrPoint c := by
  rw [follows, Bool.or_eq_true, Bool.and_eq_true] at h
  rw [laxOrPoint, Bool.or_eq_true]
  exact h.imp_right And.left

theorem follows_of_lax (h : lax c) : follows t c := by
  simp [follows, h]

theorem lax_of_follows (hl : level t < callLevel) (h : follows t c) : lax c := by
  have : isTight t = false := by simp [isTight, Nat.not_le.mpr hl]
  simpa [follows, this] using h

/-- How the code of an expression begins: never like an assignment, and with a sign only if it is an
operation with that sign in front or one that binds more loosely. -/
def Opens (t : Tree) (c : CodePoint) : Prop :=
  c ≠ '=' ∧ (c = '+' ∨ c = '-' → level t < unaryLevel ∨
    ∃ i k rest x, (k = .unaryExpression ∨ k = .updateExpression) ∧
      t = .node i (.known k) [.text (c :: rest), x, .bool true])

/-- A code point that begins no operator. -/
def Plain (c : CodePoint) : Prop := c ≠ '=' ∧ c ≠ '+' ∧ c ≠ '-'

instance (c : CodePoint) : Decidable (Plain c) :=
  inferInstanceAs (Decidable (c ≠ '=' ∧ c ≠ '+' ∧ c ≠ '-'))

theorem opens_of_plain (h : Plain c) : Opens t c :=
  ⟨h.1, fun hc => (hc.elim h.2.1 h.2.2).elim⟩

theorem opens_of_level (hc : c ≠ '=') (hl : level t < unaryLevel) : Opens t c := ⟨hc, fun _ => .inl hl⟩

/-- The code of an expression that binds tightly begins with no sign. -/
theorem Opens.plain (h : Opens t c) (hl : suffixLevel ≤ level t) : Plain c := by
  have hsign : ¬ (c = '+' ∨ c = '-') := by
    intro hc
    rcases h.2 hc with hlow | ⟨i, k, rest, x, rfl | rfl, rfl⟩
    · simp only [unaryLevel, suffixLevel] at hlow hl
      omega
    · simp [level, precedence, suffixLevel, unaryLevel] at hl
    · simp [level, precedence, suffixLevel, unaryLevel, Tree.bool, Tree.truthy, Scalar.truthy] at hl
  exact ⟨h.1, fun hc => hsign (.inl hc), fun hc => hsign (.inr hc)⟩

/-! ## Pieces in a row -/

/-- Fixed code between an expression and the rest. -/
theorem Writes.before {ps : List Pieces} {us : List Word} (hp : Writes p a ws lax) (xs : List Text)
    (h : fits xs && xs.flatten.head?.any lax) (hps : ∃ b, Writes (sequence ps) b us g) :
    ∃ b, Writes (sequence (p :: word xs.flatten :: ps)) (a ++ b) (ws ++ (wordsOf xs ++ us)) g := by
  obtain ⟨b, hb⟩ := hps
  obtain ⟨h, hx⟩ := (Bool.and_eq_true ..).mp h
  refine ⟨_, hp.cons ((fixed xs h).consAny hb) fun r _ => ?_⟩
  cases hxs : xs.flatten with
  | nil =>
    rw [hxs] at hx
    cases hx
  | cons c x => exact follows_cons (by simpa [hxs] using hx)

/-- Printing gives code that consists of these words, in front of what begins so. -/
def Gives (p : Pieces) (ws : List Word) (f : CodePoint → Bool) : Prop := ∃ a, Writes p a ws f

namespace Gives

variable {p : Pieces} {ps : List Pieces} {ws us : List Word} {f g : CodePoint → Bool}

theorem mono (h : Gives p ws f) (hgf : ∀ c, g c → f c) : Gives p ws g := h.imp fun _ h => h.mono hgf

theorem one (h : Gives p ws f) : Gives (sequence [p]) ws f := h.imp fun _ h => h.one

theorem empty : Gives (.ok []) [] anything := ⟨_, .empty⟩

theorem fixed (xs : List Text) (h : fits xs) : Gives (word xs.flatten) (wordsOf xs) anything :=
  ⟨_, .fixed xs h⟩

theorem consAny (hp : Gives p ws anything) (hps : Gives (sequence ps) us g) :
    Gives (sequence (p :: ps)) (ws ++ us) g := by
  obtain ⟨a, ha⟩ := hp
  obtain ⟨b, hb⟩ := hps
  exact ⟨_, ha.consAny hb⟩

theorem after (xs : List Text) (h : fits xs) (hps : Gives (sequence ps) us g) :
    Gives (sequence (word xs.flatten :: ps)) (wordsOf xs ++ us) g := (fixed xs h).consAny hps

theorem before (hp : Gives p ws lax) (xs : List Text) (h : fits xs && xs.flatten.head?.any lax)
    (hps : Gives (sequence ps) us g) :
    Gives (sequence (p :: word xs.flatten :: ps)) (ws ++ (wordsOf xs ++ us)) g := by
  obtain ⟨a, ha⟩ := hp
  obtain ⟨b, hb⟩ := ha.before xs h hps
  exact ⟨_, hb⟩

theorem closed (hp : Gives p ws lax) (xs : List Text) (h : fits xs && xs.flatten.head?.any lax) :
    Gives (sequence [p, word xs.flatten]) (ws ++ wordsOf xs) anything := by
  have hrest : Gives (sequence []) [] anything := empty
  simpa using hp.before xs h hrest

theorem newline (h : ∀ c ∈ indent, c.isBlank) (lvl : Nat) :
    Gives (newline indent lvl) [] anything := ⟨_, .newline h lvl⟩

theorem node (h : Gives (printNode indent lvl k slots) (nodeWords k slots) f) :
    Gives (print indent lvl (.node i (.known k) slots)) (words (.node i (.known k) slots)) f := h.imp fun _ h => h.node

theorem not_null (h : Gives (print indent lvl t) ws f) : t.isNull = false := by
  obtain ⟨a, ha⟩ := h
  exact ha.not_null

end Gives

/-! ## Words and literals -/

/-- A word goes on with letters and digits only. -/
theorem runsInto_of_identStart {k : Terminal} {d : CodePoint} {y : Text}
    (h : Spells k x) (hx : x = c :: y) (hc : isIdentStart c) :
    runsInto k x d = isIdentPart d := by
  cases spells_iff_lexeme.mp h with
  | number hnum =>
    obtain ⟨e, r, he, hdigit⟩ := hnum.head
    obtain ⟨rfl, rfl⟩ := cons.inj (hx.symm.trans he)
    rcases hdigit with hdigit | ⟨rfl, -⟩
    · rw [isDecimalDigit_of_isIdentStart hc] at hdigit
      cases hdigit
    · exact absurd hc (by decide)
  | string hq _ =>
    obtain ⟨q, z, hz, hq⟩ := hq
    obtain ⟨rfl, rfl⟩ := cons.inj (hx.symm.trans hz)
    rcases hq with rfl | rfl <;> exact absurd hc (by decide)
  | word hstart _ => rw [runsInto_word hstart]
  | mark hss hmem =>
    have := (mark_facts hss hmem).2.2.2
    rw [hx] at this
    simp [hc] at this

theorem isIdentPart_of_laxOrPoint (h : laxOrPoint c) : isIdentPart c = false := by
  simp only [laxOrPoint, lax, Bool.or_eq_true, decide_eq_true_eq] at h
  rcases h with ((h | rfl) | rfl) | rfl
  · exact isIdentPart_of_isBoundary h
  · decide
  · decide
  · decide

theorem plain_of_identStart (h : isIdentStart c) : Plain c := by
  refine ⟨?_, ?_, ?_⟩ <;> rintro rfl <;> exact absurd h (by decide)

/-- Every word of the language begins like an identifier. -/
theorem identStart_of_spellsOne (h : SpellsOne propertyWords x) :
    ∃ k c y, Spells k x ∧ x = c :: y ∧ isIdentStart c := by
  obtain ⟨k, hk, hx⟩ := h
  cases spells_iff_lexeme.mp hx with
  | number | string => exact absurd hk (by decide)
  | @word c y hstart _ => exact ⟨_, c, y, hx, rfl, hstart⟩
  | mark hss _ =>
    have table : (marks.all fun e => ! propertyWords.contains e.1) := by decide
    have := all_eq_true.mp table _ hss
    simp [hk] at this

theorem spellsOne_of_ident (h : Spells .ident x) : SpellsOne propertyWords x :=
  ⟨.ident, by decide, h⟩

/-! ## Expressions and lists of them -/

/-- The printed expression consists of its words. -/
def WritesExpression (indent : Text) (t : Tree) : Prop :=
  ∀ lvl, ∃ c a, Writes (print indent lvl t) (c :: a) (words t) (follows t) ∧ Opens t c

variable {indent : Text} {t : Tree}

theorem WritesExpression.operand (h : WritesExpression indent t)
    (hparens : ∃ b, parens = .ok b) (lvl : Nat) :
    ∃ c a, Writes (parenthesized parens (print indent lvl t)) (c :: a)
        (enclosed (holds parens) (words t)) (fun d => holds parens || follows t d) ∧
      c ≠ '=' ∧ (holds parens → c = '(') ∧ (holds parens = false → Opens t c) := by
  obtain ⟨c, a, hw, ho⟩ := h lvl
  have hw := hw.parenthesized hparens (follows_of_lax (by decide))
  cases hb : holds parens with
  | true =>
    rw [hb, if_pos rfl] at hw
    exact ⟨'(', _, hw, by decide, fun _ => rfl, nofun⟩
  | false =>
    rw [hb, if_neg (by simp)] at hw
    exact ⟨c, a, hw, ho.1, nofun, fun _ => ho⟩

theorem Writes.relax {b : Bool} (h : Writes p a ws fun d => b || follows t d) :
    Writes p a ws lax := h.mono fun d hd => by simp [follows_of_lax hd]

theorem WritesExpression.operandLax (h : WritesExpression indent t)
    (hparens : ∃ b, parens = .ok b) (lvl : Nat) :
    ∃ c a, Writes (parenthesized parens (print indent lvl t)) (c :: a)
        (enclosed (holds parens) (words t)) lax ∧ c ≠ '=' := by
  obtain ⟨c, a, hw, hc, -⟩ := h.operand hparens lvl
  exact ⟨c, a, hw.relax, hc⟩

theorem WritesExpression.gives (h : WritesExpression indent t) (hparens : ∃ b, parens = .ok b) (lvl : Nat) :
    Gives (parenthesized parens (print indent lvl t)) (enclosed (holds parens) (words t)) lax := by
  obtain ⟨c, a, hw, -⟩ := h.operandLax hparens lvl
  exact ⟨_, hw⟩

theorem WritesExpression.lax (h : WritesExpression indent t) (lvl : Nat) :
    Gives (print indent lvl t) (words t) lax := by
  obtain ⟨c, a, hw, -⟩ := h lvl
  exact ⟨_, hw.mono fun _ hd => follows_of_lax hd⟩

/-- The code of an operand that binds tightly, or is in parentheses, begins with no sign. -/
theorem WritesExpression.callee (h : WritesExpression indent t) (hparens : ∃ b, parens = .ok b)
    (hlevel : holds parens = false → callLevel ≤ level t) (lvl : Nat) :
    ∃ c a, Writes (parenthesized parens (print indent lvl t)) (c :: a)
        (enclosed (holds parens) (words t)) (fun d => holds parens || follows t d) ∧ Plain c := by
  obtain ⟨c, a, hw, -, hparen, hopens⟩ := h.operand hparens lvl
  refine ⟨c, a, hw, ?_⟩
  cases hh : holds parens with
  | true =>
    rw [hparen hh]
    decide
  | false => exact (hopens hh).plain (Nat.le_trans (by decide) (hlevel hh))

theorem follows_append {b : Text} (hb : Follows f b) (hr : Follows f r) : Follows f (b ++ r) := by
  cases b with
  | nil => exact hr
  | cons c b => exact follows_cons (hb c rfl)

section Items

variable (F : Bool → List Tree → Pieces) (sep : Text) (item : Tree → Pieces) (operands : Bool)
  (hnil : ∀ first, F first [] = .ok [])
  (hcons : ∀ first t ts, F first (t :: ts) =
    sequence [if first then .ok [] else word sep, item t, F false ts])
  (hsep : Writes (word sep) sep [lexeme ","] anything) (hhead : Follows lax sep) (hne : sep ≠ [])

include hnil hcons hsep hhead hne

theorem writes_laterItems
    (h : ∀ t ∈ ts, Gives (item t) (enclosed (operands && holds (looserThanAssignment t)) (words t)) lax) :
    ∃ a, Writes (F false ts) a (itemWords operands false ts) lax ∧ Follows lax a := by
  induction ts with
  | nil =>
    rw [hnil, itemWords]
    exact ⟨[], Writes.empty.mono fun _ _ => rfl, fun _ hc => by cases hc⟩
  | cons t ts ih =>
    obtain ⟨b, hb, hfollow⟩ := ih fun t ht => h t (.tail _ ht)
    obtain ⟨a, ha⟩ := h t mem_cons_self
    rw [hcons, itemWords]
    refine ⟨_, hsep.consAny (ha.cons hb.one fun r hr => follows_append hfollow hr), ?_⟩
    obtain ⟨c, s, rfl⟩ := exists_cons_of_ne_nil hne
    exact follows_cons (hhead c rfl)

theorem writes_items
    (h : ∀ t ∈ ts, Gives (item t) (enclosed (operands && holds (looserThanAssignment t)) (words t)) lax) :
    Gives (F true ts) (itemWords operands true ts) lax := by
  cases ts with
  | nil =>
    rw [hnil, itemWords]
    exact ⟨[], Writes.empty.mono fun _ _ => rfl⟩
  | cons t ts =>
    obtain ⟨b, hb, hfollow⟩ := writes_laterItems F sep item operands hnil hcons hsep hhead hne
      fun t ht => h t (.tail _ ht)
    obtain ⟨a, ha⟩ := h t mem_cons_self
    rw [hcons, itemWords]
    exact ⟨_, Writes.empty.consAny (ha.cons hb.one fun r hr => follows_append hfollow hr)⟩

end Items

theorem writes_comma (h : ∀ t ∈ ts, WritesExpression indent t)
    (hl : ∀ t ∈ ts, ∃ b, looserThanAssignment t = .ok b) (lvl : Nat) :
    Gives (printComma indent lvl (.list ts)) (listWords true (.list ts)) lax := by
  rw [printComma, listWords]
  exact writes_items (printCommaItems indent lvl) ", "
    (fun t => parenthesized (looserThanAssignment t) (print indent lvl t)) true
    (fun _ => by rw [printCommaItems]) (fun _ _ _ => by rw [printCommaItems])
    (.fixed [",", " "] rfl) (follows_cons rfl) (by decide) fun t ht => (h t ht).gives (hl t ht) lvl

/-! ## Expressions, by kind -/

/-- An operation that binds more loosely than a unary one. -/
theorem writesExpression_of_loose (hlevel : level (.node i (.known k) slots) < unaryLevel)
    (h : ∀ lvl, ∃ c a, Writes (printNode indent lvl k slots) (c :: a) (nodeWords k slots) lax ∧ c ≠ '=') :
    WritesExpression indent (.node i (.known k) slots) := by
  intro lvl
  obtain ⟨c, a, hw, hc⟩ := h lvl
  have hcall : level (.node i (.known k) slots) < callLevel := Nat.lt_trans hlevel (by decide)
  exact ⟨c, a, hw.node.mono fun d hd => lax_of_follows hcall hd, opens_of_level hc hlevel⟩

/-- An expression that begins with no sign and that a point may follow. -/
theorem writesExpression_of_tight
    (h : ∀ lvl, ∃ c a, Writes (printNode indent lvl k slots) (c :: a) (nodeWords k slots) laxOrPoint ∧ Plain c) :
    WritesExpression indent (.node i (.known k) slots) := by
  intro lvl
  obtain ⟨c, a, hw, hc⟩ := h lvl
  exact ⟨c, a, hw.node.mono fun d hd => laxOrPoint_of_follows hd, opens_of_plain hc⟩

theorem writes_operation {op : Text} {l r : Tree} {kop : Terminal}
    (hk : k = .binaryExpression ∨ k = .logicalExpression ∨ k = .assignmentExpression) (hop : Spells kop op)
    (hlevel : level (.node i (.known k) [.text op, l, r]) < unaryLevel) (hl : WritesExpression indent l)
    (hr : WritesExpression indent r) (hlp : ∃ b, needsParens k (.text op) "left" l = .ok b)
    (hrp : ∃ b, needsParens k (.text op) "right" r = .ok b) :
    WritesExpression indent (.node i (.known k) [.text op, l, r]) := by
  refine writesExpression_of_loose hlevel fun lvl => ?_
  obtain ⟨c, a, hwl, hc⟩ := hl.operandLax hlp lvl
  obtain ⟨d, b, hwr, -⟩ := hr.operandLax hrp lvl
  have hseq : Writes (operation k (.text op) l r (print indent lvl l) (print indent lvl r))
      ((c :: a) ++ ((" " ++ op ++ " ") ++ (d :: b))) _ lax :=
    hwl.consHead ((Writes.spaced hop).consAny hwr.one) (by decide)
  rcases hk with rfl | rfl | rfl <;> rw [printNode, nodeWords] <;> exact ⟨c, _, hseq, hc⟩

theorem writes_conditional {c a b : Tree} (hc : WritesExpression indent c)
    (ha : WritesExpression indent a) (hb : WritesExpression indent b)
    (hcp : ∃ b, needsParens .conditionalExpression .null "test" c = .ok b)
    (hap : ∃ b, needsParens .conditionalExpression .null "consequent" a = .ok b)
    (hbp : ∃ b', needsParens .conditionalExpression .null "alternate" b = .ok b') :
    WritesExpression indent (.node i (.known .conditionalExpression) [c, a, b]) := by
  refine writesExpression_of_loose (show 2 < 14 by decide) fun lvl => ?_
  obtain ⟨x, xs, hx, hne⟩ := hc.operandLax hcp lvl
  have hrest := (ha.gives hap lvl).before [" ", ":", " "] rfl (hb.gives hbp lvl).one
  rw [printNode, nodeWords]
  obtain ⟨s, hs⟩ := hx.before [" ", "?", " "] rfl hrest
  exact ⟨x, _, hs, hne⟩

theorem writes_verbatim {k : Terminal} (h : Spells k x) (hf : ∀ c, f c → runsInto k x c = false) :
    Writes (verbatim (.text x)) x (slotWord (.text x)) f := by
  refine ⟨_, rfl, by simp [codeOf, textOf], fun r hr => ?_⟩
  rw [Tree.text, slotWord, h.lexeme_eq]
  exact h.scans fun c hc => hf c (hr c hc)

theorem writes_word (h : SpellsOne propertyWords x) (lvl : Nat) :
    Writes (print indent lvl (.node i (.known .identifier) [.text x])) x
      (words (.node i (.known .identifier) [.text x])) laxOrPoint := by
  obtain ⟨k, c, y, hx, rfl, hstart⟩ := identStart_of_spellsOne h
  refine Writes.node ?_
  rw [printNode, nodeWords]
  refine writes_verbatim hx fun d hd => ?_
  rw [runsInto_of_identStart hx rfl hstart, isIdentPart_of_laxOrPoint hd]

theorem writes_name (h : SpellsOne propertyWords x) :
    WritesExpression indent (.node i (.known .identifier) [.text x]) := by
  intro lvl
  obtain ⟨k, c, y, -, rfl, hstart⟩ := identStart_of_spellsOne h
  exact ⟨c, y, (writes_word h lvl).mono fun _ hd => laxOrPoint_of_follows hd,
    opens_of_plain (plain_of_identStart hstart)⟩

theorem plain_of_numeral (h : Numeral x) : ∃ c y, x = c :: y ∧ Plain c := by
  obtain ⟨c, y, rfl, hc⟩ := h.head
  refine ⟨c, y, rfl, ?_⟩
  rcases hc with hc | ⟨rfl, -⟩
  · refine ⟨?_, ?_, ?_⟩ <;> rintro rfl <;> exact absurd hc (by decide)
  · decide

theorem runsInto_number (h : Spells .number x)
    (hc : lax c ∨ c = '.' ∧ x.any marksNumber) : runsInto .number x c = false := by
  rcases hc with hc | ⟨rfl, hmark⟩
  · simp only [lax, Bool.or_eq_true, decide_eq_true_eq] at hc
    rcases hc with (hc | rfl) | rfl
    · exact h.runsInto_boundary hc
    · rfl
    · rfl
  · unfold marksNumber at hmark
    rw [runsInto, hmark]
    decide

theorem writes_number (h : Spells .number raw) (hv : literalValue? .number raw = some v) :
    WritesExpression indent (.node i (.known .literal) [.scalar v, .text raw]) := by
  intro lvl
  obtain ⟨c, y, rfl, hc⟩ := plain_of_numeral (numeral_of_spells h)
  refine ⟨c, y, Writes.node ?_, opens_of_plain hc⟩
  rw [printNode, nodeWords]
  refine writes_verbatim h fun d hd => runsInto_number h ?_
  -- a point may follow only if the number has one, or another mark, of its own
  rw [follows, isTight, Formed.isBareInteger_literal, isNumber_of_spells h hv] at hd
  simp only [holds, Bool.or_eq_true, Bool.and_eq_true, decide_eq_true_eq, Bool.true_and,
    Bool.not_not] at hd
  exact hd.imp_right fun hd => ⟨hd.1, hd.2.2⟩

theorem writes_string (h : Spells .string raw) :
    WritesExpression indent (.node i (.known .literal) [.scalar v, .text raw]) := by
  refine writesExpression_of_tight fun lvl => ?_
  rw [printNode, nodeWords]
  generalize hk : Terminal.string = k at h
  have hw : Writes (if (Tree.text raw).isNull then do
      word (← Literal.write (.scalar v)) else verbatim (.text raw)) raw (slotWord (.text raw))
      laxOrPoint := writes_verbatim h fun d _ => by rw [← hk]; rfl
  cases spells_iff_lexeme.mp h with
  | string hq _ =>
    obtain ⟨q, y, rfl, hq⟩ := hq
    refine ⟨q, y, hw, ?_⟩
    rcases hq with rfl | rfl <;> decide
  | number _ => cases hk
  | word _ _ => exact absurd hk.symm (wordTerminal_ne _).2
  | mark hss hx => exact absurd hk.symm (mark_facts hss hx).2.2.1

theorem writes_literal (h : Denotes literalTerminals raw v) :
    WritesExpression indent (.node i (.known .literal) [.scalar v, .text raw]) := by
  obtain ⟨k, hk, hraw, hv⟩ := h
  have hword (hk' : k ∈ propertyWords) :
      WritesExpression indent (.node i (.known .literal) [.scalar v, .text raw]) := by
    obtain ⟨k, c, y, hx, rfl, hstart⟩ := identStart_of_spellsOne ⟨k, hk', hraw⟩
    refine writesExpression_of_tight fun lvl => ?_
    rw [printNode, nodeWords]
    refine ⟨c, y, writes_verbatim hx fun d hd => ?_, plain_of_identStart hstart⟩
    rw [runsInto_of_identStart hx rfl hstart, isIdentPart_of_laxOrPoint hd]
  simp only [literalTerminals, mem_cons, not_mem_nil, or_false] at hk
  rcases hk with rfl | rfl | rfl | rfl | rfl
  · exact writes_number hraw hv
  · exact writes_string hraw
  · exact hword (by decide)
  · exact hword (by decide)
  · exact hword (by decide)

end ArrowFree.Printer
