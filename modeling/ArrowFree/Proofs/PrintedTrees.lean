import ArrowFree.Proofs.PrintedWords

/-!
# Printed trees

The printer writes every well-formed tree, and the lexer finds in the code the words of the tree
(`Formed.prints`, by induction over the parts of a program). Signs need care: an operator must not run into the
sign that its operand begins with.
-/

namespace ArrowFree.Printer

open Token List

variable {indent : Text}
variable {i : Info} {op x kind : Text} {ts ps ds : List Tree} {b c a f e t o h : Tree}
  {k : Terminal}

/-- The printed tree consists of its words, in front of what begins so. -/
def Prints (indent : Text) (f : CodePoint → Bool) (t : Tree) : Prop := ∀ lvl, Gives (print indent lvl t) (words t) f

/-- A list of expressions consists of their words and of commas. -/
def GivesComma (indent : Text) (ts : List Tree) : Prop :=
  ∀ lvl, Gives (printComma indent lvl (.list ts)) (listWords true (.list ts)) lax

/-! ## Unary operations -/

/-- The code points that a mark goes on with. -/
def markNexts (x : Text) : Text :=
  markSpellings.filterMap fun s => if x.isPrefixOf s then s[x.length]? else none

theorem mem_markNexts {c : CodePoint} (h : (markSpellings.any fun s => (x ++ [c]).isPrefixOf s)) :
    c ∈ markNexts x := by
  obtain ⟨s, hs, hp⟩ := any_eq_true.mp h
  obtain ⟨u, rfl⟩ := isPrefixOf_iff_prefix.mp hp
  have hx : x.isPrefixOf (x ++ [c] ++ u) :=
    isPrefixOf_iff_prefix.mpr ⟨[c] ++ u, by simp⟩
  exact mem_filterMap.mpr ⟨_, hs, by rw [if_pos hx]; simp⟩

theorem eq_of_signs (hk : k = .additiveOp ∨ k = .unaryOp) (h : Spells k op) :
    op = "+" ∨ op = "-" ∨ op = "!" ∨ op = "~" := by
  have hadd : spellings .additiveOp = [("+" : Text), "-"] := by decide
  have hun : spellings .unaryOp = [("!" : Text), "~"] := by decide
  rcases hk with rfl | rfl
  · have := h.mem_spellings (by decide) (by decide) (by decide)
    rw [hadd, mem_cons, mem_singleton] at this
    exact this.elim .inl fun h => .inr (.inl h)
  · have := h.mem_spellings (by decide) (by decide) (by decide)
    rw [hun, mem_cons, mem_singleton] at this
    exact .inr (.inr this)

/-- A sign in front of an operand runs only into the same sign, and into `=`. -/
theorem eq_of_runsInto_sign (hk : k = .additiveOp ∨ k = .unaryOp) (h : Spells k op) {c : CodePoint} (hc : c ≠ '=')
    (hrun : runsInto k op c) : (c = '+' ∨ c = '-') ∧ op = [c] := by
  have nexts {x : Text} {l : Text} (hx : op = x) (hmark : runsInto k x c = markGoesOn x c)
      (hpoint : x ≠ ".") (hslash : x ≠ "/") (hl : markNexts x = l) : c ∈ l := by
    subst hx
    rw [hmark] at hrun
    simp only [markGoesOn, hpoint, hslash, decide_false, Bool.false_and, Bool.or_false] at hrun
    exact hl ▸ mem_markNexts hrun
  have hmark : runsInto k op c = markGoesOn op c := by
    rcases eq_of_signs hk h with rfl | rfl | rfl | rfl <;> rcases hk with rfl | rfl <;> rfl
  rcases eq_of_signs hk h with rfl | rfl | rfl | rfl
  · have := nexts rfl hmark (by decide) (by decide) (l := "=+") (by decide)
    rcases mem_cons.mp this with rfl | this
    · exact absurd rfl hc
    · obtain rfl := mem_singleton.mp this
      exact ⟨.inl rfl, rfl⟩
  · have := nexts rfl hmark (by decide) (by decide) (l := "=-") (by decide)
    rcases mem_cons.mp this with rfl | this
    · exact absurd rfl hc
    · obtain rfl := mem_singleton.mp this
      exact ⟨.inr rfl, rfl⟩
  · have := nexts rfl hmark (by decide) (by decide) (l := "==") (by decide)
    rcases mem_cons.mp this with rfl | this
    · exact absurd rfl hc
    · exact absurd (mem_singleton.mp this) hc
  · have := nexts rfl hmark (by decide) (by decide) (l := "") (by decide)
    cases this

theorem ne_nil_of_spells (h : Spells k x) : x ≠ [] := by
  rintro rfl
  exact absurd (match?_pos h) (by simp)

theorem ne_equals_of_unary (h : SpellsOne unaryOperators op) : ∃ c rest, op = c :: rest ∧ c ≠ '=' := by
  have table : ((unaryOperators.flatMap spellings).all fun x => x.head?.any fun c : CodePoint => c ≠ '=') =
      true := by decide
  have := all_eq_true.mp table op (mem_of_spellsOne h (by decide))
  cases op with
  | nil => cases this
  | cons c rest => exact ⟨c, rest, rfl, by simpa using this⟩

/-- The parts of a unary operation: a blank stands between operator and operand where they would run
into each other. -/
theorem writes_signed (hop : SpellsOne unaryOperators op) (ha : WritesExpression indent a)
    (hfuses : ∃ b, fuses (.text op) a = .ok b)
    (hparens : ∃ b, needsParens .unaryExpression (.text op) "argument" a = .ok b)
    (hlevel : holds (needsParens .unaryExpression (.text op) "argument" a) = false → unaryLevel ≤ level a)
    (lvl : Nat) :
    ∃ b, Writes (sequence [verbatim (.text op), unaryGap (.text op) a,
        operand .unaryExpression (.text op) "argument" a (print indent lvl a)]) (op ++ b)
      (slotWord (.text op) ++
        enclosed (holds (needsParens .unaryExpression (.text op) "argument" a)) (words a)) lax := by
  obtain ⟨c, s, hw, hc, hparen, hopens⟩ := ha.operand hparens lvl
  have hw := hw.relax
  obtain ⟨k, hk, hspells⟩ := hop
  have blank (hgap : unaryGap (.text op) a = word " ") : ∃ b, Writes (sequence [verbatim (.text op),
      unaryGap (.text op) a, operand .unaryExpression (.text op) "argument" a (print indent lvl a)])
      (op ++ b) (slotWord (.text op) ++ enclosed
        (holds (needsParens .unaryExpression (.text op) "argument" a)) (words a)) lax := by
    rw [hgap]
    have hop : Writes (verbatim (.text op)) op (slotWord (.text op)) isBoundary :=
      writes_verbatim hspells fun _ => hspells.runsInto_boundary
    exact ⟨_, hop.cons ((Writes.fixed [" "] rfl).consAny hw.one) fun _ _ => follows_cons rfl⟩
  by_cases hword : ((Tree.text op).asText?.any wordOperators.contains)
  · exact blank (by rw [unaryGap, if_pos hword])
  obtain ⟨b, hb⟩ := hfuses
  cases b with
  | true => exact blank (by rw [unaryGap, if_neg hword, hb]; rfl)
  | false =>
    have hgap : unaryGap (.text op) a = .ok [] := by
      rw [unaryGap, if_neg hword, hb]
      rfl
    have hsign : k = .additiveOp ∨ k = .unaryOp := by
      simp only [unaryOperators, mem_cons, not_mem_nil, or_false] at hk
      rcases hk with rfl | rfl | rfl | rfl | rfl
      · exact .inl rfl
      · exact .inr rfl
      all_goals
        have hmem := hspells.mem_spellings (by decide) (by decide) (by decide)
        obtain rfl := mem_singleton.mp hmem
        exact absurd rfl hword
    rw [hgap]
    have hrun : runsInto k op c = false := by
      by_contra hrun
      obtain ⟨hpm, rfl⟩ := eq_of_runsInto_sign hsign hspells hc (by simpa using hrun)
      cases hh : holds (needsParens .unaryExpression (.text [c]) "argument" a) with
      | true =>
        rw [hparen hh] at hpm
        exact absurd hpm (by decide)
      | false =>
        -- the operand begins with the same sign, so that a blank would stand between them
        rcases (hopens hh).2 hpm with hlow | ⟨i, k', rest, x, hk', rfl⟩
        · exact absurd hlow (Nat.not_lt.mpr (hlevel hh))
        · have htrue : fuses (.text [c])
              (.node i (.known k') [.text (c :: rest), x, .bool true]) = .ok true := by
            rcases hk' with rfl | rfl <;> simp [fuses, Tree.text, Tree.bool, Tree.truthy, Scalar.truthy]
          rw [htrue] at hb
          cases hb
    have hop : Writes (verbatim (.text op)) op (slotWord (.text op)) (fun d => d = c) :=
      writes_verbatim hspells fun d hd => by
        obtain rfl : d = c := by simpa using hd
        exact hrun
    exact ⟨_, hop.cons (Writes.empty.consAny hw.one) fun _ _ => follows_cons (by simp)⟩

theorem writes_unary (hop : SpellsOne unaryOperators op) (ha : WritesExpression indent a)
    (hfuses : ∃ b, fuses (.text op) a = .ok b)
    (hparens : ∃ b, needsParens .unaryExpression (.text op) "argument" a = .ok b)
    (hlevel : holds (needsParens .unaryExpression (.text op) "argument" a) = false → unaryLevel ≤ level a) :
    WritesExpression indent (.node i (.known .unaryExpression) [.text op, a, .bool true]) := by
  intro lvl
  obtain ⟨b, hw⟩ := writes_signed hop ha hfuses hparens hlevel lvl
  obtain ⟨c, rest, rfl, hc⟩ := ne_equals_of_unary hop
  have hlow : level (.node i (.known .unaryExpression) [.text (c :: rest), a, .bool true]) <
      callLevel := show 14 < 17 by decide
  refine ⟨c, rest ++ b, (Writes.node ?_).mono fun d hd => lax_of_follows hlow hd, hc,
    fun _ => .inr ⟨i, _, rest, a, .inl rfl, rfl⟩⟩
  rw [printNode, nodeWords]
  exact hw

/-! ## Other expressions -/

theorem eq_of_updateOp (h : Spells .updateOp op) : op = "++" ∨ op = "--" := by
  have hup : spellings .updateOp = [("++" : Text), "--"] := by decide
  have := h.mem_spellings (by decide) (by decide) (by decide)
  rwa [hup, mem_cons, mem_singleton] at this

theorem writes_updateOp (h : Spells .updateOp op) :
    Writes (verbatim (.text op)) op (slotWord (.text op)) anything := by
  rcases eq_of_updateOp h with rfl | rfl
  · exact .fixed ["++"] rfl
  · exact .fixed ["--"] rfl

theorem writes_update {before : Bool} (hop : Spells .updateOp op) (ha : WritesExpression indent a)
    (hparens : ∃ b, needsParens .updateExpression (.text op) "argument" a = .ok b)
    (hlevel : holds (needsParens .updateExpression (.text op) "argument" a) = false → callLevel ≤ level a) :
    WritesExpression indent (.node i (.known .updateExpression) [.text op, a, .bool before]) := by
  intro lvl
  obtain ⟨c, s, hw, hplain⟩ := ha.callee hparens hlevel lvl
  have hw := hw.relax
  cases before with
  | true =>
    have hlow : level (.node i (.known .updateExpression) [.text op, a, .bool true]) < callLevel :=
      show 14 < 17 by decide
    have hseq := (writes_updateOp hop).consAny hw.one
    obtain ⟨d, rest, rfl⟩ := exists_cons_of_ne_nil (ne_nil_of_spells hop)
    refine ⟨d, rest ++ c :: s, (Writes.node ?_).mono fun d hd => lax_of_follows hlow hd, ?_,
      fun _ => .inr ⟨i, _, rest, a, .inr rfl, rfl⟩⟩
    · rw [printNode, nodeWords]
      exact hseq
    · rcases eq_of_updateOp hop with h | h <;> rw [(cons.inj h).1] <;> decide
  | false =>
    have hseq : Writes (sequence [operand .updateExpression (.text op) "argument" a
        (print indent lvl a), verbatim (.text op)]) _ _ anything :=
      hw.cons (writes_updateOp hop).one (by
        rcases eq_of_updateOp hop with rfl | rfl <;> exact fun _ _ => follows_cons (by decide))
    refine ⟨c, s ++ op, (Writes.node ?_).mono fun _ _ => rfl, opens_of_plain hplain⟩
    rw [printNode, nodeWords]
    exact hseq

theorem writes_call (hf : WritesExpression indent f)
    (hparens : ∃ b, needsParens .callExpression .null "callee" f = .ok b)
    (hlevel : holds (needsParens .callExpression .null "callee" f) = false → callLevel ≤ level f)
    (hts : GivesComma indent ts) : WritesExpression indent (.node i (.known .callExpression) [f, .list ts]) := by
  refine writesExpression_of_tight fun lvl => ?_
  obtain ⟨c, s, hw, hc⟩ := hf.callee hparens hlevel lvl
  rw [printNode, nodeWords]
  obtain ⟨b, hb⟩ := hw.relax.before ["("] rfl ((hts lvl).closed [")"] rfl)
  exact ⟨c, _, hb.mono fun _ _ => rfl, hc⟩

theorem writes_new (hf : WritesExpression indent f)
    (hparens : ∃ b, needsParens .newExpression .null "callee" f = .ok b) (hts : GivesComma indent ts) :
    WritesExpression indent (.node i (.known .newExpression) [f, .list ts]) := by
  refine writesExpression_of_tight fun lvl => ?_
  obtain ⟨b, hb⟩ := (hf.gives hparens lvl).before ["("] rfl ((hts lvl).closed [")"] rfl)
  rw [printNode, nodeWords]
  have hseq := (Writes.fixed ["new", " "] rfl).consAny hb
  exact ⟨'n', _, hseq.mono fun _ _ => rfl, by decide⟩

theorem writes_computed {p : Tree} (ho : WritesExpression indent o) (hp : WritesExpression indent p)
    (hparens : ∃ b, needsParens .memberExpression .null "object" o = .ok b)
    (hlevel : holds (needsParens .memberExpression .null "object" o) = false → callLevel ≤ level o) :
    WritesExpression indent (.node i (.known .memberExpression) [o, p, .bool true]) := by
  refine writesExpression_of_tight fun lvl => ?_
  obtain ⟨c, s, hw, hc⟩ := ho.callee hparens hlevel lvl
  rw [printNode, nodeWords]
  obtain ⟨b, hb⟩ := hw.relax.before ["["] rfl ((hp.lax lvl).closed ["]"] rfl)
  exact ⟨c, _, hb.mono fun _ _ => rfl, hc⟩

theorem writes_member {j : Info} (ho : WritesExpression indent o) (hx : SpellsOne propertyWords x)
    (hparens : ∃ b, needsParens .memberExpression .null "object" o = .ok b)
    (htight : holds (needsParens .memberExpression .null "object" o) = false → isTight o) :
    WritesExpression indent (.node i (.known .memberExpression)
        [o, .node j (.known .identifier) [.text x], .bool false]) := by
  have hlevel (hh : holds (needsParens .memberExpression .null "object" o) = false) :
      callLevel ≤ level o := by
    have := htight hh
    simp only [isTight, Bool.and_eq_true, decide_eq_true_eq] at this
    exact this.1
  refine writesExpression_of_tight fun lvl => ?_
  obtain ⟨c, s, hw, hc⟩ := ho.callee hparens hlevel lvl
  have hw := hw.mono (g := fun d => d = '.') fun d hd => by
    obtain rfl : d = '.' := by simpa using hd
    cases hh : holds (needsParens .memberExpression .null "object" o) with
    | true => rfl
    | false => simp [follows, htight hh]
  have hname : Writes (print indent lvl (.node j (.known .identifier) [.text x])) x _ laxOrPoint :=
    writes_word hx lvl
  have hdot : Spells .dot "." := by decide
  have hpoint : Writes (word ".") "." [lexeme "."] isIdentStart :=
    writes_verbatim hdot fun d hd => by
      have hlonger : (markSpellings.any fun s => (("." : Text) ++ [d]).isPrefixOf s) = false := by
        by_contra hany
        have hmem := mem_markNexts (Bool.not_eq_false _ ▸ hany)
        rw [show markNexts "." = [] by decide] at hmem
        cases hmem
      show markGoesOn "." d = false
      rw [markGoesOn, hlonger, isDecimalDigit_of_isIdentStart hd]
      rfl
  rw [printNode, nodeWords]
  have htail : ∀ r, Follows laxOrPoint r → Follows isIdentStart (x ++ r) := by
    obtain ⟨k, e, y, -, rfl, hstart⟩ := identStart_of_spellsOne hx
    exact fun _ _ => follows_cons hstart
  have hseq := hw.cons (hpoint.cons hname.one htail) fun _ _ => follows_cons (by decide)
  exact ⟨c, _, hseq, hc⟩

theorem writes_array (hts : GivesComma indent ts) :
    WritesExpression indent (.node i (.known .arrayExpression) [.list ts]) := by
  refine writesExpression_of_tight fun lvl => ?_
  obtain ⟨b, hb⟩ := (hts lvl).closed ["]"] rfl
  rw [printNode, nodeWords]
  have hseq := (Writes.fixed ["["] rfl).consAny hb
  exact ⟨'[', _, hseq.mono fun _ _ => rfl, by decide⟩

theorem writes_function (hf : f = .null ∨ WritesExpression indent f) (hps : GivesComma indent ps)
    (hb : Prints indent anything b) (lvl : Nat) :
    ∃ a, Writes (printNode indent lvl .functionExpression [f, .list ps, b]) ('f' :: a)
      (nodeWords .functionExpression [f, .list ps, b]) anything := by
  obtain ⟨a, ha⟩ := (hps lvl).before [")", " "] rfl (hb lvl).one
  rw [printNode, nodeWords]
  have hrest := (Writes.fixed ["("] rfl).consAny ha
  have hword : Spells .function "function" := by decide
  have hfun : Writes (word "function") "function" [lexeme "function"] isBoundary :=
    writes_verbatim hword fun _ => hword.runsInto_boundary
  rcases hf with rfl | hf
  · exact ⟨_, hfun.cons (Writes.empty.consAny hrest) fun _ _ => follows_cons rfl⟩
  · obtain ⟨c, u, hu, -⟩ := hf lvl
    have hname := (Writes.fixed [" "] rfl).consAny hu.one
    rw [if_neg]
    · exact ⟨_, hfun.cons (hname.cons hrest fun _ _ => follows_cons (follows_of_lax rfl))
        fun _ _ => follows_cons rfl⟩
    · simp [hu.not_null]

theorem writes_arrow (hps : GivesComma indent ps)
    (hb : ∀ lvl, Gives (parenthesized (arrowParens b) (print indent lvl b))
      (enclosed (holds (arrowParens b)) (words b)) lax) :
    WritesExpression indent (.node i (.known .arrowFunctionExpression) [.list ps, b, e]) := by
  refine writesExpression_of_loose (show 1 < 14 by decide) fun lvl => ?_
  obtain ⟨a, ha⟩ := (hps lvl).before [")", " ", "=>", " "] rfl (hb lvl).one
  rw [printNode, nodeWords]
  exact ⟨'(', _, (Writes.fixed ["("] rfl).consAny ha, by decide⟩

theorem writes_sequence (h : ∀ u ∈ t :: ts, WritesExpression indent u)
    (hl : ∀ u ∈ t :: ts, ∃ b, looserThanAssignment u = .ok b) :
    WritesExpression indent (.node i (.known .sequenceExpression) [.list (t :: ts)]) := by
  refine writesExpression_of_loose (show 0 < 14 by decide) fun lvl => ?_
  obtain ⟨c, a, ha, hc⟩ := (h t mem_cons_self).operandLax (hl t mem_cons_self) lvl
  obtain ⟨b, hb, hfollow⟩ := writes_laterItems (printCommaItems indent lvl) ", "
    (fun t => parenthesized (looserThanAssignment t) (print indent lvl t)) true
    (fun _ => by rw [printCommaItems]) (fun _ _ _ => by rw [printCommaItems])
    (.fixed [",", " "] rfl) (follows_cons rfl) (by decide)
    fun u (hu : u ∈ ts) => (h u (.tail _ hu)).gives (hl u (.tail _ hu)) lvl
  rw [printNode, nodeWords, printComma, listWords, printCommaItems, itemWords]
  exact ⟨c, _, Writes.empty.consAny (ha.cons hb.one fun r hr => follows_append hfollow hr), hc⟩

/-! ## Objects -/

theorem writes_properties (hindent : ∀ c ∈ indent, c.isBlank) (lvl : Nat)
    (h : ∀ t ∈ ts, Prints indent lax t) :
    Gives (printProperties indent lvl (.list ts)) (listWords false (.list ts)) lax := by
  rw [printProperties, listWords]
  have hcons (first : Bool) (t : Tree) (ts : List Tree) :
      printPropertyItems indent lvl first (t :: ts) = sequence [if first then .ok [] else word ",",
          sequence [newline indent lvl, print indent lvl t], printPropertyItems indent lvl false ts] := by
    rw [printPropertyItems]
    cases print indent lvl t <;> cases printPropertyItems indent lvl false ts <;> cases first <;>
      simp [sequence, newline, word, bind, Except.bind, pure, Except.pure]
  exact writes_items (printPropertyItems indent lvl) ","
    (fun t => sequence [newline indent lvl, print indent lvl t]) false
    (fun _ => by rw [printPropertyItems]) hcons (.fixed [","] rfl) (follows_cons rfl)
    (by decide) fun t ht => (Gives.newline hindent lvl).consAny (h t ht lvl).one

theorem writes_object (hindent : ∀ c ∈ indent, c.isBlank) (h : ∀ t ∈ ts, Prints indent lax t) :
    WritesExpression indent (.node i (.known .objectExpression) [.list ts]) := by
  refine writesExpression_of_tight fun lvl => ?_
  cases ts with
  | nil => exact ⟨'\x7b', _, (Writes.fixed ["\x7b", "\x7d"] rfl).mono fun _ _ => rfl, by decide⟩
  | cons t ts =>
    obtain ⟨a, ha⟩ := writes_properties hindent (lvl + 1) h
    rw [printNode, nodeWords]
    have hseq := (Writes.fixed ["\x7b"] rfl).consAny
      (ha.cons ((Writes.newline hindent lvl).consAny (Writes.fixed ["\x7d"] rfl).one)
        fun _ _ => follows_cons rfl)
    exact ⟨'\x7b', _, hseq.mono fun _ _ => rfl, by decide⟩

/-! ## All parts -/

/-- What stands in the head of a loop: a declaration without its semicolon, or an expression. -/
def WritesHead (indent : Text) (t : Tree) : Prop :=
  (t.is .variableDeclaration = true ∧
    ∀ lvl, Gives (printDeclaration indent lvl t) (headWords t) lax) ∨
  (t.is .variableDeclaration = false ∧ WritesExpression indent t)

/-- The printed part consists of its words. -/
def PrintsAs (indent : Text) : Part → Tree → Prop
  | .orNull p, t => t = .null ∨ PrintsAs indent p t
  | .expression, t | .target, t | .name, t => WritesExpression indent t
  | .word, t | .key, t | .property, t | .declarator, t => Prints indent lax t
  | .declaration, t => WritesHead indent t ∧ Prints indent anything t
  | .initializer, t | .iterated, t => WritesHead indent t
  | _, t => Prints indent anything t

theorem writes_optional (h : t = .null ∨ WritesExpression indent t) (lvl : Nat) :
    Gives (if t.isNull then .ok [] else sequence [word " ", print indent lvl t]) (words t) lax := by
  rcases h with rfl | h
  · exact Gives.empty.mono fun _ _ => rfl
  · have ht := h.lax lvl
    rw [if_neg (by simp [ht.not_null])]
    exact .after [" "] rfl ht.one

theorem writes_declarator {x : Tree} (hx : WritesExpression indent x) (he : e = .null ∨ WritesExpression indent e)
    (hl : e.isNull = false → ∃ b, looserThanAssignment e = .ok b) :
    Prints indent lax (.node i (.known .variableDeclarator) [x, e]) := by
  refine fun lvl => Gives.node ?_
  rw [printNode, nodeWords]
  rcases he with rfl | he
  · exact hx.lax lvl
  · have hnull := (he.lax lvl).not_null
    rw [if_neg (by simp [hnull]), if_neg (by simp [hnull])]
    exact (hx.lax lvl).before [" ", "=", " "] rfl (he.gives (hl hnull) lvl).one

theorem writes_declarators (hkind : SpellsOne declarationWords kind) (h : ∀ d ∈ ds, Prints indent lax d)
    (lvl : Nat) :
    Gives (keyword (.text kind)) (slotWord (.text kind)) anything ∧
      Gives (printDeclarators indent lvl (.list ds)) (listWords false (.list ds)) lax := by
  constructor
  · have hwords : declarationWords.flatMap spellings = [("var" : Text), "let", "const"] := by decide
    have hmem := mem_of_spellsOne hkind (by decide)
    rw [hwords, mem_cons, mem_cons, mem_singleton] at hmem
    rcases hmem with rfl | rfl | rfl
    · exact .fixed ["var", " "] rfl
    · exact .fixed ["let", " "] rfl
    · exact .fixed ["const", " "] rfl
  · rw [printDeclarators, listWords]
    exact writes_items (printDeclaratorItems indent lvl) ", " (print indent lvl) false
      (fun _ => by rw [printDeclaratorItems]) (fun _ _ _ => by rw [printDeclaratorItems])
      (.fixed [",", " "] rfl) (follows_cons rfl) (by decide) fun d hd => h d hd lvl

theorem writes_declaration (hkind : SpellsOne declarationWords kind) (h : ∀ d ∈ ds, Prints indent lax d) :
    PrintsAs indent .declaration (.node i (.known .variableDeclaration) [.list ds, .text kind]) := by
  refine ⟨.inl ⟨rfl, fun lvl => ?_⟩, fun lvl => Gives.node ?_⟩
  · obtain ⟨hkey, hds⟩ := writes_declarators hkind h lvl
    obtain ⟨a, ha⟩ := hkey.consAny hds.one
    rw [printDeclaration, headWords]
    exact ⟨_, ha.marked i _ []⟩
  · obtain ⟨hkey, hds⟩ := writes_declarators hkind h lvl
    rw [printNode, nodeWords, append_assoc]
    exact hkey.consAny (hds.closed [";"] rfl)

theorem writes_statements (hindent : ∀ c ∈ indent, c.isBlank) (lvl : Nat)
    (h : ∀ t ∈ ts, Prints indent anything t) (first : Bool) :
    Gives (printStatements indent lvl first (.list ts)) (statementWords (.list ts)) anything := by
  rw [printStatements, statementWords]
  induction ts generalizing first with
  | nil =>
    rw [printStatementItems, statementItemWords]
    exact .empty
  | cons t ts ih =>
    have hrest := (h t mem_cons_self lvl).consAny (ih (fun t ht => h t (.tail _ ht)) false).one
    rw [printStatementItems, statementItemWords]
    cases first with
    | true => exact Gives.empty.consAny hrest
    | false => exact (Gives.newline hindent lvl).consAny hrest

theorem writes_block (hindent : ∀ c ∈ indent, c.isBlank) (h : ∀ t ∈ ts, Prints indent anything t) :
    Prints indent anything (.node i (.known .blockStatement) [.list ts]) := by
  refine fun lvl => Gives.node ?_
  have hts := writes_statements hindent (lvl + 1) h false
  rw [printNode, nodeWords]
  cases ts with
  | nil => exact .fixed ["\x7b", "\x7d"] rfl
  | cons t ts =>
    have hclose := (Gives.newline hindent lvl).consAny (Gives.fixed ["\x7d"] rfl).one
    exact .after ["\x7b"] rfl (hts.consAny hclose)

theorem writes_if (hindent : ∀ c ∈ indent, c.isBlank) (hc : WritesExpression indent c)
    (ha : Prints indent anything a) (hb : b = .null ∨ Prints indent anything b) (lvl : Nat) :
    Gives (printNode indent lvl .ifStatement [c, a, b]) (nodeWords .ifStatement [c, a, b]) anything := by
  have head {ps : List Pieces} {ws : List Word} (h : Gives (sequence ps) ws anything) :
      Gives (sequence (word "if (" :: print indent lvl c :: word ") " :: ps))
        (lexeme "if" :: lexeme "(" :: (words c ++ lexeme ")" :: ws)) anything :=
    .after ["if", " ", "("] rfl ((hc.lax lvl).before [")", " "] rfl h)
  rw [printNode, nodeWords]
  rcases hb with rfl | hb
  · exact head (ha lvl).one
  simp only [(hb lvl).not_null, Bool.false_eq_true, if_false]
  by_cases helse : takesElse a
  · simp only [helse, if_true]
    exact head (.after ["\x7b"] rfl ((Gives.newline hindent (lvl + 1)).consAny ((ha (lvl + 1)).consAny
      ((Gives.newline hindent lvl).consAny (.after ["\x7d", " ", "else", " "] rfl (hb lvl).one)))))
  · simp only [helse, Bool.false_eq_true, if_false]
    by_cases hblock : a.is .blockStatement
    · rw [if_pos hblock]
      exact head ((ha lvl).consAny (.after [" ", "else", " "] rfl (hb lvl).one))
    · rw [if_neg hblock]
      exact head ((ha lvl).consAny ((Gives.newline hindent lvl).consAny (.after ["else", " "] rfl (hb lvl).one)))

theorem writes_for {u : Tree} (hh : h = .null ∨ WritesHead indent h)
    (hc : c = .null ∨ WritesExpression indent c) (hu : u = .null ∨ WritesExpression indent u)
    (hb : Prints indent anything b) (lvl : Nat) :
    Gives (printNode indent lvl .forStatement [h, c, u, b]) (nodeWords .forStatement [h, c, u, b]) anything := by
  have hhead : Gives (if h.is .variableDeclaration then printDeclaration indent lvl h
      else if h.isNull then .ok []
      else parenthesized (.ok (isInOperation h)) (print indent lvl h))
      (if h.is .variableDeclaration then headWords h else enclosed (isInOperation h) (words h)) lax := by
    rcases hh with rfl | ⟨hd, hw⟩ | ⟨hd, hw⟩
    · exact Gives.empty.mono fun _ _ => rfl
    · simp only [hd, if_true]
      exact hw lvl
    · simp only [hd, (hw.lax lvl).not_null, Bool.false_eq_true, if_false]
      exact hw.gives ⟨_, rfl⟩ lvl
  rw [printNode, nodeWords]
  exact .after ["for", " ", "("] rfl (hhead.before [";"] rfl ((writes_optional hc lvl).before [";"] rfl
    ((writes_optional hu lvl).before [")", " "] rfl (hb lvl).one)))

theorem writes_forIn {l r : Tree} (hl : WritesHead indent l) (hr : WritesExpression indent r)
    (hb : Prints indent anything b) (lvl : Nat) :
    Gives (printNode indent lvl .forInStatement [l, r, b]) (nodeWords .forInStatement [l, r, b]) anything := by
  have hhead : Gives (if l.is .variableDeclaration then printDeclaration indent lvl l else print indent lvl l)
      (if l.is .variableDeclaration then headWords l else words l) lax := by
    rcases hl with ⟨hd, hw⟩ | ⟨hd, hw⟩
    · simp only [hd, if_true]
      exact hw lvl
    · simp only [hd, Bool.false_eq_true, if_false]
      exact hw.lax lvl
  rw [printNode, nodeWords]
  have hrest := (hr.lax lvl).before [")", " "] rfl (hb lvl).one
  exact .after ["for", " ", "("] rfl (hhead.before [" ", "in", " "] rfl hrest)

theorem writes_doWhile (hindent : ∀ c ∈ indent, c.isBlank) (hb : Prints indent anything b)
    (hc : WritesExpression indent c) (lvl : Nat) :
    Gives (printNode indent lvl .doWhileStatement [b, c]) (nodeWords .doWhileStatement [b, c]) anything := by
  have hrest := Gives.after ["while", " ", "("] rfl ((hc.lax lvl).closed [")", ";"] rfl)
  rw [printNode, nodeWords]
  by_cases hblock : b.is .blockStatement
  · rw [if_pos hblock]
    exact .after ["do", " "] rfl ((hb lvl).consAny (.after [" "] rfl hrest))
  · rw [if_neg hblock]
    exact .after ["do", " "] rfl ((hb lvl).consAny ((Gives.newline hindent lvl).consAny hrest))

theorem writes_try (hb : Prints indent anything b) (hh : h = .null ∨ Prints indent anything h)
    (hf : f = .null ∨ Prints indent anything f) (lvl : Nat) :
    Gives (printNode indent lvl .tryStatement [b, h, f]) (nodeWords .tryStatement [b, h, f]) anything := by
  have hhandler : Gives (if h.isNull then .ok [] else sequence [word " ", print indent lvl h]) (words h) anything := by
    rcases hh with rfl | hh
    · exact .empty
    · simp only [(hh lvl).not_null, Bool.false_eq_true, if_false]
      exact .after [" "] rfl (hh lvl).one
  have hfinal : Gives (if f.isNull then .ok [] else sequence [word " finally ", print indent lvl f])
      (if f.isNull then [] else lexeme "finally" :: words f) anything := by
    rcases hf with rfl | hf
    · exact .empty
    · simp only [(hf lvl).not_null, Bool.false_eq_true, if_false]
      exact .after [" ", "finally", " "] rfl (hf lvl).one
  rw [printNode, nodeWords]
  exact .after ["try", " "] rfl ((hb lvl).consAny (hhandler.consAny hfinal.one))

theorem writes_governed (first : List Text) {key : Word} (hfits : fits first)
    (hwords : wordsOf first = [key, lexeme "("]) (hc : WritesExpression indent c) (hb : Prints indent anything b)
    (lvl : Nat) : Gives (sequence [word first.flatten, print indent lvl c, word ") ", print indent lvl b])
      (key :: lexeme "(" :: (words c ++ lexeme ")" :: words b)) anything := by
  have := Gives.after first hfits ((hc.lax lvl).before [")", " "] rfl (hb lvl).one)
  rwa [hwords] at this

end ArrowFree.Printer

namespace ArrowFree.Formed

open Printer Token List

variable {K : Kind → Prop} {indent : Text} {p : Part} {t : Tree}

/-- **A well-formed tree is printed, and its code is read back word by word.** -/
theorem prints (hindent : ∀ c ∈ indent, c.isBlank) (h : Formed K p t) :
    PrintsAs indent p t := by
  have lists {ts : List Tree} (h : ∀ t ∈ ts, Formed K .expression t)
      (ih : ∀ t ∈ ts, PrintsAs indent .expression t) : GivesComma indent ts :=
    writes_comma ih fun t ht => ⟨_, (h t ht).looserThanAssignment_eq⟩
  have names {ts : List Tree} (h : ∀ t ∈ ts, Formed K .name t)
      (ih : ∀ t ∈ ts, PrintsAs indent .name t) : GivesComma indent ts := lists (fun t ht => .identifier (h t ht)) ih
  induction h with
  | absent => exact .inl rfl
  | present _ ih => exact .inr ih
  | name _ hx => exact writes_name (spellsOne_of_ident hx)
  | word _ hx => exact (writes_name hx).lax
  | wordKey _ ih => exact ih
  | literalKey _ hd =>
    obtain ⟨k, hk, hd⟩ := hd
    exact (writes_literal ⟨k, (by decide : keyTerminals ⊆ literalTerminals) hk, hd⟩).lax
  | identifier _ ih => exact ih
  | literal _ hd => exact writes_literal hd
  | this _ =>
    have hthis : Spells .this "this" := by decide
    refine writesExpression_of_tight fun lvl => ⟨'t', "his", ?_, by decide⟩
    exact writes_verbatim (x := "this") hthis fun d hd => by
      rw [runsInto_of_identStart hthis rfl (by decide), isIdentPart_of_laxOrPoint hd]
  | array _ h ih => exact writes_array (lists h ih)
  | object _ _ ih => exact writes_object hindent ih
  | @property _ key value _ _ hv ihk ihv =>
    refine fun lvl => Gives.node ?_
    have hvalue := WritesExpression.gives ihv ⟨_, hv.looserThanAssignment_eq⟩ lvl
    have haccessor : isAccessor (.text "init") = false := by decide
    have hshort : printsShort key value (.bool false) = false := rfl
    rw [printNode, nodeWords]
    simp only [haccessor, hshort, Bool.false_and, Bool.false_eq_true, if_false]
    exact (ihk lvl).before [":", " "] rfl hvalue.one
  | @shorthand _ j k x _ _ hx =>
    refine fun lvl => Gives.node ?_
    have hname : WritesExpression indent (.node k (.known .identifier) [.text x]) :=
      writes_name (spellsOne_of_ident hx)
    have haccessor : isAccessor (.text "init") = false := by decide
    have hshort : printsShort (.node j (.known .identifier) [.text x])
        (.node k (.known .identifier) [.text x]) (.bool true) := by
      simp [printsShort, Tree.attribute?, Tree.slot?, Tree.bool, Tree.truthy, Scalar.truthy, Tree.is,
        Tree.kind?, Kind.layout]
    rw [printNode, nodeWords]
    simp only [haccessor, hshort, Bool.false_and, Bool.false_eq_true, if_false, if_true]
    exact hname.lax lvl
  | function _ _ hps _ ihf ihp ihb =>
    refine writesExpression_of_tight fun lvl => ?_
    obtain ⟨a, ha⟩ := writes_function ihf (names hps ihp) ihb lvl
    exact ⟨'f', a, ha.mono fun _ _ => rfl, by decide⟩
  | arrowBlock _ hps hb ihp ihb =>
    refine writes_arrow (names hps ihp) fun lvl => ?_
    rw [hb.arrowParens_block]
    exact (ihb lvl).mono fun _ _ => rfl
  | arrow _ hps hb ihp ihb => exact writes_arrow (names hps ihp) (WritesExpression.gives ihb hb.arrowParens_ok)
  | @unary _ op _ _ hop h ih =>
    have hp := h.needsParens_unary (.text op) "argument"
    exact writes_unary hop ih (h.fuses_ok _) ⟨_, hp⟩ fun hh => by simpa [hp] using hh
  | @update _ op _ _ _ hop h ih =>
    have hp := h.expression_of_target.needsParens_update (.text op) "argument"
    exact writes_update hop ih ⟨_, hp⟩ fun hh => by simpa [hp] using hh
  | binary _ hop hl hr ihl ihr =>
    obtain ⟨n, hn, -, hle⟩ := binaryLevel_binary hop
    obtain ⟨k, -, hk⟩ := hop
    refine writes_operation (.inl rfl) hk ?_ ihl ihr (hl.needsParens_ok (fun _ => ⟨n, hn⟩) _)
      (hr.needsParens_ok (fun _ => ⟨n, hn⟩) _)
    simp only [level, precedence, hn, unaryLevel]
    omega
  | logical _ hop hl hr ihl ihr =>
    obtain ⟨n, hn, -, hle⟩ := binaryLevel_logical hop
    obtain ⟨k, -, hk⟩ := hop
    refine writes_operation (.inr (.inl rfl)) hk ?_ ihl ihr
      (hl.needsParens_ok (fun _ => ⟨n, hn⟩) _) (hr.needsParens_ok (fun _ => ⟨n, hn⟩) _)
    simp only [level, precedence, hn, unaryLevel]
    omega
  | assignment _ hop hl hr ihl ihr =>
    obtain ⟨k, -, hk⟩ := hop
    exact writes_operation (.inr (.inr rfl)) hk (show 1 < 14 by decide) ihl ihr
      (hl.expression_of_target.needsParens_ok (by simp) _) (hr.needsParens_ok (by simp) _)
  | conditional _ hc ha hb ihc iha ihb =>
    exact writes_conditional ihc iha ihb (hc.needsParens_ok (by simp) _)
      (ha.needsParens_ok (by simp) _) (hb.needsParens_ok (by simp) _)
  | call _ hf hts ihf ih =>
    have hp := hf.needsParens_call .null "callee"
    refine writes_call ihf ⟨_, hp⟩ (fun hh => ?_) (lists hts ih)
    simp only [hp, holds_ok, Bool.or_eq_false_iff, decide_eq_false_iff_not, Nat.not_lt] at hh
    exact hh.2
  | new _ hf hts ihf ih => exact writes_new ihf (hf.needsParens_ok (by simp) _) (lists hts ih)
  | member _ ho hp iho _ =>
    have hparens := ho.needsParens_member .null "object"
    cases hp with
    | word _ hx =>
      refine writes_member iho hx ⟨_, hparens⟩ fun hh => ?_
      simp only [hparens, holds_ok, Bool.or_eq_false_iff, decide_eq_false_iff_not, Nat.not_lt] at hh
      simp [isTight, hh.1.2, hh.2]
  | computed _ ho _ iho ihp =>
    have hparens := ho.needsParens_member .null "object"
    refine writes_computed iho ihp ⟨_, hparens⟩ fun hh => ?_
    simp only [hparens, holds_ok, Bool.or_eq_false_iff, decide_eq_false_iff_not, Nat.not_lt] at hh
    exact hh.2
  | @sequence _ ts _ hlen h ih =>
    cases ts with
    | nil => cases hlen
    | cons t ts => exact writes_sequence ih fun u hu => ⟨_, (h u hu).looserThanAssignment_eq⟩
  | target _ _ ih => exact ih
  | declarator _ _ he ihx ihe => exact writes_declarator ihx ihe fun hnode => ⟨_, by
      cases he with
      | absent => cases hnode
      | present he => exact he.looserThanAssignment_eq⟩
  | declaration _ hkind _ _ ih => exact writes_declaration hkind ih
  | block _ _ ih => exact writes_block hindent ih
  | blockStatement _ ih => exact ih
  | declarationStatement _ ih => exact ih.2
  | functionDeclaration _ _ hps _ ihf ihp ihb =>
    refine fun lvl => Gives.node ?_
    obtain ⟨a, ha⟩ := writes_function (.inr ihf) (names hps ihp) ihb lvl
    exact ⟨_, ha⟩
  | emptyStatement _ => exact fun _ => Gives.node (.fixed [";"] rfl)
  | expressionStatement _ he ih =>
    refine fun lvl => Gives.node ?_
    rw [printNode, nodeWords]
    exact (WritesExpression.gives ih (he.opensLikeStatement_ok true) lvl).closed [";"] rfl
  | returnStatement _ he ih =>
    refine fun lvl => Gives.node ?_
    rw [printNode, nodeWords]
    rcases ih with rfl | ih
    · exact .fixed ["return", ";"] rfl
    · have he := WritesExpression.lax ih lvl
      simp only [he.not_null, Bool.false_eq_true, if_false]
      exact .after ["return", " "] rfl (he.closed [";"] rfl)
  | throwStatement _ _ ih =>
    refine fun lvl => Gives.node ?_
    rw [printNode, nodeWords]
    exact .after ["throw", " "] rfl ((WritesExpression.lax ih lvl).closed [";"] rfl)
  | breakStatement _ => exact fun _ => Gives.node (.fixed ["break", ";"] rfl)
  | continueStatement _ => exact fun _ => Gives.node (.fixed ["continue", ";"] rfl)
  | ifStatement _ _ _ _ ihc iha ihb => exact fun lvl => (writes_if hindent ihc iha ihb lvl).node
  | initialDeclaration _ ih => exact ih.1
  | initialExpression h ih => exact .inr ⟨h.not_statement.2, ih⟩
  | forStatement _ _ _ _ _ ihi ihc ihu ihb => exact fun lvl => (writes_for ihi ihc ihu ihb lvl).node
  | iteratedDeclaration _ _ hkind _ ih =>
    refine (writes_declaration hkind fun d hd => ?_).1
    rw [mem_singleton.mp hd]
    exact writes_declarator ih (.inl rfl) fun hnull => by cases hnull
  | iteratedTarget h ih => exact .inr ⟨h.expression_of_target.not_statement.2, ih⟩
  | forInStatement _ _ _ _ ihl ihr ihb => exact fun lvl => (writes_forIn ihl ihr ihb lvl).node
  | whileStatement _ _ _ ihc ihb =>
    refine fun lvl => Gives.node ?_
    rw [printNode, nodeWords]
    exact writes_governed ["while", " ", "("] (by decide) rfl ihc ihb lvl
  | doWhileStatement _ _ _ ihb ihc => exact fun lvl => (writes_doWhile hindent ihb ihc lvl).node
  | handler _ _ _ ihx ihb =>
    refine fun lvl => Gives.node ?_
    rw [printNode, nodeWords]
    exact writes_governed ["catch", " ", "("] (by decide) rfl ihx ihb lvl
  | tryStatement _ _ _ _ _ ihb ihh ihf => exact fun lvl => (writes_try ihb ihh ihf lvl).node
  | program _ _ ih =>
    refine fun lvl => Gives.node ?_
    rw [printNode, nodeWords]
    exact writes_statements hindent lvl ih true

end ArrowFree.Formed
