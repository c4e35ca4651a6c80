import ArrowFree.Proofs.OutermostElse

/-!
# Where a brace opens a block

A brace can open a block or an object, and the priority of blocks decides between them. Where the tokens of
a statement or of an arrow's body could be a block, anything else that they could be is a lone object: the
brace that comes first is closed by the last token only (`Enclosed.eq_nil`), so nothing follows the object
(`object_of_derives`). The object has no keys, because a colon that no question mark waits for does not
occur in a block (`listed_of_derives`), and hence the score zero. The block wins (`block_of_braces`).

Where no block is possible, the brace opens an object, also at the start of a statement or of an arrow's
body (`object_of_braces`).
-/

namespace ArrowFree.Script

open Grammar Token
open List hiding lex

variable {st st' : List Terminal} {file : Text}

/-! ## Nesting -/

variable {ts : List Token} {d e : Deriv}
  {ds : List Deriv} {p : Rule}

/-- What is open after a terminal: brackets, and question marks that wait for their colons. A colon where
a brace is open belongs to a property. -/
def pass : Terminal → List Terminal → Option (List Terminal)
  | .openBrace, st => some (.openBrace :: st)
  | .openParen, st => some (.openParen :: st)
  | .openBracket, st => some (.openBracket :: st)
  | .question, st => some (.question :: st)
  | .closeBrace, .openBrace :: st => some st
  | .closeParen, .openParen :: st => some st
  | .closeBracket, .openBracket :: st => some st
  | .colon, .question :: st => some st
  | .colon, .openBrace :: st => some (.openBrace :: st)
  | .closeBrace, _ | .closeParen, _ | .closeBracket, _ | .colon, _ => none
  | _, st => some st

/-- What is open after some terminals. -/
def passAll : List Terminal → List Terminal → Option (List Terminal)
  | [], st => some st
  | a :: as, st => (pass a st).bind (passAll as)

theorem passAll_append (as bs st : List Terminal) :
    passAll (as ++ bs) st = (passAll as st).bind (passAll bs) := by
  induction as generalizing st with
  | nil => rfl
  | cons a as ih =>
    rw [cons_append, passAll, passAll]
    cases pass a st with
    | none => rfl
    | some st' => exact ih st'

theorem pass_under {a : Terminal} (h : pass a st = some st') (below : List Terminal) :
    pass a (st ++ below) = some (st' ++ below) := by
  unfold pass at h
  split at h
  all_goals cases h
  all_goals first
    | rfl
    | simp_all [pass]

theorem passAll_under {as : List Terminal} (h : passAll as st = some st') (below : List Terminal) :
    passAll as (st ++ below) = some (st' ++ below) := by
  induction as generalizing st with
  | nil =>
    cases h
    rfl
  | cons a as ih =>
    obtain ⟨st₁, hst₁, h⟩ := Option.bind_eq_some_iff.mp h
    rw [passAll, pass_under hst₁]
    exact ih h

/-- What a symbol needs to be open: properties stand in braces. -/
def needs : Nonterminal → List Terminal
  | .property | .properties => [.openBrace]
  | _ => []

/-- What is open after some symbols, if a nonterminal leaves open what it needs. -/
def passSymbols : List Sym → List Terminal → Option (List Terminal)
  | [], st => some st
  | .terminal a :: ss, st => (pass a st).bind (passSymbols ss)
  | .nonterminal n :: ss, st => if needs n <+: st then passSymbols ss st else none

theorem nested_rules : ∀ p ∈ grammar.productions,
    passSymbols p.body (needs p.head) = some (needs p.head) := by
  decide +kernel

mutual

theorem passAll_of_derives {n : Nonterminal} {d : Deriv}
    {ts : List Token} : grammar.Derives (.nonterminal n) d ts →
      passAll (ts.map Token.terminal) (needs n) = some (needs n)
  | .branch hp hds => passAll_of_derivesAll hds (nested_rules _ hp)

theorem passAll_of_derivesAll {ss : List Sym} {ds : List Deriv}
    {ts : List Token} {st st' : List Terminal} : grammar.DerivesAll ss ds ts →
      passSymbols ss st = some st' → passAll (ts.map Token.terminal) st = some st'
  | .nil, h => h
  | .cons (s := .terminal a) hd hds, h => by
    obtain ⟨t, rfl, -, rfl⟩ := derives_terminal hd
    obtain ⟨st₁, hst₁, h⟩ := Option.bind_eq_some_iff.mp h
    exact Option.bind_eq_some_iff.mpr ⟨st₁, hst₁, passAll_of_derivesAll hds h⟩
  | .cons (s := .nonterminal n) hd hds, h => by
    rw [passSymbols] at h
    split at h
    · next hneeds =>
      obtain ⟨below, rfl⟩ := hneeds
      rw [map_append, passAll_append, passAll_under (passAll_of_derives hd)]
      exact passAll_of_derivesAll hds h
    · cases h

end

/-! ## Braces -/

/-- A brace, something that closes what it opens, and the closing brace. -/
def Enclosed (as : List Terminal) : Prop :=
  ∃ mid, as = .openBrace :: (mid ++ [.closeBrace]) ∧ passAll mid [] = some []

/-- Only the whole of it closes the brace. -/
theorem Enclosed.eq_nil {us vs : List Terminal} (h : Enclosed (us ++ vs)) (hne : us ≠ [])
    (hus : passAll us [] = some []) : vs = [] := by
  obtain ⟨mid, heq, hmid⟩ := h
  obtain ⟨a, us, rfl⟩ := exists_cons_of_ne_nil hne
  obtain ⟨rfl, hrest⟩ := List.cons.inj heq
  rcases eq_nil_or_concat' vs with rfl | ⟨vs, b, rfl⟩
  · rfl
  · -- the brace is still open behind `us`
    obtain ⟨rfl, -⟩ := append_inj' ((append_assoc ..).trans hrest) rfl
    rw [passAll_append] at hmid
    obtain ⟨st, hst, -⟩ := Option.bind_eq_some_iff.mp hmid
    have hopen : passAll us [.openBrace] = some (st ++ [.openBrace]) := passAll_under hst _
    have hclosed : passAll us [.openBrace] = some [] := hus
    rw [hopen] at hclosed
    simp at hclosed

/-- Symbols between braces. -/
def braced (ss : List Sym) : List Sym := .terminal .openBrace :: (ss ++ [.terminal .closeBrace])

theorem derivesAll_braced {ss : List Sym} (h : grammar.DerivesAll (braced ss) ds ts) :
    ∃ es us, grammar.DerivesAll ss es us ∧ Derivation.scores ds = Derivation.scores es ∧
      ts.map Token.terminal = .openBrace :: (us.map Token.terminal ++ [.closeBrace]) := by
  obtain _ | ⟨hopen, hrest⟩ := h
  obtain ⟨es, _, us, _, rfl, rfl, hes, hlast⟩ := derivesAll_split hrest
  obtain _ | ⟨hclose, _ | _⟩ := hlast
  obtain ⟨a, ha, rfl, rfl⟩ := derives_terminal hopen
  obtain ⟨b, hb, rfl, rfl⟩ := derives_terminal hclose
  refine ⟨es, us, hes, ?_, ?_⟩
  · simp [Derivation.scores, Derivation.scores_append, Derivation.score]
  · have ha : a.terminal = .openBrace := ha
    have hb : b.terminal = .closeBrace := hb
    simp [ha, hb]

theorem block_rules : ∀ p ∈ grammar.productions, p.head = .block →
    p.action = .block ∧ p.priority = 2 ∧ p.body = braced p.body.tail.dropLast ∧
      passSymbols p.body.tail.dropLast [] = some [] := by
  decide +kernel

theorem enclosed_of_block (h : grammar.Derives (.nonterminal .block) d ts) :
    Enclosed (ts.map Token.terminal) ∧ 2 ≤ d.score := by
  obtain ⟨p, ds, hp, hhead, rfl, hds⟩ := derives_nonterminal h
  obtain ⟨-, hpriority, hbody, hinner⟩ := block_rules p hp hhead
  rw [hbody] at hds
  obtain ⟨es, us, hes, -, hts⟩ := derivesAll_braced hds
  refine ⟨⟨_, hts, passAll_of_derivesAll hes hinner⟩, ?_⟩
  rw [Derivation.score, hpriority]
  omega

theorem ne_nil_of_block (h : grammar.Derives (.nonterminal .block) d ts) : ts ≠ [] := by
  rintro rfl
  obtain ⟨⟨mid, hmid, -⟩, -⟩ := enclosed_of_block h
  cases hmid

/-! ## Objects that could be blocks -/

/-- The symbols of an object without keys: names and commas. -/
def isListed : Sym → Bool
  | .nonterminal .properties | .nonterminal .property | .terminal .comma | .terminal .ident => true
  | _ => false

/-- A property is a name, or its colon follows one symbol. -/
theorem property_rules : ∀ p ∈ grammar.productions, isListed (.nonterminal p.head) →
    p.priority = 0 ∧ ((∀ s ∈ p.body, isListed s) ∨
      (p.body.drop 1).head? = some (.terminal .colon) ∧ passSymbols (p.body.take 1) [] = some []) := by
  decide +kernel

mutual

/-- A colon where nothing is open is out of place, so properties without one are names. -/
theorem listed_of_derives {s : Sym} {d : Deriv} {ts : List Token}
    {st : List Terminal} (hs : isListed s) (h : passAll (ts.map Token.terminal) [] = some st) :
    grammar.Derives s d ts → d.score = 0 ∧ st = []
  | .leaf t => by
    have hpass : pass t.terminal [] = some [] := by
      have hs : isListed (.terminal t.terminal) := hs
      generalize t.terminal = a at hs
      cases a <;> first | rfl | cases hs
    have h : (pass t.terminal []).bind some = some st := h
    rw [hpass] at h
    exact ⟨rfl, (Option.some.inj h).symm⟩
  | .branch (p := p) hp hds => by
    obtain ⟨hpriority, hlisted | ⟨hcolon, hfirst⟩⟩ := property_rules p hp hs
    · obtain ⟨hscores, hst⟩ := listed_of_derivesAll hlisted h hds
      exact ⟨by rw [Derivation.score, hscores, hpriority], hst⟩
    · obtain ⟨rest, hrest⟩ := head?_eq_some_iff.mp hcolon
      rw [← take_append_drop 1 p.body, hrest] at hds
      obtain ⟨_, _, us, _, rfl, rfl, hus, hds⟩ := derivesAll_split hds
      obtain _ | ⟨hleaf, -⟩ := hds
      obtain ⟨c, hc, -, rfl⟩ := derives_terminal hleaf
      have hc : c.terminal = .colon := hc
      rw [map_append, passAll_append, passAll_of_derivesAll hus hfirst] at h
      simp [passAll, hc, pass] at h

theorem listed_of_derivesAll {ss : List Sym} {ds : List Deriv}
    {ts : List Token} {st : List Terminal} (hss : ∀ s ∈ ss, isListed s)
    (h : passAll (ts.map Token.terminal) [] = some st) :
    grammar.DerivesAll ss ds ts → Derivation.scores ds = 0 ∧ st = []
  | .nil => ⟨rfl, (Option.some.inj h).symm⟩
  | .cons hd hds => by
    obtain ⟨hs, hss⟩ := forall_mem_cons.mp hss
    rw [map_append, passAll_append] at h
    obtain ⟨st₁, hst₁, h⟩ := Option.bind_eq_some_iff.mp h
    obtain ⟨hscore, rfl⟩ := listed_of_derives hs hst₁ hd
    obtain ⟨hscores, hst⟩ := listed_of_derivesAll hss h hds
    exact ⟨by rw [Derivation.scores, hscore, hscores], hst⟩

end

theorem object_rules : ∀ p ∈ grammar.productions, p.head = .objectLiteral →
    p.priority = 0 ∧ p.body = braced p.body.tail.dropLast ∧
      ∀ s ∈ p.body.tail.dropLast, isListed s := by
  decide +kernel

theorem object_inner (h : grammar.Derives (.nonterminal .objectLiteral) d ts) :
    ∃ ss es us, (∀ s ∈ ss, isListed s) ∧ grammar.DerivesAll ss es us ∧
      d.score = Derivation.scores es ∧
      ts.map Token.terminal = .openBrace :: (us.map Token.terminal ++ [.closeBrace]) := by
  obtain ⟨p, ds, hp, hhead, rfl, hds⟩ := derives_nonterminal h
  obtain ⟨hpriority, hbody, hlisted⟩ := object_rules p hp hhead
  rw [hbody] at hds
  obtain ⟨es, us, hes, hscores, heq⟩ := derivesAll_braced hds
  exact ⟨_, es, us, hlisted, hes, by rw [Derivation.score, hscores, hpriority, Nat.add_zero], heq⟩

/-- An object that could be a block has no keys, and nothing with a priority. -/
theorem score_of_object (h : grammar.Derives (.nonterminal .objectLiteral) d ts)
    (hts : Enclosed (ts.map Token.terminal)) : d.score = 0 := by
  obtain ⟨ss, es, us, hlisted, hes, hscore, heq⟩ := object_inner h
  obtain ⟨mid, hmid, hpass⟩ := hts
  obtain ⟨-, hmid⟩ := List.cons.inj (heq.symm.trans hmid)
  obtain rfl := append_cancel_right hmid
  rw [hscore, (listed_of_derivesAll hlisted hpass hes).1]

/-! ## What begins with a brace -/

/-- Nonterminals that begin with a brace only as an object does. -/
def objectFirst : List Nonterminal :=
  [.arrayLiteral, .functionExpression, .primary, .callMember, .suffixed, .unary, .multiplicative, .additive,
   .shift, .relational, .equality, .bitwiseAnd, .bitwiseXor, .bitwiseOr, .logicalAnd, .logicalOr,
   .conditional, .arrowParameters, .arrowFunction, .assignment, .expression, .varKind, .varDeclaration,
   .tail] ++ statementSorts.erase .block

theorem objectFirst_rules : ∀ p ∈ grammar.productions, p.head ∈ objectFirst → (match p.body with
      | [] => false
      | .terminal a :: _ => decide (a ≠ .openBrace)
      | .nonterminal n :: rest =>
        decide (p.priority = 0 ∧ (n = .objectLiteral ∨ n ∈ objectFirst)) &&
        (match rest with
          | .nonterminal m :: _ => ! canBeEmpty m
          | _ => true)) = true := by
  decide +kernel

theorem eq_nil_of_derivesAll_nil (hp : p ∈ grammar.productions) (hhead : p.head ∈ objectFirst) {n : Nonterminal}
    {rest : List Sym} (hbody : p.body = .nonterminal n :: rest) (h : grammar.DerivesAll rest ds []) : rest = [] := by
  have hrule := objectFirst_rules p hp hhead
  cases rest with
  | nil => rfl
  | cons s rest =>
    generalize hts : ([] : List Token) = ts at h
    cases h with
    | cons hd hds =>
      obtain ⟨m, rfl, hempty⟩ :=
        empty?_of_derives noEmptyStart (append_eq_nil_iff.mp hts.symm).1 hd
      simp [hbody, canBeEmpty_of_empty? hempty] at hrule

/-- **What begins with a brace begins with an object**, and is that object if nothing follows it. -/
theorem object_of_derives {n : Nonterminal} {d : Deriv}
    {ts : List Token} (hn : n ∈ objectFirst) (hts : (ts.map Token.terminal).head? = some .openBrace)
    (h : grammar.Derives (.nonterminal n) d ts) :
    ∃ o us vs, grammar.Derives (.nonterminal .objectLiteral) o us ∧ ts = us ++ vs ∧
      (vs = [] → d.score = o.score) := by
  obtain ⟨p, ds, hp, rfl, rfl, hds⟩ := derives_nonterminal h
  have hrule := objectFirst_rules p hp hn
  match hbody : p.body with
  | [] => simp [hbody] at hrule
  | .terminal a :: rest =>
    rw [hbody] at hds
    obtain _ | ⟨hleaf, -⟩ := hds
    obtain ⟨t, ht, -, rfl⟩ := derives_terminal hleaf
    have ht : t.terminal = a := ht
    simp_all
  | .nonterminal m :: rest =>
    rw [hbody] at hds
    obtain _ | ⟨hd, hds⟩ := hds
    rename_i d ds us vs
    have hfirst : (us.map Token.terminal).head? = some .openBrace := by
      cases us with
      | nil =>
        obtain ⟨_, hm, hempty⟩ := empty?_of_derives noEmptyStart rfl hd
        cases hm
        rw [noEmptyStart p hp m (by rw [hbody]; rfl)] at hempty
        cases hempty
      | cons u us => exact hts
    simp only [hbody, Bool.and_eq_true, decide_eq_true_eq] at hrule
    obtain ⟨⟨hpriority, hm⟩, -⟩ := hrule
    have hunit : vs = [] → (Derivation.branch p (d :: ds)).score = d.score := by
      rintro rfl
      obtain rfl := eq_nil_of_derivesAll_nil hp hn hbody hds
      cases hds
      simp [Derivation.score, Derivation.scores, hpriority]
    rcases hm with rfl | hm
    · exact ⟨d, us, vs, hd, rfl, hunit⟩
    · obtain ⟨o, us, ws, ho, rfl, hscore⟩ := object_of_derives hm hfirst hd
      refine ⟨o, us, ws ++ vs, ho, append_assoc .., fun hnil => ?_⟩
      obtain ⟨hws, hvs⟩ := append_eq_nil_iff.mp hnil
      exact (hunit hvs).trans (hscore hws)
termination_by sizeOf d

/-- **Where a block is possible, anything else has a smaller score.** -/
theorem score_lt_block {n : Nonterminal} (hn : n ∈ objectFirst) (hd : grammar.Derives (.nonterminal n) d ts)
    (he : grammar.Derives (.nonterminal .block) e ts) : d.score < e.score := by
  obtain ⟨henclosed, hscore⟩ := enclosed_of_block he
  obtain ⟨mid, hmid, -⟩ := id henclosed
  obtain ⟨o, us, vs, ho, rfl, hsame⟩ := object_of_derives hn (by rw [hmid]; rfl) hd
  rw [map_append] at henclosed
  have hne : us.map Token.terminal ≠ [] := by
    obtain ⟨_, _, _, -, -, -, heq⟩ := object_inner ho
    rw [heq]
    nofun
  have hvs : vs = [] := map_eq_nil_iff.mp (henclosed.eq_nil hne (passAll_of_derives ho))
  subst hvs
  rw [map_nil, append_nil] at henclosed
  rw [hsame rfl, score_of_object ho henclosed]
  omega

/-! ## The last statement -/

/-- The symbols with one more statement at the end. -/
def grow (front : List Sym) : List Sym :=
  (if front.getLast? = some (.nonterminal .statements) then front.dropLast else front) ++
    [.nonterminal .statements]

/-- Where a last statement without semicolon may stand, a statement may. -/
theorem tail_rules : ∀ p ∈ grammar.productions, ∀ i < p.body.length,
    p.body[i]? = some (.nonterminal .tail) →
      { p with body := grow (p.body.take i) ++ p.body.drop (i + 1) } ∈ grammar.productions := by
  decide +kernel

theorem derives_grow {front : List Sym} {us : List Token} (h : grammar.DerivesAll front ds us)
    (he : grammar.Derives (.nonterminal .block) e ts) :
    ∃ es, grammar.DerivesAll (grow front) es (us ++ ts) ∧
      Derivation.scores es = Derivation.scores ds + e.score := by
  obtain ⟨p, cs, hp, hhead, rfl, hcs⟩ := derives_nonterminal he
  obtain ⟨d, hd, hscore⟩ := derives_statement hp (by rw [hhead]; decide) hcs
  unfold grow
  split
  · next hlast =>
    obtain ⟨front, rfl⟩ := getLast?_eq_some_iff.mp hlast
    rw [dropLast_concat]
    obtain ⟨ds, _, us, _, rfl, rfl, hds, hrest⟩ := derivesAll_split h
    obtain _ | ⟨hs, _ | _⟩ := hrest
    rename_i s vs
    have hmore : endingRule .statements [.nonterminal .statements] .inline ∈ grammar.productions := by decide
    have hboth := Derives.branch hmore (derivesAll_concat (.cons hs .nil) hd)
    rw [append_assoc us]
    refine ⟨_, derivesAll_concat hds hboth, ?_⟩
    simp only [Derivation.scores_append, Derivation.scores, Derivation.score, endingRule, hscore]
    omega
  · have hone : endingRule .statements [] .inline ∈ grammar.productions := by decide
    refine ⟨_, derivesAll_concat h (.branch hone (derivesAll_concat .nil hd)), ?_⟩
    simp only [Derivation.scores_append, Derivation.scores, Derivation.score, endingRule, hscore]
    omega

/-- **No last statement without semicolon could be a block**: with the block among the statements before
it, what holds it would have a greater score. -/
theorem not_block_of_tail (hd : grammar.Derives (.nonterminal .program) d ts)
    (hpreferred : ∀ p ds, (Derivation.branch p ds).Within d → grammar.Preferred p ds)
    (hpart : (Derivation.branch p ds).Within d) (hhead : p.head = .tail)
    (e : Deriv) :
    ¬ grammar.Derives (.nonterminal .block) e (Derivation.tokensOf ds) := by
  intro he
  rcases eq_or_parent_of_within hpart with rfl | ⟨q, es, hq, hmem⟩
  · obtain ⟨_, _, -, hprogram, heq, -⟩ := derives_nonterminal hd
    cases heq
    cases hhead.symm.trans hprogram
  · obtain ⟨hqmem, hes⟩ := derivesAll_of_within hd hq
    obtain ⟨ss₁, s', ss₂, ds₁, ds₂, ts₁, us, ts₂, hbody, rfl, hts, h₁, hpart, h₂⟩ :=
      derivesAll_of_mem hes hmem
    have hus : Derivation.tokensOf ds = us := tokens_eq hpart
    rw [hus] at he
    obtain _ | ⟨hp, hds⟩ := hpart
    have htail : grammar.Derives (.nonterminal .tail) (.branch p ds) us := hhead ▸ Derives.branch hp hds
    have hlt := score_lt_block (by decide) htail he
    obtain ⟨fs, hfs, hscores⟩ := derives_grow h₁ he
    have hrule := tail_rules q hqmem ss₁.length (by simp [hbody]) (by simp [hbody, hhead])
    rw [hbody, take_left, drop_length_add_append] at hrule
    have hrival := derivesAll_append hfs h₂
    rw [append_assoc, ← hts] at hrival
    have hne : Derivation.tokensOf (ds₁ ++ .branch p ds :: ds₂) ≠ [] := by
      simp [hts, ne_nil_of_block he]
    have hle := (hpreferred q _ hq).score_le hne hrule rfl hrival
    simp only [Derivation.score, Derivation.scores_append, Derivation.scores] at hle hlt
    omega

/-! ## Scripts -/

theorem choice_rules : ∀ p ∈ grammar.productions, p.head = .arrowBody ∨ p.head = .statement →
    choiceRule p.head .block ∈ grammar.productions ∧
      (match p.body with
        | [.nonterminal n] => decide (p = choiceRule p.head n ∧ (n = .block ∨ n ∈ objectFirst))
        | _ => false) = true := by
  decide +kernel

/-- **What could be a block is one**: another choice has a smaller score. -/
theorem eq_choiceRule_of_preferred (hp : p ∈ grammar.productions) (hhead : p.head = .arrowBody ∨ p.head = .statement)
    (hds : grammar.DerivesAll p.body ds (Derivation.tokensOf ds)) (hpreferred : grammar.Preferred p ds)
    (he : grammar.Derives (.nonterminal .block) e (Derivation.tokensOf ds)) : p = choiceRule p.head .block := by
  obtain ⟨hblock, hrule⟩ := choice_rules p hp hhead
  split at hrule
  · next n hbody =>
    obtain ⟨heq, rfl | hn⟩ := of_decide_eq_true hrule
    · exact heq
    · have hle := hpreferred.score_le (ne_nil_of_block he) hblock rfl (derivesAll_concat .nil he)
      have hpriority : p.priority = 0 := congrArg Production.priority heq
      rw [hbody] at hds
      generalize Derivation.tokensOf ds = ts at hds he
      obtain _ | ⟨hd, _ | _⟩ := hds
      rw [append_nil] at he
      have hlt := score_lt_block hn hd he
      simp only [Derivation.score, Derivation.scores, nil_append, choiceRule, hpriority] at hle
      omega
  · cases hrule

theorem is_block_of_build (hd : grammar.Derives (.nonterminal .block) d ts) {b : Built}
    (hb : build file d = .ok b) : ∃ t, b.trees = [t] ∧ t.is .blockStatement := by
  obtain ⟨p, ds, hp, hhead, rfl, -⟩ := derives_nonterminal hd
  have hform : p.action = .block := (block_rules p hp hhead).1
  obtain ⟨parts, -, hassembled⟩ := build_branch_ok hb (by rw [hform]; nofun)
  rw [hform] at hassembled
  exact ⟨_, (Except.ok.inj hassembled).symm, rfl⟩

/-- **Where a block is possible, a brace opens one**: a statement or the body of an arrow whose tokens could
be a block is a block, and they are not left to a last statement without semicolon. -/
theorem block_of_braces {source : Text} (h : derive file source = .ok d)
    (hpart : (Derivation.branch p ds).Within d)
    (he : grammar.Derives (.nonterminal .block) e (Derivation.tokensOf ds)) :
    p.head ≠ .tail ∧ (p.head = .arrowBody ∨ p.head = .statement → ∀ b,
      build file (.branch p ds) = .ok b → ∃ t, b.trees = [t] ∧ t.is .blockStatement) := by
  have hparse := parse_of_derive h
  have hd : grammar.Derives (.nonterminal .program) d (lex source).tokens := derives_of_parse hparse
  have hpreferred (q : Rule) (es : List Deriv) :
      (Derivation.branch q es).Within d → grammar.Preferred q es := parse_preferred orderly hparse
  refine ⟨fun htail => not_block_of_tail hd hpreferred hpart htail e he, fun hhead b hb => ?_⟩
  obtain ⟨hp, hds⟩ := derivesAll_of_within hd hpart
  have heq := eq_choiceRule_of_preferred hp hhead hds (hpreferred p ds hpart) he
  rw [heq] at hds
  generalize Derivation.tokensOf ds = ts at hds
  obtain _ | ⟨hblock, _ | _⟩ := hds
  obtain ⟨b', hb', htrees⟩ := build_inline (congrArg Production.action heq) hb
  rw [htrees]
  exact is_block_of_build hblock hb'

/-- A brace opens an object where no block is possible: a key and its colon are no statement. -/
theorem object_of_braces : let name (x : Text) : Tree := .node {} (.known .identifier) [.text x]
    let object : Tree := .node {} (.known .objectExpression) [.list [.node {} (.known .property)
      [name "a", .node {} (.known .literal) [.scalar (.int 1), .text "1"], .bool false, .bool false,
        .text "init"]]]
    let program (t : Tree) : Tree :=
      .node {} (.known .program) [.list [.node {} (.known .expressionStatement) [t]]]
    (∃ t, parse "a.js" "x=>{a:1}" = .ok t ∧ t.bare = program
      (.node {} (.known .arrowFunctionExpression) [.list [name "x"], object, .bool true])) ∧
    ∃ t, parse "a.js" "{a:1}" = .ok t ∧ t.bare = program object :=
  ⟨exists_of_map (by decide +kernel), exists_of_map (by decide +kernel)⟩

end ArrowFree.Script
