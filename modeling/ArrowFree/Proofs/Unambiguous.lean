import ArrowFree.Proofs.Charts
import Mathlib.Data.List.Chain

/-!
# Grammars with one derivation for each sentence

A derivation is built up from its first token: the token is the left corner of a production, the
production is the left corner of another one, and so on up to the goal. Each step reads the rest of a
body from left to right. Where the production of each step can be told from the goal, the left corner,
and one terminal behind what two productions have in common, a sentence has at most one derivation
(`Suits.unambiguous`). What a check of this has to know about the grammar is a table of terminals
(`Surroundings`), and the table can be checked production by production.

Productions that no derivation of given tokens can use do not count: `derives_restrict` takes a
derivation to a smaller grammar.
-/

namespace ArrowFree.Grammar

open List

variable {κ τ ν α : Type} {G : Grammar κ τ ν α} {s : Symbol τ ν} {as bs : List τ}

/-! ## Left corners -/

/-- `G.Climbs g e s d us`: the derivation `d` of the symbol `s` is the left corner of the derivation
`e` of `g`, and `us` are the tokens behind it. -/
inductive Climbs (G : Grammar κ τ ν α) (g : Symbol τ ν) (e : Derivation κ τ ν α) :
    Symbol τ ν → Derivation κ τ ν α → List κ → Prop where
  | refl : Climbs G g e g e []
  | step {p : Production τ ν α} {s : Symbol τ ν} {rest : List (Symbol τ ν)}
      {d : Derivation κ τ ν α} {ds : List (Derivation κ τ ν α)} {us vs : List κ} :
      p ∈ G.productions → p.body = s :: rest → G.DerivesAll rest ds us →
      Climbs G g e (.nonterminal p.head) (.branch p (d :: ds)) vs → Climbs G g e s d (us ++ vs)

theorem Climbs.trans {g s' : Symbol τ ν} {e f d : Derivation κ τ ν α} {us vs : List κ}
    (h : G.Climbs s' f s d us) (h' : G.Climbs g e s' f vs) : G.Climbs g e s d (us ++ vs) := by
  induction h with
  | refl => exact h'
  | step hp hbody hds _ ih =>
    rw [append_assoc]
    exact .step hp hbody hds ih

/-! ## What stands around a symbol -/

/-- Tables of terminals for a grammar. -/
structure Surroundings (τ ν : Type) where
  /-- The nonterminals that are looked for. -/
  goals : List ν
  /-- What a nonterminal can begin with. -/
  first : ν → List τ
  /-- What can come behind a nonterminal. -/
  follow : ν → List τ
  /-- What can come behind a goal that stands behind something else in a body. -/
  stop : ν → List τ
  /-- Whether the first can be a left corner of the second. -/
  opens : ν → ν → Bool

/-- The tokens are at an end or go on with one of some terminals. -/
def GoesOn (G : Grammar κ τ ν α) (as : List τ) (ts : List κ) : Prop :=
  ∀ t ∈ ts.head?, G.terminal t ∈ as

theorem GoesOn.mono {ts : List κ} (h : G.GoesOn as ts) (hab : as ⊆ bs) :
    G.GoesOn bs ts := fun t ht => hab (h t ht)

namespace Surroundings

variable [DecidableEq τ] [DecidableEq ν] [DecidableEq α] (S : Surroundings τ ν)

def firsts : Symbol τ ν → List τ
  | .terminal a => [a]
  | .nonterminal n => S.first n

/-- What the rest of a body begins with; `after` is what comes behind the body. -/
def next (after : List τ) : List (Symbol τ ν) → List τ
  | [] => after
  | s :: _ => S.firsts s

def disjoint (as bs : List τ) : Bool := as.all fun a => ! bs.contains a

/-- The nonterminals of the rest of a body are goals, and what follows them stops them. -/
def chained (after : List τ) : List (Symbol τ ν) → Bool
  | [] => true
  | .terminal _ :: rest => chained after rest
  | .nonterminal n :: rest =>
    S.goals.contains n && (S.next after rest).all (S.stop n).contains && chained after rest

/-- The rests of two bodies can be told apart by what follows their common part. -/
def diverge (after after' : List τ) : List (Symbol τ ν) → List (Symbol τ ν) → Bool
  | s :: rest, s' :: rest' =>
    if s = s' then diverge after after' rest rest' else disjoint (S.firsts s) (S.firsts s')
  | [], [] => false
  | rest, rest' => disjoint (S.next after rest) (S.next after' rest')

/-- What the tables say agrees with a production. -/
def agrees (p : Production τ ν α) : Bool :=
  match p.body with
  | [] => false
  | .terminal a :: rest => (S.first p.head).contains a && S.chained (S.follow p.head) rest
  | .nonterminal n :: rest =>
    (S.first n).all (S.first p.head).contains && S.chained (S.follow p.head) rest &&
    (S.next (S.follow p.head) rest).all (S.follow n).contains &&
    (S.goals.all fun g => ! S.opens p.head g || S.opens n g) &&
    -- a goal that has been reached is not the left corner of a greater one
    (! S.opens p.head n || (! rest.isEmpty && disjoint (S.next [] rest) (S.stop n)))

/-- The productions do not compete for a left corner. -/
def separates (p q : Production τ ν α) : Bool :=
  p = q || p.body.head? ≠ q.body.head? ||
  (S.goals.all fun g => ! (S.opens p.head g && S.opens q.head g)) ||
  S.diverge (S.follow p.head) (S.follow q.head) p.body.tail q.body.tail

/-- The tables are right for a grammar, and tell its productions apart. -/
structure Suits (G : Grammar κ τ ν α) : Prop where
  opens_self : ∀ n ∈ S.goals, S.opens n n = true
  stop_subset : ∀ n ∈ S.goals, S.stop n ⊆ S.follow n
  agrees : ∀ p ∈ G.productions, S.agrees p = true
  separates : ∀ p ∈ G.productions, ∀ q ∈ G.productions, S.separates p q = true

instance (G : Grammar κ τ ν α) : Decidable (S.Suits G) :=
  decidable_of_iff
    ((∀ n ∈ S.goals, S.opens n n = true) ∧ (∀ n ∈ S.goals, S.stop n ⊆ S.follow n) ∧
      (∀ p ∈ G.productions, S.agrees p = true) ∧
      ∀ p ∈ G.productions, ∀ q ∈ G.productions, S.separates p q = true)
    ⟨fun ⟨hself, hstop, hagrees, hseparates⟩ => ⟨hself, hstop, hagrees, hseparates⟩,
      fun ⟨hself, hstop, hagrees, hseparates⟩ => ⟨hself, hstop, hagrees, hseparates⟩⟩

variable {S}

theorem not_mem_of_disjoint (h : disjoint as bs) {a : τ} (ha : a ∈ as) : a ∉ bs := by
  have := all_eq_true.mp h a ha
  simpa using this

theorem subset_of_all (h : as.all bs.contains) : as ⊆ bs := by
  intro a ha
  simpa using all_eq_true.mp h a ha

/-! ## What the tables say -/

namespace Suits

variable (hS : S.Suits G) {p : Production τ ν α} {n : ν} {s : Symbol τ ν} {rest : List (Symbol τ ν)}
include hS

theorem body_ne_nil (hp : p ∈ G.productions) : p.body ≠ [] := by
  intro hbody
  have := hS.agrees p hp
  rw [Surroundings.agrees, hbody] at this
  cases this

theorem chained (hp : p ∈ G.productions) (hbody : p.body = s :: rest) :
    S.chained (S.follow p.head) rest := by
  have := hS.agrees p hp
  rw [Surroundings.agrees, hbody] at this
  cases s <;> simp only [Bool.and_eq_true] at this
  · exact this.2
  · exact this.1.1.1.2

theorem firsts_subset (hp : p ∈ G.productions) (hbody : p.body = s :: rest) :
    S.firsts s ⊆ S.first p.head := by
  have := hS.agrees p hp
  rw [Surroundings.agrees, hbody] at this
  cases s <;> simp only [Bool.and_eq_true] at this
  · intro b hb
    obtain rfl := mem_singleton.mp hb
    simpa using this.1
  · exact subset_of_all this.1.1.1.1

theorem next_subset (hp : p ∈ G.productions) (hbody : p.body = .nonterminal n :: rest) :
    S.next (S.follow p.head) rest ⊆ S.follow n := by
  have := hS.agrees p hp
  rw [Surroundings.agrees, hbody] at this
  simp only [Bool.and_eq_true] at this
  exact subset_of_all this.1.1.2

theorem opens_left (hp : p ∈ G.productions) (hbody : p.body = .nonterminal n :: rest) {g : ν}
    (hg : g ∈ S.goals) (h : S.opens p.head g) : S.opens n g := by
  have := hS.agrees p hp
  rw [Surroundings.agrees, hbody] at this
  simp only [Bool.and_eq_true] at this
  simpa [h] using all_eq_true.mp this.1.2 g hg

theorem next_of_recursive (hp : p ∈ G.productions) (hbody : p.body = .nonterminal n :: rest)
    (h : S.opens p.head n) :
    ∃ s' rest', rest = s' :: rest' ∧ disjoint (S.firsts s') (S.stop n) := by
  have := hS.agrees p hp
  rw [Surroundings.agrees, hbody] at this
  simp only [h, Bool.and_eq_true, Bool.not_true, Bool.false_or] at this
  cases rest with
  | nil => cases this.2.1
  | cons s' rest' => exact ⟨s', rest', rfl, this.2.2⟩

end Suits

/-! ## The first token -/

mutual

theorem Suits.first_of_derives (hS : S.Suits G) {s : Symbol τ ν} {d : Derivation κ τ ν α}
    {ts : List κ} : G.Derives s d ts → ∃ t us, ts = t :: us ∧ G.terminal t ∈ S.firsts s
  | .leaf t => ⟨t, [], rfl, mem_singleton.mpr rfl⟩
  | .branch hp hds => by
    obtain ⟨t, us, rfl, s, rest, hbody, ht⟩ := hS.first_of_derivesAll hds (hS.body_ne_nil hp)
    exact ⟨t, us, rfl, hS.firsts_subset hp hbody ht⟩

theorem Suits.first_of_derivesAll (hS : S.Suits G) {ss : List (Symbol τ ν)}
    {ds : List (Derivation κ τ ν α)} {ts : List κ} : G.DerivesAll ss ds ts → ss ≠ [] →
      ∃ t us, ts = t :: us ∧ ∃ s rest, ss = s :: rest ∧ G.terminal t ∈ S.firsts s
  | .nil, hne => absurd rfl hne
  | .cons hd _, _ => by
    obtain ⟨t, us, rfl, ht⟩ := hS.first_of_derives hd
    exact ⟨t, us ++ _, rfl, _, _, rfl, ht⟩

end

namespace Suits

variable (hS : S.Suits G)
include hS

theorem goesOn_next {rest : List (Symbol τ ν)} {ds : List (Derivation κ τ ν α)} {us r : List κ}
    {after : List τ} (h : G.DerivesAll rest ds us) (hr : G.GoesOn after r) :
    G.GoesOn (S.next after rest) (us ++ r) := by
  cases rest with
  | nil =>
    cases h
    exact hr
  | cons s rest =>
    obtain ⟨t, us, rfl, _, _, hrest, ht⟩ := hS.first_of_derivesAll h (cons_ne_nil _ _)
    cases hrest
    intro u hu
    cases hu
    exact ht

end Suits

mutual

/-- Every derivation is reached from its first token. -/
theorem Suits.exists_climbs (hS : S.Suits G) {s : Symbol τ ν} {d : Derivation κ τ ν α}
    {ts : List κ} : G.Derives s d ts → ∃ t us, ts = t :: us ∧
      G.Climbs s d (.terminal (G.terminal t)) (.leaf t) us
  | .leaf t => ⟨t, [], rfl, .refl⟩
  | .branch hp hds => by
    obtain ⟨s, rest, hbody, d, ds, t, us, vs, rfl, rfl, hcorner, hrest⟩ :=
      hS.exists_corner hds (hS.body_ne_nil hp)
    have hstep := Climbs.step hp hbody hrest (d := d) .refl
    rw [append_nil] at hstep
    exact ⟨t, us ++ vs, rfl, hcorner.trans hstep⟩

theorem Suits.exists_corner (hS : S.Suits G) {ss : List (Symbol τ ν)}
    {ds : List (Derivation κ τ ν α)} {ts : List κ} : G.DerivesAll ss ds ts → ss ≠ [] →
      ∃ s rest, ss = s :: rest ∧ ∃ d ds' t us vs, ds = d :: ds' ∧ ts = t :: (us ++ vs) ∧
        G.Climbs s d (.terminal (G.terminal t)) (.leaf t) us ∧ G.DerivesAll rest ds' vs
  | .nil, hne => absurd rfl hne
  | .cons hd hds, _ => by
    obtain ⟨t, us, rfl, h⟩ := hS.exists_climbs hd
    exact ⟨_, _, rfl, _, _, t, us, _, rfl, rfl, h, hds⟩

end

/-! ## Telling productions apart -/

/-- No goal has two derivations at the start of the same tokens, the first of them over at most so
many tokens, if both stop there. -/
def Unique (S : Surroundings τ ν) (G : Grammar κ τ ν α) (size : Nat) : Prop :=
  ∀ n ∈ S.goals, ∀ {d d' : Derivation κ τ ν α} {ts ts' r r' : List κ},
    G.Derives (.nonterminal n) d ts → G.Derives (.nonterminal n) d' ts' → ts ++ r = ts' ++ r' →
    G.GoesOn (S.stop n) r → G.GoesOn (S.stop n) r' → ts.length ≤ size → d = d' ∧ ts = ts'

namespace Suits

variable (hS : S.Suits G) {size : Nat}
variable {us r us' r' ts : List κ} {d e : Derivation κ τ ν α} {n : ν} {rest : List (Symbol τ ν)}
  {ds ds' : List (Derivation κ τ ν α)}
variable {after : List τ} {rest' : List (Symbol τ ν)} {d' : Derivation κ τ ν α} {m : ν}
include hS

theorem opens_of_climbs (hn : n ∈ S.goals) (h : G.Climbs (.nonterminal n) e (.nonterminal m) d us) :
    S.opens m n := by
  generalize hs : Symbol.nonterminal m = s at h
  induction h generalizing m with
  | refl =>
    cases hs
    exact hS.opens_self n hn
  | step hp hbody _ _ ih =>
    subst hs
    exact hS.opens_left hp hbody hn (ih rfl)

theorem goesOn_of_climbs (hn : n ∈ S.goals) (h : G.Climbs (.nonterminal n) e (.nonterminal m) d us)
    (hr : G.GoesOn (S.stop n) r) : G.GoesOn (S.follow m) (us ++ r) := by
  generalize hs : Symbol.nonterminal m = s at h
  induction h generalizing m with
  | refl =>
    cases hs
    exact hr.mono (hS.stop_subset n hn)
  | step hp hbody hds _ ih =>
    subst hs
    rw [append_assoc]
    exact (hS.goesOn_next hds (ih rfl)).mono (hS.next_subset hp hbody)

/-- One symbol of the rest of a body. -/
theorem unique_symbol (hU : S.Unique G size) {after' : List τ} (hc : S.chained after (s :: rest))
    (hc' : S.chained after' (s :: rest')) {ts' : List κ} (h : G.Derives s d ts) (hs : G.DerivesAll rest ds us)
    (h' : G.Derives s d' ts') (hs' : G.DerivesAll rest' ds' us') (hr : G.GoesOn after r)
    (hr' : G.GoesOn after' r') (heq : ts ++ (us ++ r) = ts' ++ (us' ++ r')) (hsize : ts.length ≤ size) :
    d = d' ∧ ts = ts' ∧ us ++ r = us' ++ r' ∧ S.chained after rest ∧
      S.chained after' rest' := by
  cases s with
  | terminal a =>
    obtain ⟨t, -, rfl, rfl⟩ := derives_terminal h
    obtain ⟨t', -, rfl, rfl⟩ := derives_terminal h'
    obtain ⟨rfl, hrest⟩ := cons.inj heq
    exact ⟨rfl, rfl, hrest, hc, hc'⟩
  | nonterminal n =>
    simp only [Surroundings.chained, Bool.and_eq_true] at hc hc'
    obtain ⟨rfl, rfl⟩ := hU n (by simpa using hc.1.1) h h' heq
      ((hS.goesOn_next hs hr).mono (subset_of_all hc.1.2))
      ((hS.goesOn_next hs' hr').mono (subset_of_all hc'.1.2)) hsize
    exact ⟨rfl, rfl, append_cancel_left heq, hc.2, hc'.2⟩

theorem unique_rest (hU : S.Unique G size) (hc : S.chained after rest)
    (h : G.DerivesAll rest ds us) (h' : G.DerivesAll rest ds' us') (heq : us ++ r = us' ++ r') (hr : G.GoesOn after r)
    (hr' : G.GoesOn after r') (hsize : us.length ≤ size) : ds = ds' ∧ us = us' := by
  induction rest generalizing ds ds' us us' with
  | nil =>
    cases h
    cases h'
    exact ⟨rfl, rfl⟩
  | cons s rest ih =>
    cases h with
    | cons hd hds =>
      cases h' with
      | cons hd' hds' =>
        rw [length_append] at hsize
        rw [append_assoc, append_assoc] at heq
        obtain ⟨rfl, rfl, heq, hc, -⟩ :=
          hS.unique_symbol hU hc hc hd hds hd' hds' hr hr' heq (by omega)
        obtain ⟨rfl, rfl⟩ := ih hc hds hds' heq (by omega)
        exact ⟨rfl, rfl⟩

omit hS [DecidableEq ν] [DecidableEq α] in
theorem not_disjoint (hne : ts ≠ []) (h : G.GoesOn as ts) (h' : G.GoesOn bs ts) : disjoint as bs = false := by
  obtain ⟨t, us, rfl⟩ := exists_cons_of_ne_nil hne
  cases hd : disjoint as bs with
  | false => rfl
  | true => exact absurd (h' t rfl) (not_mem_of_disjoint hd (h t rfl))

/-- The rests of two bodies that derive the same tokens cannot be told apart. -/
theorem not_diverge (hU : S.Unique G size) {after' : List τ}
    (hc : S.chained after rest) (hc' : S.chained after' rest') (h : G.DerivesAll rest ds us)
    (h' : G.DerivesAll rest' ds' us') (heq : us ++ r = us' ++ r') (hr : G.GoesOn after r) (hr' : G.GoesOn after' r')
    (hsize : us.length ≤ size) : S.diverge after after' rest rest' = false := by
  have hnext := hS.goesOn_next h hr
  have hnext' := heq ▸ hS.goesOn_next h' hr'
  induction rest generalizing rest' ds ds' us us' with
  | nil =>
    cases rest' with
    | nil => rfl
    | cons s' rest' =>
      obtain ⟨t, us, rfl, -⟩ := hS.first_of_derivesAll h' (cons_ne_nil _ _)
      exact not_disjoint (by rw [heq]; exact cons_ne_nil _ _) hnext hnext'
  | cons s rest ih =>
    have hne : us ++ r ≠ [] := by
      obtain ⟨t, us, rfl, -⟩ := hS.first_of_derivesAll h (cons_ne_nil _ _)
      exact cons_ne_nil _ _
    cases rest' with
    | nil => exact not_disjoint hne hnext hnext'
    | cons s' rest' =>
      rw [Surroundings.diverge]
      split
      · next hss =>
        subst hss
        cases h with
        | cons hd hds =>
          cases h' with
          | cons hd' hds' =>
            rw [length_append] at hsize
            rw [append_assoc, append_assoc] at heq
            obtain ⟨rfl, rfl, heq, hc, hc'⟩ :=
              hS.unique_symbol hU hc hc' hd hds hd' hds' hr hr' heq (by omega)
            exact ih hc hc' hds hds' heq (by omega) (hS.goesOn_next hds hr)
              (heq ▸ hS.goesOn_next hds' hr')
      · exact not_disjoint hne hnext hnext'

/-- A goal that has been reached is not the left corner of itself. -/
theorem not_step_of_goal (hn : n ∈ S.goals) {p : Production τ ν α} {vs : List κ} (hp : p ∈ G.productions)
    (hbody : p.body = .nonterminal n :: rest) (hds : G.DerivesAll rest ds us)
    (hrest : G.Climbs (.nonterminal n) e (.nonterminal p.head) d vs) : ¬ G.GoesOn (S.stop n) (us ++ vs ++ r) := by
  obtain ⟨s', rest', rfl, hdisj⟩ := hS.next_of_recursive hp hbody (hS.opens_of_climbs hn hrest)
  obtain ⟨t, us, rfl, _, _, hsame, ht⟩ := hS.first_of_derivesAll hds (cons_ne_nil _ _)
  cases hsame
  exact fun h => not_mem_of_disjoint hdisj ht (h t rfl)

/-- From one left corner a goal is reached in one way. -/
theorem unique_climbs (hU : S.Unique G size) (hn : n ∈ S.goals) {e' : Derivation κ τ ν α}
    (h : G.Climbs (.nonterminal n) e s d us) (h' : G.Climbs (.nonterminal n) e' s d us')
    (heq : us ++ r = us' ++ r') (hr : G.GoesOn (S.stop n) r) (hr' : G.GoesOn (S.stop n) r')
    (hsize : us.length ≤ size) : e = e' ∧ us = us' := by
  induction h generalizing us' with
  | refl =>
    cases h' with
    | refl => exact ⟨rfl, rfl⟩
    | step hp hbody hds hrest =>
      rw [nil_append] at heq
      exact absurd (heq ▸ hr) (hS.not_step_of_goal hn hp hbody hds hrest)
  | @step p s rest d ds us vs hp hbody hds hrest ih =>
    generalize hs : s = s' at h'
    cases h' with
    | refl =>
      subst hs
      rw [nil_append] at heq
      exact absurd (heq ▸ hr') (hS.not_step_of_goal hn hp hbody hds hrest)
    | @step q _ rest' _ ds' us' vs' hq hbody' hds' hrest' =>
      subst hs
      rw [append_assoc, append_assoc] at heq
      rw [length_append] at hsize
      have hfollow := hS.goesOn_of_climbs hn hrest hr
      have hfollow' := hS.goesOn_of_climbs hn hrest' hr'
      have hc := hS.chained hp hbody
      by_cases hpq : p = q
      · subst hpq
        obtain ⟨-, rfl⟩ := cons.inj (hbody.symm.trans hbody')
        obtain ⟨rfl, rfl⟩ := hS.unique_rest hU hc hds hds' heq hfollow hfollow' (by omega)
        obtain ⟨rfl, rfl⟩ := ih hrest' (append_cancel_left heq) (by omega)
        exact ⟨rfl, rfl⟩
      · have hdiv := hS.not_diverge hU hc (hS.chained hq hbody') hds hds' heq hfollow hfollow'
          (by omega)
        have hsep := hS.separates p hp q hq
        rw [Surroundings.separates, hbody, hbody', tail_cons, tail_cons, hdiv] at hsep
        simp only [hpq, decide_false, head?_cons, ne_eq, not_true, Bool.or_false,
          Bool.false_or] at hsep
        have hopen := all_eq_true.mp hsep n hn
        rw [hS.opens_of_climbs hn hrest, hS.opens_of_climbs hn hrest'] at hopen
        cases hopen

theorem unique (size : Nat) : S.Unique G size := by
  induction size with
  | zero =>
    intro n _ d d' ts ts' r r' h _ _ _ _ hsize
    obtain ⟨t, us, rfl, -⟩ := hS.first_of_derives h
    cases hsize
  | succ size ih =>
    intro n hn d d' ts ts' r r' h h' heq hr hr' hsize
    obtain ⟨t, us, rfl, hc⟩ := hS.exists_climbs h
    obtain ⟨t', us', rfl, hc'⟩ := hS.exists_climbs h'
    obtain ⟨rfl, hrest⟩ := cons.inj heq
    obtain ⟨rfl, rfl⟩ := hS.unique_climbs ih hn hc hc' hrest hr hr' (Nat.le_of_succ_le_succ hsize)
    exact ⟨rfl, rfl⟩

/-- A goal derives a sequence of tokens in at most one way. -/
theorem unambiguous (hn : n ∈ S.goals) (h : G.Derives (.nonterminal n) d ts)
    (h' : G.Derives (.nonterminal n) d' ts) : d = d' := by
  have hend : G.GoesOn (S.stop n) [] := nofun
  exact (hS.unique ts.length n hn h h' rfl hend hend (Nat.le_refl _)).1

end Suits

end Surroundings

/-! ## Fewer productions -/

/-- The grammar with these productions only. -/
def restrict (G : Grammar κ τ ν α) (ps : List (Production τ ν α)) : Grammar κ τ ν α :=
  { G with productions := ps }

mutual

theorem derives_of_restrict {ps : List (Production τ ν α)}
    (h : ps ⊆ G.productions) {s : Symbol τ ν} {d : Derivation κ τ ν α}
    {ts : List κ} : (G.restrict ps).Derives s d ts → G.Derives s d ts
  | .leaf t => .leaf (G := G) t
  | .branch hp hds => .branch (h hp) (derivesAll_of_restrict h hds)

theorem derivesAll_of_restrict {ps : List (Production τ ν α)}
    (h : ps ⊆ G.productions) {ss : List (Symbol τ ν)}
    {ds : List (Derivation κ τ ν α)} {ts : List κ} :
    (G.restrict ps).DerivesAll ss ds ts → G.DerivesAll ss ds ts
  | .nil => .nil
  | .cons hd hds => .cons (derives_of_restrict h hd) (derivesAll_of_restrict h hds)

end

/-- Some terminals do not occur in the tokens, and one of a pair is not right before the other. -/
structure Avoids (G : Grammar κ τ ν α) (absent : List τ) (pair : τ × τ) (ts : List κ) : Prop where
  absent : ∀ t ∈ ts, G.terminal t ∉ absent
  apart : ts.IsChain fun t u => ¬ (G.terminal t = pair.1 ∧ G.terminal u = pair.2)

section

variable {absent : List τ} {pair : τ × τ} {ts us : List κ}

theorem Avoids.left (h : G.Avoids absent pair (ts ++ us)) : G.Avoids absent pair ts :=
  ⟨fun t ht => h.absent t (mem_append_left _ ht), h.apart.left_of_append⟩

theorem Avoids.right (h : G.Avoids absent pair (ts ++ us)) : G.Avoids absent pair us :=
  ⟨fun t ht => h.absent t (mem_append_right _ ht), h.apart.right_of_append⟩

/-- A body with an absent terminal or with the pair derives no such tokens. -/
def Barred (absent : List τ) (pair : τ × τ) (body : List (Symbol τ ν)) : Prop :=
  (∃ a ∈ absent, .terminal a ∈ body) ∨ [.terminal pair.1, .terminal pair.2] <:+: body

theorem not_barred {ss : List (Symbol τ ν)} {ds : List (Derivation κ τ ν α)}
    (h : G.DerivesAll ss ds ts) (ha : G.Avoids absent pair ts) : ¬ Barred absent pair ss := by
  rintro (⟨a, hmem, hin⟩ | ⟨l, r, rfl⟩)
  · obtain ⟨l, r, rfl⟩ := append_of_mem hin
    obtain ⟨_, _, ts₁, ts₂, -, rfl, -, h₂⟩ := derivesAll_split h
    cases h₂ with
    | cons hd _ =>
      obtain ⟨t, rfl, -, rfl⟩ := derives_terminal hd
      exact ha.absent t (by simp) hmem
  · rw [append_assoc] at h
    obtain ⟨_, _, ts₁, ts₂, -, rfl, -, h₂⟩ := derivesAll_split h
    cases h₂ with
    | cons hd hds =>
      cases hds with
      | cons hd' _ =>
        obtain ⟨t, hfst, -, rfl⟩ := derives_terminal hd
        obtain ⟨u, hsnd, -, rfl⟩ := derives_terminal hd'
        exact (isChain_cons_cons.mp ha.right.apart).1 ⟨hfst, hsnd⟩

/-- The symbol is a terminal or one of some nonterminals. -/
def Symbol.within (heads : List ν) [DecidableEq ν] : Symbol τ ν → Bool
  | .terminal _ => true
  | .nonterminal n => heads.contains n

/-- A production is among those that are kept, or it derives none of the tokens: it is barred, or it
needs a nonterminal for which no production is kept. -/
def Covered [DecidableEq ν] (ps : List (Production τ ν α)) (heads : List ν) (absent : List τ)
    (pair : τ × τ) (p : Production τ ν α) : Prop :=
  (p ∈ ps ∧ p.body.all (Symbol.within heads) = true) ∨ Barred absent pair p.body ∨
    ∃ n ∈ heads, .nonterminal n ∈ p.body ∧ ∀ q ∈ ps, q.head ≠ n

variable [DecidableEq ν] {ps : List (Production τ ν α)} {heads : List ν}

mutual

/-- A derivation of tokens that avoid what the other productions need uses the kept ones only. -/
theorem derives_restrict
    (h : ∀ p ∈ G.productions, p.head ∈ heads → Covered ps heads absent pair p) {s : Symbol τ ν}
    {d : Derivation κ τ ν α} {ts : List κ} :
    G.Derives s d ts → G.Avoids absent pair ts → Symbol.within heads s →
      (G.restrict ps).Derives s d ts
  | .leaf t, _, _ => .leaf (G := G.restrict ps) t
  | .branch (p := p) hp hds, ha, hs => by
    obtain ⟨hkept, hchild⟩ := derivesAll_restrict h hds ha
    rcases h p hp (by simpa [Symbol.within] using hs) with ⟨hps, hbody⟩ | hbar | ⟨n, hn, hin, hno⟩
    · exact .branch hps (hkept hbody)
    · exact absurd hbar (not_barred hds ha)
    · obtain ⟨d, us, hd⟩ := hchild n hn hin
      obtain ⟨q, _, hq, hhead, -⟩ := derives_nonterminal hd
      exact absurd hhead (hno q hq)

theorem derivesAll_restrict
    (h : ∀ p ∈ G.productions, p.head ∈ heads → Covered ps heads absent pair p)
    {ss : List (Symbol τ ν)} {ds : List (Derivation κ τ ν α)} {ts : List κ} :
    G.DerivesAll ss ds ts → G.Avoids absent pair ts →
      (ss.all (Symbol.within heads) → (G.restrict ps).DerivesAll ss ds ts) ∧
      ∀ n ∈ heads, .nonterminal n ∈ ss → ∃ d us, (G.restrict ps).Derives (.nonterminal n) d us
  | .nil, _ => ⟨fun _ => .nil, fun _ _ hin => nomatch hin⟩
  | .cons hd hds, ha => by
    obtain ⟨hkept, hchild⟩ := derivesAll_restrict h hds ha.right
    refine ⟨fun hall => ?_, fun n hn hin => ?_⟩
    · obtain ⟨hs, hrest⟩ := Bool.and_eq_true_iff.mp hall
      exact .cons (derives_restrict h hd ha.left hs) (hkept hrest)
    · rcases mem_cons.mp hin with rfl | hin
      · exact ⟨_, _, derives_restrict h hd ha.left (by simpa [Symbol.within] using hn)⟩
      · exact hchild n hn hin

end

end

/-! ## Terminals that are never neighbours -/

mutual

/-- Every token stands for a terminal of a body. -/
theorem mem_body_of_derives {s : Symbol τ ν} {d : Derivation κ τ ν α} {ts : List κ} :
    G.Derives s d ts → ∀ t ∈ ts, s = .terminal (G.terminal t) ∨
      ∃ p ∈ G.productions, .terminal (G.terminal t) ∈ p.body
  | .leaf t, u, hu => .inl (by rw [mem_singleton.mp hu])
  | .branch hp hds, u, hu => .inr <| by
    rcases mem_body_of_derivesAll hds u hu with hin | h
    · exact ⟨_, hp, hin⟩
    · exact h

theorem mem_body_of_derivesAll {ss : List (Symbol τ ν)} {ds : List (Derivation κ τ ν α)}
    {ts : List κ} : G.DerivesAll ss ds ts → ∀ t ∈ ts, .terminal (G.terminal t) ∈ ss ∨
      ∃ p ∈ G.productions, .terminal (G.terminal t) ∈ p.body
  | .nil, _, hu => nomatch hu
  | .cons hd hds, u, hu => by
    rcases mem_append.mp hu with hu | hu
    · rcases mem_body_of_derives hd u hu with rfl | h
      · exact .inl (.head _)
      · exact .inr h
    · rcases mem_body_of_derivesAll hds u hu with hin | h
      · exact .inl (.tail _ hin)
      · exact .inr h

end

/-- For two terminals, whether a nonterminal can end with the first, begin with the second, and be
empty. -/
structure Fringe (τ ν : Type) where
  pair : τ × τ
  ends : ν → Bool
  begins : ν → Bool
  empty : ν → Bool

namespace Fringe

variable [DecidableEq τ] (F : Fringe τ ν)

def endsWith : Symbol τ ν → Bool
  | .terminal a => a = F.pair.1
  | .nonterminal n => F.ends n

def beginsWith : Symbol τ ν → Bool
  | .terminal a => a = F.pair.2
  | .nonterminal n => F.begins n

def canBeEmpty : Symbol τ ν → Bool
  | .terminal _ => false
  | .nonterminal n => F.empty n

/-- Whether tokens can end with the first terminal after a symbol, if `before` says so for the tokens
before it. -/
def after (before : Bool) (s : Symbol τ ν) : Bool := F.endsWith s || (F.canBeEmpty s && before)

/-- The symbols do not bring the two terminals together. -/
def parts : Bool → List (Symbol τ ν) → Bool
  | _, [] => true
  | before, s :: rest => ! (before && F.beginsWith s) && parts (F.after before s) rest

/-- The tables are right for a grammar, and no production brings the two terminals together. -/
def Suits (G : Grammar κ τ ν α) : Prop :=
  ∀ p ∈ G.productions, ∀ before : Bool, (before && F.begins p.head) = false →
    F.parts before p.body = true ∧
      (p.body.foldl F.after before = true → F.after before (.nonterminal p.head) = true)

/-- The two terminals are not neighbours, and the tokens end with the first one only if `before` says
so. -/
def Parted (G : Grammar κ τ ν α) (before : Bool) (ts : List κ) : Prop :=
  (ts.IsChain fun t u => ¬ (G.terminal t = F.pair.1 ∧ G.terminal u = F.pair.2)) ∧
    ∀ t ∈ ts.getLast?, G.terminal t = F.pair.1 → before = true

variable {F}

mutual

theorem parted_of_derives (hF : F.Suits G) {s : Symbol τ ν} {d : Derivation κ τ ν α} {ts l : List κ}
    {before : Bool} : G.Derives s d ts → F.Parted G before l → (before && F.beginsWith s) = false →
      F.Parted G (F.after before s) (l ++ ts)
  | .leaf t, hl, hs => by
    refine ⟨isChain_append.mpr ⟨hl.1, isChain_singleton t, ?_⟩, ?_⟩
    · intro u hu v hv ⟨hfst, hsnd⟩
      cases hv
      rw [hl.2 u hu hfst, Bool.true_and] at hs
      exact absurd hsnd (of_decide_eq_false hs)
    · intro u hu hfst
      rw [getLast?_concat] at hu
      cases hu
      simp [after, endsWith, hfst]
  | .branch hp hds, hl, hs => by
    obtain ⟨hparts, hafter⟩ := hF _ hp _ hs
    obtain ⟨hchain, hlast⟩ := parted_of_derivesAll hF hds hl hparts
    exact ⟨hchain, fun t ht hfst => hafter (hlast t ht hfst)⟩

theorem parted_of_derivesAll (hF : F.Suits G) {ss : List (Symbol τ ν)}
    {ds : List (Derivation κ τ ν α)} {ts l : List κ} {before : Bool} :
    G.DerivesAll ss ds ts → F.Parted G before l → F.parts before ss →
      F.Parted G (ss.foldl F.after before) (l ++ ts)
  | .nil, hl, _ => by rwa [append_nil]
  | .cons hd hds, hl, hs => by
    simp only [parts, Bool.and_eq_true, Bool.not_eq_true'] at hs
    rw [← append_assoc, foldl_cons]
    exact parted_of_derivesAll hF hds (parted_of_derives hF hd hl hs.1) hs.2

end

/-- The two terminals are never neighbours. -/
theorem Suits.apart (hF : F.Suits G) {s : Symbol τ ν} {d : Derivation κ τ ν α} {ts : List κ}
    (h : G.Derives s d ts) :
    ts.IsChain fun t u => ¬ (G.terminal t = F.pair.1 ∧ G.terminal u = F.pair.2) := by
  have hnil : F.Parted G false [] := ⟨.nil, nofun⟩
  exact (parted_of_derives hF h hnil rfl).1

end Fringe

end ArrowFree.Grammar
