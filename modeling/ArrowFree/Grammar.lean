/-!
# Grammars and derivations

A context-free grammar is a list of productions. Each production carries an action, which says what
its derivations stand for, and a priority. A derivation of a sequence of tokens is a tree of
productions whose leaves are the tokens in order.
-/

namespace ArrowFree

inductive Symbol (τ ν : Type) where
  | terminal (t : τ)
  | nonterminal (n : ν)
deriving DecidableEq, Repr

structure Production (τ ν α : Type) where
  head : ν
  body : List (Symbol τ ν)
  action : α
  priority : Nat := 0
deriving DecidableEq, Repr

/-- `κ` is the type of tokens; each token has a terminal. -/
structure Grammar (κ τ ν α : Type) where
  start : ν
  productions : List (Production τ ν α)
  terminal : κ → τ
  /-- Where a production consists of one nonterminal, its head has the greater rank. -/
  rank : ν → Nat

inductive Derivation (κ τ ν α : Type) where
  | leaf (token : κ)
  | branch (production : Production τ ν α) (children : List (Derivation κ τ ν α))
deriving Repr

namespace Grammar

variable {κ τ ν α : Type}

mutual

/-- `G.Derives s d ts`: the derivation `d` leads from the symbol `s` to the tokens `ts`. -/
inductive Derives (G : Grammar κ τ ν α) : Symbol τ ν → Derivation κ τ ν α → List κ → Prop where
  | leaf (t : κ) : Derives G (.terminal (G.terminal t)) (.leaf t) [t]
  | branch {p : Production τ ν α} {ds : List (Derivation κ τ ν α)} {ts : List κ} :
      p ∈ G.productions → DerivesAll G p.body ds ts →
      Derives G (.nonterminal p.head) (.branch p ds) ts

/-- The symbols of a body lead one after the other to the tokens. -/
inductive DerivesAll (G : Grammar κ τ ν α) :
    List (Symbol τ ν) → List (Derivation κ τ ν α) → List κ → Prop where
  | nil : DerivesAll G [] [] []
  | cons {s : Symbol τ ν} {d : Derivation κ τ ν α} {ss : List (Symbol τ ν)}
      {ds : List (Derivation κ τ ν α)} {ts us : List κ} :
      Derives G s d ts → DerivesAll G ss ds us → DerivesAll G (s :: ss) (d :: ds) (ts ++ us)

end

end Grammar

end ArrowFree
