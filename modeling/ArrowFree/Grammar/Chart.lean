import ArrowFree.Grammar

/-!
# Chart parsing

The chart has a column for each place between two tokens. A column holds the items whose matched
part ends there; an item is a production with the part of its body that is still to be matched, the
column where it began, and the best derivation of the part that was matched.

Among the derivations of the same tokens from the same symbol, the one with the greatest sum of
priorities is kept. On a tie the production that is listed first wins, and within a production the
derivation whose last symbol starts latest. Inner symbols are completed before outer ones, so that
a derivation is used only after all rivals are known.

A grammar for this parser starts no production with a symbol that can be empty, and a symbol that
can be empty has an empty production of its own.
-/

namespace ArrowFree.Grammar

variable {κ τ ν α : Type}

/-- A production with its place in the list. -/
abbrev Rule (τ ν α : Type) := Nat × Production τ ν α

structure Item (κ τ ν α : Type) where
  rule : Nat
  production : Production τ ν α
  /-- The symbols that are still to be matched. -/
  rest : List (Symbol τ ν)
  /-- The column where the production began. -/
  origin : Nat
  /-- The derivations of the matched symbols, the last one first. -/
  done : List (Derivation κ τ ν α)
  /-- The sum of the priorities in `done`. -/
  score : Nat

structure Column (κ τ ν α : Type) where
  items : List (Item κ τ ν α) := []
  /-- The productions that may begin here. -/
  starts : List (Rule τ ν α) := []

namespace Item

/-- Items that differ only in their derivations compete for one place in a column. -/
def rivals (a b : Item κ τ ν α) : Bool :=
  a.rule = b.rule && a.rest.length = b.rest.length && a.origin = b.origin

/-- The derivation of a completed item and its score. -/
def result (it : Item κ τ ν α) : Derivation κ τ ν α × Nat :=
  (.branch it.production it.done.reverse, it.score + it.production.priority)

/-- The item before anything is matched. -/
def begin (r : Rule τ ν α) (origin : Nat) : Item κ τ ν α :=
  ⟨r.1, r.2, r.2.body, origin, [], 0⟩

end Item

section

variable [DecidableEq τ] [DecidableEq ν]

def rules (G : Grammar κ τ ν α) : List (Rule τ ν α) := (List.range G.productions.length).zip G.productions

/-- The empty production of a nonterminal. -/
def empty? (G : Grammar κ τ ν α) (n : ν) : Option (Production τ ν α) :=
  G.productions.find? fun p => p.head = n && p.body.isEmpty

/-- An item is put into a column unless a rival with at least the same score is there. -/
def insert (it : Item κ τ ν α) : List (Item κ τ ν α) → List (Item κ τ ν α)
  | [] => [it]
  | jt :: items =>
    if it.rivals jt then (if jt.score < it.score then it :: items else jt :: items)
    else jt :: insert it items

def insertAll (its items : List (Item κ τ ν α)) : List (Item κ τ ν α) :=
  its.foldl (fun items it => insert it items) items

/-- The item itself and the items that follow from it by taking the next symbols to be empty. -/
def skipEmpties (G : Grammar κ τ ν α) (it : Item κ τ ν α) :
    List (Symbol τ ν) → List (Derivation κ τ ν α) → Nat → List (Item κ τ ν α)
  | .nonterminal n :: rest, done, score =>
    { it with rest := .nonterminal n :: rest, done := done, score := score } ::
      match G.empty? n with
      | some p => skipEmpties G it rest (.branch p [] :: done) (score + p.priority)
      | none => []
  | rest, done, score => [{ it with rest := rest, done := done, score := score }]

/-- The items that follow when the next symbol of an item is matched by a derivation. -/
def advance (G : Grammar κ τ ν α) (it : Item κ τ ν α) (d : Derivation κ τ ν α) (score : Nat) :
    List (Item κ τ ν α) :=
  match it.rest with
  | [] => []
  | _ :: rest => skipEmpties G it rest (d :: it.done) (it.score + score)

/-- The items of a column whose next symbol is `s`, those that begin there included. -/
def waiting (c : Column κ τ ν α) (k : Nat) (s : Symbol τ ν) : List (Item κ τ ν α) :=
  (c.items.filter fun it => it.rest.head? = some s) ++
  (c.starts.filter fun r => r.2.body.head? = some s).map fun r => Item.begin r k

/-! ## Prediction -/

/-- The nonterminals that a production of `n` can begin with. -/
def corners (rules : List (Rule τ ν α)) (n : ν) : List ν :=
  rules.filterMap fun r =>
    if r.2.head = n then
      match r.2.body with
      | .nonterminal m :: _ => some m
      | _ => none
    else none

/-- All nonterminals that can begin where those of the list can. -/
def predict (rules : List (Rule τ ν α)) : (fuel : Nat) → (seen todo : List ν) → List ν
  | 0, seen, _ => seen
  | _, seen, [] => seen
  | fuel + 1, seen, n :: todo =>
    if seen.contains n then predict rules fuel seen todo
    else predict rules fuel (n :: seen) (corners rules n ++ todo)

/-- The productions that may begin where the given nonterminals are expected. -/
def startsFor (rules : List (Rule τ ν α)) (expected : List ν) : List (Rule τ ν α) :=
  let heads := predict rules (expected.length + rules.length + 1) [] expected
  rules.filter fun r => heads.contains r.2.head

/-- The nonterminals that the items of a column wait for. -/
def expectedBy (items : List (Item κ τ ν α)) : List ν :=
  items.filterMap fun it =>
    match it.rest with
    | .nonterminal n :: _ => some n
    | _ => none

/-! ## Completion -/

/-- Whether a completed symbol comes before another: the one that began later, and of those that
began together the one of lower rank. -/
def sooner (G : Grammar κ τ ν α) (a b : ν × Nat) : Bool :=
  b.2 < a.2 || (a.2 = b.2 && G.rank a.1 < G.rank b.1)

/-- The symbol to complete next, with the column where it began. -/
def next? (G : Grammar κ τ ν α) (finished : List (ν × Nat)) (items : List (Item κ τ ν α)) :
    Option (ν × Nat) :=
  items.foldl (fun best it =>
    let s := (it.production.head, it.origin)
    if it.rest.isEmpty && ! finished.contains s then
      match best with
      | none => some s
      | some b => if sooner G s b then some s else best
    else best) none

/-- The best derivation of a symbol that is complete in a column: the greatest score, and of equal
scores the production listed first. -/
def best? (items : List (Item κ τ ν α)) (n : ν) (origin : Nat) :
    Option (Derivation κ τ ν α × Nat) :=
  let complete := items.filter fun it =>
    it.rest.isEmpty && it.production.head = n && it.origin = origin
  let better (best : Option (Item κ τ ν α)) (it : Item κ τ ν α) :=
    match best with
    | none => some it
    | some b =>
      if b.result.2 < it.result.2 || (b.result.2 = it.result.2 && it.rule < b.rule) then some it
      else best
  (complete.foldl better none).map Item.result

/-- The items of a column with all that follows from its completed items. -/
def complete (G : Grammar κ τ ν α) (columns : Array (Column κ τ ν α)) :
    (fuel : Nat) → (finished : List (ν × Nat)) → List (Item κ τ ν α) → List (Item κ τ ν α)
  | 0, _, items => items
  | fuel + 1, finished, items =>
    match next? G finished items with
    | none => items
    | some (n, origin) =>
      let news :=
        match best? items n origin with
        | none => []
        | some (d, score) =>
          (waiting (columns[origin]?.getD {}) origin (.nonterminal n)).flatMap fun it =>
            advance G it d score
      complete G columns fuel ((n, origin) :: finished) (insertAll news items)

/-! ## The parser -/

/-- The column after one more token; none if no item takes the token. -/
def step? (G : Grammar κ τ ν α) (rules : List (Rule τ ν α)) (columns : Array (Column κ τ ν α))
    (t : κ) : Option (Column κ τ ν α) :=
  let k := columns.size
  let scanned := (waiting (columns.back?.getD {}) (k - 1) (.terminal (G.terminal t))).flatMap
    fun it => advance G it (.leaf t) 0
  if scanned.isEmpty then none
  else
    let items := complete G columns (rules.length * (k + 1) + 1) [] (insertAll scanned [])
    some { items := items, starts := startsFor rules (expectedBy items) }

/-- The columns for the tokens, or the first token that cannot follow the ones before it. -/
def columnsFor (G : Grammar κ τ ν α) (rules : List (Rule τ ν α)) :
    Array (Column κ τ ν α) → List κ → Except κ (Array (Column κ τ ν α))
  | columns, [] => .ok columns
  | columns, t :: ts =>
    match step? G rules columns t with
    | none => .error t
    | some c => columnsFor G rules (columns.push c) ts

/-- Why a sequence of tokens has no derivation. -/
inductive Rejection (κ : Type) where
  /-- No sentence goes on with this token after the ones before it. -/
  | unexpected (token : κ)
  /-- Every sentence that begins so goes on. -/
  | incomplete
deriving DecidableEq, Repr

/-- The chosen derivation of the tokens from the start symbol. -/
def parse (G : Grammar κ τ ν α) (ts : List κ) : Except (Rejection κ) (Derivation κ τ ν α) :=
  let rules := G.rules
  match columnsFor G rules #[{ starts := startsFor rules [G.start] }] ts with
  | .error t => .error (.unexpected t)
  | .ok columns =>
    let result :=
      if ts.isEmpty then (G.empty? G.start).map fun p => .branch p []
      else (best? (columns.back?.getD {}).items G.start 0).map Prod.fst
    match result with
    | some d => .ok d
    | none => .error .incomplete

end

end ArrowFree.Grammar
