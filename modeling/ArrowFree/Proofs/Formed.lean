import ArrowFree.Literal
import ArrowFree.Proofs.Numbering
import ArrowFree.Proofs.Scanning
import Mathlib.Data.List.Forall2

/-!
# Well-formed trees

The trees that a script can denote, by the part of the script that they stand for. `Formed K p t` says
that the tree `t` is a proper part `p` whose nodes are of kinds in `K`: each node has the slots of its
kind, names and operators are spelled so that the lexer reads them back, and a literal has the value
of its spelling. Identities and locations are free.
-/

namespace ArrowFree

open Token List

variable {i : Info} {slots items : List Tree}

/-- The parts that a script consists of. -/
inductive Part where
  | program
  | statement
  | block
  | declaration
  | declarator
  | handler
  /-- What a `for` begins with. -/
  | initializer
  /-- What a `for` with `in` assigns to. -/
  | iterated
  | expression
  /-- What can be assigned to. -/
  | target
  | property
  /-- A variable's name. -/
  | name
  /-- A name behind a point; reserved words are among them. -/
  | word
  /-- What stands before the colon of a property. -/
  | key
  | orNull (p : Part)
deriving DecidableEq, Repr

/-! ## Operators and literals -/

def unaryOperators : List Terminal := [.additiveOp, .unaryOp, .typeof, .void, .delete]

def binaryOperators : List Terminal :=
  [.bitOr, .bitXor, .bitAnd, .equalityOp, .relationalOp, .instanceof, .in, .shiftOp, .additiveOp,
   .multiplicativeOp]

def logicalOperators : List Terminal := [.or, .and]

def assignmentOperators : List Terminal := [.assign, .compoundAssign]

def declarationWords : List Terminal := [.var, .let, .const]

def propertyWords : List Terminal :=
  [.ident, .this, .true, .false, .null, .new, .in, .instanceof, .typeof, .void, .delete, .var,
   .let, .const, .function, .return, .if, .else, .for, .while, .do, .break, .continue, .throw,
   .try, .catch, .finally]

def literalTerminals : List Terminal := [.number, .string, .true, .false, .null]

def keyTerminals : List Terminal := [.string, .number]

/-- The text spells one of some terminals. -/
def SpellsOne (ks : List Terminal) (x : Text) : Prop := ∃ k ∈ ks, Spells k x

instance (ks : List Terminal) (x : Text) : Decidable (SpellsOne ks x) :=
  inferInstanceAs (Decidable (∃ k ∈ ks, Spells k x))

/-- The value of a literal token. -/
def literalValue? (k : Terminal) (raw : Text) : Option Scalar :=
  match k with
  | .number => (Literal.readNumber raw).toOption
  | .string => some (.text (Literal.readString raw))
  | .true => some (.bool true)
  | .false => some (.bool false)
  | .null => some .null
  | _ => none

/-- The text spells a literal of that value, of one of some terminals. -/
def Denotes (ks : List Terminal) (raw : Text) (v : Scalar) : Prop :=
  ∃ k ∈ ks, Spells k raw ∧ literalValue? k raw = some v

instance (ks : List Terminal) (raw : Text) (v : Scalar) : Decidable (Denotes ks raw v) :=
  inferInstanceAs (Decidable (∃ k ∈ ks, Spells k raw ∧ literalValue? k raw = some v))

/-- Identifiers and members can be assigned to. -/
def IsTarget (t : Tree) : Prop := t.is .identifier = true ∨ t.is .memberExpression = true

/-! ## Trees -/

/-- The tree is that part of a script, and its nodes are of kinds in `K`. -/
inductive Formed (K : Kind → Prop) : Part → Tree → Prop where
  | absent {p : Part} : Formed K (.orNull p) .null
  | present {p : Part} {t : Tree} : Formed K p t → Formed K (.orNull p) t
  -- names and keys
  | name {i : Info} {x : Text} : K .identifier → Spells .ident x →
      Formed K .name (.node i (.known .identifier) [.text x])
  | word {i : Info} {x : Text} : K .identifier → SpellsOne propertyWords x →
      Formed K .word (.node i (.known .identifier) [.text x])
  | wordKey {t : Tree} : Formed K .word t → Formed K .key t
  | literalKey {i : Info} {v : Scalar} {raw : Text} : K .literal → Denotes keyTerminals raw v →
      Formed K .key (.node i (.known .literal) [.scalar v, .text raw])
  -- expressions
  | identifier {t : Tree} : Formed K .name t → Formed K .expression t
  | literal {i : Info} {v : Scalar} {raw : Text} : K .literal → Denotes literalTerminals raw v →
      Formed K .expression (.node i (.known .literal) [.scalar v, .text raw])
  | this {i : Info} : K .thisExpression → Formed K .expression (.node i (.known .thisExpression) [])
  | array {i : Info} {ts : List Tree} : K .arrayExpression → (∀ t ∈ ts, Formed K .expression t) →
      Formed K .expression (.node i (.known .arrayExpression) [.list ts])
  | object {i : Info} {ts : List Tree} : K .objectExpression → (∀ t ∈ ts, Formed K .property t) →
      Formed K .expression (.node i (.known .objectExpression) [.list ts])
  | property {i : Info} {key value : Tree} : K .property → Formed K .key key →
      Formed K .expression value →
      Formed K .property
        (.node i (.known .property) [key, value, .bool false, .bool false, .text "init"])
  | shorthand {i j k : Info} {x : Text} : K .property → K .identifier → Spells .ident x →
      Formed K .property
        (.node i (.known .property)
          [.node j (.known .identifier) [.text x], .node k (.known .identifier) [.text x],
           .bool false, .bool true, .text "init"])
  | function {i : Info} {f b : Tree} {ps : List Tree} : K .functionExpression →
      Formed K (.orNull .name) f → (∀ p ∈ ps, Formed K .name p) → Formed K .block b →
      Formed K .expression (.node i (.known .functionExpression) [f, .list ps, b])
  | arrowBlock {i : Info} {b : Tree} {ps : List Tree} {concise : Bool} : K .arrowFunctionExpression →
      (∀ p ∈ ps, Formed K .name p) → Formed K .block b →
      Formed K .expression (.node i (.known .arrowFunctionExpression) [.list ps, b, .bool concise])
  | arrow {i : Info} {b : Tree} {ps : List Tree} {concise : Bool} : K .arrowFunctionExpression →
      (∀ p ∈ ps, Formed K .name p) → Formed K .expression b →
      Formed K .expression (.node i (.known .arrowFunctionExpression) [.list ps, b, .bool concise])
  | unary {i : Info} {op : Text} {a : Tree} : K .unaryExpression → SpellsOne unaryOperators op →
      Formed K .expression a →
      Formed K .expression (.node i (.known .unaryExpression) [.text op, a, .bool true])
  | update {i : Info} {op : Text} {a : Tree} {before : Bool} : K .updateExpression →
      Spells .updateOp op → Formed K .target a →
      Formed K .expression (.node i (.known .updateExpression) [.text op, a, .bool before])
  | binary {i : Info} {op : Text} {l r : Tree} : K .binaryExpression →
      SpellsOne binaryOperators op → Formed K .expression l → Formed K .expression r →
      Formed K .expression (.node i (.known .binaryExpression) [.text op, l, r])
  | logical {i : Info} {op : Text} {l r : Tree} : K .logicalExpression →
      SpellsOne logicalOperators op → Formed K .expression l → Formed K .expression r →
      Formed K .expression (.node i (.known .logicalExpression) [.text op, l, r])
  | assignment {i : Info} {op : Text} {l r : Tree} : K .assignmentExpression →
      SpellsOne assignmentOperators op → Formed K .target l → Formed K .expression r →
      Formed K .expression (.node i (.known .assignmentExpression) [.text op, l, r])
  | conditional {i : Info} {c a b : Tree} : K .conditionalExpression → Formed K .expression c →
      Formed K .expression a → Formed K .expression b →
      Formed K .expression (.node i (.known .conditionalExpression) [c, a, b])
  | call {i : Info} {f : Tree} {ts : List Tree} : K .callExpression → Formed K .expression f →
      (∀ t ∈ ts, Formed K .expression t) →
      Formed K .expression (.node i (.known .callExpression) [f, .list ts])
  | new {i : Info} {f : Tree} {ts : List Tree} : K .newExpression → Formed K .expression f →
      (∀ t ∈ ts, Formed K .expression t) →
      Formed K .expression (.node i (.known .newExpression) [f, .list ts])
  | member {i : Info} {o p : Tree} : K .memberExpression → Formed K .expression o →
      Formed K .word p →
      Formed K .expression (.node i (.known .memberExpression) [o, p, .bool false])
  | computed {i : Info} {o p : Tree} : K .memberExpression → Formed K .expression o →
      Formed K .expression p →
      Formed K .expression (.node i (.known .memberExpression) [o, p, .bool true])
  | sequence {i : Info} {ts : List Tree} : K .sequenceExpression → 2 ≤ ts.length →
      (∀ t ∈ ts, Formed K .expression t) →
      Formed K .expression (.node i (.known .sequenceExpression) [.list ts])
  | target {t : Tree} : Formed K .expression t → IsTarget t → Formed K .target t
  -- declarations
  | declarator {i : Info} {x e : Tree} : K .variableDeclarator → Formed K .name x →
      Formed K (.orNull .expression) e →
      Formed K .declarator (.node i (.known .variableDeclarator) [x, e])
  | declaration {i : Info} {kind : Text} {ds : List Tree} : K .variableDeclaration →
      SpellsOne declarationWords kind → ds ≠ [] → (∀ d ∈ ds, Formed K .declarator d) →
      Formed K .declaration (.node i (.known .variableDeclaration) [.list ds, .text kind])
  -- statements
  | block {i : Info} {ts : List Tree} : K .blockStatement → (∀ t ∈ ts, Formed K .statement t) →
      Formed K .block (.node i (.known .blockStatement) [.list ts])
  | blockStatement {t : Tree} : Formed K .block t → Formed K .statement t
  | declarationStatement {t : Tree} : Formed K .declaration t → Formed K .statement t
  | functionDeclaration {i : Info} {f b : Tree} {ps : List Tree} : K .functionDeclaration →
      Formed K .name f → (∀ p ∈ ps, Formed K .name p) → Formed K .block b →
      Formed K .statement (.node i (.known .functionDeclaration) [f, .list ps, b])
  | emptyStatement {i : Info} : K .emptyStatement →
      Formed K .statement (.node i (.known .emptyStatement) [])
  | expressionStatement {i : Info} {e : Tree} : K .expressionStatement → Formed K .expression e →
      Formed K .statement (.node i (.known .expressionStatement) [e])
  | returnStatement {i : Info} {e : Tree} : K .returnStatement →
      Formed K (.orNull .expression) e →
      Formed K .statement (.node i (.known .returnStatement) [e])
  | throwStatement {i : Info} {e : Tree} : K .throwStatement → Formed K .expression e →
      Formed K .statement (.node i (.known .throwStatement) [e])
  | breakStatement {i : Info} : K .breakStatement →
      Formed K .statement (.node i (.known .breakStatement) [])
  | continueStatement {i : Info} : K .continueStatement →
      Formed K .statement (.node i (.known .continueStatement) [])
  | ifStatement {i : Info} {c a b : Tree} : K .ifStatement → Formed K .expression c →
      Formed K .statement a → Formed K (.orNull .statement) b →
      Formed K .statement (.node i (.known .ifStatement) [c, a, b])
  | initialDeclaration {t : Tree} : Formed K .declaration t → Formed K .initializer t
  | initialExpression {t : Tree} : Formed K .expression t → Formed K .initializer t
  | forStatement {i : Info} {init c u b : Tree} : K .forStatement →
      Formed K (.orNull .initializer) init → Formed K (.orNull .expression) c →
      Formed K (.orNull .expression) u → Formed K .statement b →
      Formed K .statement (.node i (.known .forStatement) [init, c, u, b])
  | iteratedDeclaration {i j : Info} {kind : Text} {x : Tree} : K .variableDeclaration →
      K .variableDeclarator → SpellsOne declarationWords kind → Formed K .name x →
      Formed K .iterated
        (.node i (.known .variableDeclaration)
          [.list [.node j (.known .variableDeclarator) [x, .null]], .text kind])
  | iteratedTarget {t : Tree} : Formed K .target t → Formed K .iterated t
  | forInStatement {i : Info} {l r b : Tree} : K .forInStatement → Formed K .iterated l →
      Formed K .expression r → Formed K .statement b →
      Formed K .statement (.node i (.known .forInStatement) [l, r, b])
  | whileStatement {i : Info} {c b : Tree} : K .whileStatement → Formed K .expression c →
      Formed K .statement b → Formed K .statement (.node i (.known .whileStatement) [c, b])
  | doWhileStatement {i : Info} {b c : Tree} : K .doWhileStatement → Formed K .statement b →
      Formed K .expression c → Formed K .statement (.node i (.known .doWhileStatement) [b, c])
  | handler {i : Info} {x b : Tree} : K .catchClause → Formed K .name x → Formed K .block b →
      Formed K .handler (.node i (.known .catchClause) [x, b])
  | tryStatement {i : Info} {b h f : Tree} : K .tryStatement → Formed K .block b →
      Formed K (.orNull .handler) h → Formed K (.orNull .block) f → ¬ (h = .null ∧ f = .null) →
      Formed K .statement (.node i (.known .tryStatement) [b, h, f])
  | program {i : Info} {ts : List Tree} : K .program → (∀ t ∈ ts, Formed K .statement t) →
      Formed K .program (.node i (.known .program) [.list ts])

/-! ## Without identities and locations -/

namespace Tree

variable {ts : List Tree} {t u : Tree} {s : Shape}

mutual

/-- The tree without identities and locations. -/
def bare : Tree → Tree
  | .node _ s slots => .node {} s (bareItems slots)
  | .list items => .list (bareItems items)
  | t => t

def bareItems : List Tree → List Tree
  | [] => []
  | t :: ts => bare t :: bareItems ts

end

theorem bareItems_eq_map (ts : List Tree) : bareItems ts = ts.map bare := by
  induction ts with
  | nil => rfl
  | cons t ts ih => rw [bareItems, ih, map_cons]

@[simp] theorem bare_node (i : Info) (s : Shape) (slots : List Tree) :
    (node i s slots).bare = node {} s (slots.map bare) := by rw [bare, bareItems_eq_map]

@[simp] theorem bare_list (items : List Tree) : (list items).bare = list (items.map bare) := by
  rw [bare, bareItems_eq_map]

@[simp] theorem bare_scalar (s : Scalar) : (scalar s).bare = scalar s := rfl

theorem forall₂_of_map_eq {us : List Tree} (h : us.map bare = ts.map bare) :
    Forall₂ (fun u t => u.bare = t.bare) us ts := by
  rw [← forall₂_map_left_iff (f := bare) (R := fun u (t : Tree) => u = t.bare),
    ← forall₂_map_right_iff (f := bare) (R := fun u t => u = t), forall₂_eq_eq_eq]
  exact h

theorem bare_eq_node (h : t.bare = node i s slots) : ∃ j ts, t = node j s ts ∧ ts.map bare = slots := by
  cases t with
  | node j s' ts =>
    rw [bare_node] at h
    cases h
    exact ⟨j, ts, rfl, rfl⟩
  | scalar s => cases h
  | list items => rw [bare_list] at h; cases h
  | object fields => cases h

theorem bare_eq_scalar {s : Scalar} (h : t.bare = scalar s) : t = scalar s := by
  cases t with
  | node j s' ts => rw [bare_node] at h; cases h
  | scalar s => exact h
  | list items => rw [bare_list] at h; cases h
  | object fields => cases h

theorem bare_eq_list (h : t.bare = list items) : ∃ ts, t = list ts ∧ ts.map bare = items := by
  cases t with
  | node j s' ts => rw [bare_node] at h; cases h
  | scalar s => cases h
  | list ts =>
    rw [bare_list] at h
    exact ⟨ts, rfl, list.inj h⟩
  | object fields => cases h

/-- Trees that differ only in identities and locations have the same shape and slots that so differ. -/
theorem node_of_bare (h : u.bare = (node i s slots).bare) :
    ∃ j us, u = node j s us ∧ Forall₂ (fun u t => u.bare = t.bare) us slots := by
  rw [bare_node] at h
  obtain ⟨j, us, rfl, hus⟩ := bare_eq_node h
  exact ⟨j, us, rfl, forall₂_of_map_eq hus⟩

theorem list_of_bare (h : u.bare = (list ts).bare) :
    ∃ us, u = list us ∧ Forall₂ (fun u t => u.bare = t.bare) us ts := by
  rw [bare_list] at h
  obtain ⟨us, rfl, hus⟩ := bare_eq_list h
  exact ⟨us, rfl, forall₂_of_map_eq hus⟩

theorem bare_eq_mapInfo (t : Tree) : t.bare = t.mapInfo fun _ => {} := by
  induction t using part_induction with
  | scalar _ | object _ => rfl
  | list _ ih | node _ _ _ ih => simpa using ih

theorem bare_numberFrom (n : Nat) (t : Tree) : (t.numberFrom n).1.bare = t.bare := by
  rw [bare_eq_mapInfo, bare_eq_mapInfo, mapInfo_numberFrom fun _ _ => rfl]

end Tree

namespace Formed

open ArrowFree.Tree

variable {K : Kind → Prop}
variable {t u : Tree} {p : Part}

/-- A node made of slots that differ only in identities and locations has a property. -/
def HoldsAlike (ts : List Tree) (P : List Tree → Prop) : Prop :=
  ∀ us, List.Forall₂ (fun u t => u.bare = t.bare) us ts → P us

namespace HoldsAlike

variable {t : Tree} {ts : List Tree} {P : List Tree → Prop} {Q : Tree → Prop}

theorem nil (h : P []) : HoldsAlike [] P := by
  rintro _ ⟨⟩
  exact h

theorem scalar {x : Scalar} (h : HoldsAlike ts fun us => P (.scalar x :: us)) : HoldsAlike (.scalar x :: ts) P := by
  rintro _ (_ | ⟨hx, hs⟩)
  rw [bare_eq_scalar hx]
  exact h _ hs

theorem part (h : ∀ {u : Tree}, u.bare = t.bare → Q u) (hs : ∀ {u}, Q u → HoldsAlike ts fun us => P (u :: us)) :
    HoldsAlike (t :: ts) P := by
  rintro _ (_ | ⟨hu, hus⟩)
  exact hs (h hu) _ hus

theorem list (h : ∀ t ∈ items, ∀ {u : Tree}, u.bare = t.bare → Q u)
    (hs : ∀ {us}, (∀ u ∈ us, Q u) → us.length = items.length → HoldsAlike ts fun vs => P (.list us :: vs)) :
    HoldsAlike (.list items :: ts) P := by
  rintro _ (_ | ⟨hu, hvs⟩)
  obtain ⟨us, rfl, hus⟩ := list_of_bare hu
  refine hs ?_ hus.length_eq _ hvs
  clear hu hs
  induction hus with
  | nil => simp
  | cons hut _ ih =>
    exact forall_mem_cons.mpr ⟨h _ mem_cons_self hut, ih fun t ht => h t (.tail _ ht)⟩

end HoldsAlike

theorem of_slots {k : Kind} (hu : u.bare = (Tree.node i (.known k) slots).bare)
    (h : ∀ {j}, HoldsAlike slots fun us => Formed K p (.node j (.known k) us)) : Formed K p u := by
  obtain ⟨j, us, rfl, hus⟩ := node_of_bare hu
  exact h us hus

theorem isTarget_of_bare (hu : u.bare = t.bare) (h : IsTarget t) : IsTarget u := by
  cases t with
  | node i s slots =>
    obtain ⟨j, us, rfl, -⟩ := node_of_bare hu
    cases s <;> exact h
  | scalar | list | object => rcases h with h | h <;> cases h

/-- Being well formed does not depend on identities and locations. -/
theorem of_bare (h : Formed K p t) (hu : u.bare = t.bare) : Formed K p u := by
  induction h generalizing u with
  | absent =>
    rw [bare_eq_scalar hu]
    exact .absent
  | present _ ih => exact .present (ih hu)
  | name hk hx => exact of_slots hu (.scalar (.nil (.name hk hx)))
  | word hk hx => exact of_slots hu (.scalar (.nil (.word hk hx)))
  | wordKey _ ih => exact .wordKey (ih hu)
  | literalKey hk hd => exact of_slots hu (.scalar (.scalar (.nil (.literalKey hk hd))))
  | identifier _ ih => exact .identifier (ih hu)
  | literal hk hd => exact of_slots hu (.scalar (.scalar (.nil (.literal hk hd))))
  | this hk => exact of_slots hu (.nil (.this hk))
  | array hk _ ih => exact of_slots hu (.list ih fun hs _ => .nil (.array hk hs))
  | object hk _ ih => exact of_slots hu (.list ih fun hs _ => .nil (.object hk hs))
  | property hk _ _ ihk ihv =>
    exact of_slots hu (.part ihk fun hkey => .part ihv fun hvalue =>
      .scalar (.scalar (.scalar (.nil (.property hk hkey hvalue)))))
  | shorthand hk hi hx =>
    obtain ⟨j, us, rfl, _ | ⟨h0, _ | ⟨h1, _ | ⟨h2, _ | ⟨h3, _ | ⟨h4, ⟨⟩⟩⟩⟩⟩⟩⟩ := node_of_bare hu
    cases bare_eq_scalar h2
    cases bare_eq_scalar h3
    cases bare_eq_scalar h4
    obtain ⟨_, _, rfl, _ | ⟨hkey, ⟨⟩⟩⟩ := node_of_bare h0
    obtain ⟨_, _, rfl, _ | ⟨hvalue, ⟨⟩⟩⟩ := node_of_bare h1
    cases bare_eq_scalar hkey
    cases bare_eq_scalar hvalue
    exact .shorthand hk hi hx
  | function hk _ _ _ ihf ihp ihb =>
    exact of_slots hu (.part ihf fun hf => .list ihp fun hps _ => .part ihb fun hb => .nil (.function hk hf hps hb))
  | arrowBlock hk _ _ ihp ihb =>
    exact of_slots hu (.list ihp fun hps _ => .part ihb fun hb => .scalar (.nil (.arrowBlock hk hps hb)))
  | arrow hk _ _ ihp ihb =>
    exact of_slots hu (.list ihp fun hps _ => .part ihb fun hb => .scalar (.nil (.arrow hk hps hb)))
  | unary hk hop _ ih => exact of_slots hu (.scalar (.part ih fun ha => .scalar (.nil (.unary hk hop ha))))
  | update hk hop _ ih => exact of_slots hu (.scalar (.part ih fun ha => .scalar (.nil (.update hk hop ha))))
  | binary hk hop _ _ ihl ihr =>
    exact of_slots hu (.scalar (.part ihl fun hl => .part ihr fun hr => .nil (.binary hk hop hl hr)))
  | logical hk hop _ _ ihl ihr =>
    exact of_slots hu (.scalar (.part ihl fun hl => .part ihr fun hr => .nil (.logical hk hop hl hr)))
  | assignment hk hop _ _ ihl ihr =>
    exact of_slots hu (.scalar (.part ihl fun hl => .part ihr fun hr => .nil (.assignment hk hop hl hr)))
  | conditional hk _ _ _ ihc iha ihb =>
    exact of_slots hu (.part ihc fun hc => .part iha fun ha => .part ihb fun hb => .nil (.conditional hk hc ha hb))
  | call hk _ _ ihf ih => exact of_slots hu (.part ihf fun hf => .list ih fun hs _ => .nil (.call hk hf hs))
  | new hk _ _ ihf ih => exact of_slots hu (.part ihf fun hf => .list ih fun hs _ => .nil (.new hk hf hs))
  | member hk _ _ iho ihp =>
    exact of_slots hu (.part iho fun ho => .part ihp fun hp => .scalar (.nil (.member hk ho hp)))
  | computed hk _ _ iho ihp =>
    exact of_slots hu (.part iho fun ho => .part ihp fun hp => .scalar (.nil (.computed hk ho hp)))
  | sequence hk hlen _ ih =>
    exact of_slots hu (.list ih fun hs hsame => .nil (.sequence hk (hsame ▸ hlen) hs))
  | target _ ht ih => exact .target (ih hu) (isTarget_of_bare hu ht)
  | declarator hk _ _ ihx ihe =>
    exact of_slots hu (.part ihx fun hx => .part ihe fun he => .nil (.declarator hk hx he))
  | declaration hk hkind hne _ ih =>
    refine of_slots hu (.list ih fun hs hsame => .scalar (.nil (.declaration hk hkind (fun hnil => hne ?_) hs)))
    exact eq_nil_of_length_eq_zero (by rw [← hsame, hnil, length_nil])
  | block hk _ ih => exact of_slots hu (.list ih fun hs _ => .nil (.block hk hs))
  | blockStatement _ ih => exact .blockStatement (ih hu)
  | declarationStatement _ ih => exact .declarationStatement (ih hu)
  | functionDeclaration hk _ _ _ ihf ihp ihb =>
    exact of_slots hu (.part ihf fun hf => .list ihp fun hps _ => .part ihb fun hb =>
      .nil (.functionDeclaration hk hf hps hb))
  | emptyStatement hk => exact of_slots hu (.nil (.emptyStatement hk))
  | expressionStatement hk _ ih => exact of_slots hu (.part ih fun he => .nil (.expressionStatement hk he))
  | returnStatement hk _ ih => exact of_slots hu (.part ih fun he => .nil (.returnStatement hk he))
  | throwStatement hk _ ih => exact of_slots hu (.part ih fun he => .nil (.throwStatement hk he))
  | breakStatement hk => exact of_slots hu (.nil (.breakStatement hk))
  | continueStatement hk => exact of_slots hu (.nil (.continueStatement hk))
  | ifStatement hk _ _ _ ihc iha ihb =>
    exact of_slots hu (.part ihc fun hc => .part iha fun ha => .part ihb fun hb => .nil (.ifStatement hk hc ha hb))
  | initialDeclaration _ ih => exact .initialDeclaration (ih hu)
  | initialExpression _ ih => exact .initialExpression (ih hu)
  | forStatement hk _ _ _ _ ihi ihc ihu ihb =>
    exact of_slots hu (.part ihi fun hi => .part ihc fun hc => .part ihu fun hv => .part ihb fun hb =>
      .nil (.forStatement hk hi hc hv hb))
  | iteratedDeclaration hk hd hkind _ ih =>
    obtain ⟨j, us, rfl, _ | ⟨h0, _ | ⟨h1, ⟨⟩⟩⟩⟩ := node_of_bare hu
    cases bare_eq_scalar h1
    obtain ⟨_, rfl, _ | ⟨hd', ⟨⟩⟩⟩ := list_of_bare h0
    obtain ⟨_, _, rfl, _ | ⟨hx, _ | ⟨hinit, ⟨⟩⟩⟩⟩ := node_of_bare hd'
    cases bare_eq_scalar hinit
    exact .iteratedDeclaration hk hd hkind (ih hx)
  | iteratedTarget _ ih => exact .iteratedTarget (ih hu)
  | forInStatement hk _ _ _ ihl ihr ihb =>
    exact of_slots hu (.part ihl fun hl => .part ihr fun hr => .part ihb fun hb =>
      .nil (.forInStatement hk hl hr hb))
  | whileStatement hk _ _ ihc ihb =>
    exact of_slots hu (.part ihc fun hc => .part ihb fun hb => .nil (.whileStatement hk hc hb))
  | doWhileStatement hk _ _ ihb ihc =>
    exact of_slots hu (.part ihb fun hb => .part ihc fun hc => .nil (.doWhileStatement hk hb hc))
  | handler hk _ _ ihx ihb => exact of_slots hu (.part ihx fun hx => .part ihb fun hb => .nil (.handler hk hx hb))
  | tryStatement hk _ _ _ hne ihb ihh ihf =>
    obtain ⟨j, us, rfl, _ | ⟨h0, _ | ⟨h1, _ | ⟨h2, ⟨⟩⟩⟩⟩⟩ := node_of_bare hu
    refine .tryStatement hk (ihb h0) (ihh h1) (ihf h2) fun hnull => hne ?_
    obtain ⟨rfl, rfl⟩ := hnull
    exact ⟨bare_eq_scalar h1.symm, bare_eq_scalar h2.symm⟩
  | program hk _ ih => exact of_slots hu (.list ih fun hs _ => .nil (.program hk hs))

theorem not_statement (h : Formed K .expression t) :
    t.is .blockStatement = false ∧ t.is .variableDeclaration = false := by
  cases h with
  | identifier h =>
    cases h
    exact ⟨rfl, rfl⟩
  | _ => exact ⟨rfl, rfl⟩

theorem numbered (h : Formed K p t) : Formed K p t.numbered := h.of_bare (bare_numberFrom 0 t)

end Formed

end ArrowFree
