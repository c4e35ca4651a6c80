import ArrowFree.Proofs.Additions
import ArrowFree.Proofs.Making
import ArrowFree.Proofs.Places
import Mathlib.Data.List.Flatten

/-!
# What a form makes of its parts

A form passes the trees of its parts on, or makes one node that spans all the parts (`assemble_cases`). The nodes
within it are nodes of the parts, in their order; only a short property has its name twice, and a loop that declares
its variable has a declarator for it.
-/

namespace ArrowFree

open List

/-! ## Nodes in fields -/

namespace Tree

@[simp] theorem child_sub (name : String) : (Field.sub name).child = true := rfl

@[simp] theorem child_subs (name : String) : (Field.subs name).child = true := rfl

@[simp] theorem child_subOrNull (name : String) : (Field.subOrNull name).child = true := rfl

@[simp] theorem child_attr (name : String) : (Field.attr name).child = false := rfl

@[simp] theorem child_attrOr (name : String) (x : Scalar) : (Field.attrOr name x).child = false := rfl

/-- The nodes of what stands in a child field. -/
def contents : Tree → List Tree
  | .list items => items.flatMap nodes
  | t => t.nodes

def contentsOf (ts : List Tree) : List Tree := ts.flatMap contents

/-- The nodes in the child fields of a node. -/
def contentsIn (fs : List Field) (slots : List Tree) : List Tree :=
  (occurrencesIn fs slots).flatMap fun o => o.tree.nodes

theorem flatMap_itemsFrom (field : Text) (n : Nat) (ts : List Tree) :
    ((itemsFrom field n ts).flatMap fun o => o.tree.nodes) = ts.flatMap nodes := by
  induction ts generalizing n with
  | nil => rfl
  | cons t ts ih => rw [itemsFrom, flatMap_cons, flatMap_cons, ih]

@[simp] theorem contents_list (items : List Tree) : contents (.list items) = items.flatMap nodes := rfl

@[simp] theorem nodes_eq_cons (i : Info) (s : Shape) (slots : List Tree) :
    (node i s slots).nodes = node i s slots :: contentsIn s.fields slots := nodes_node i s slots

@[simp] theorem contents_node (i : Info) (s : Shape) (slots : List Tree) :
    contents (.node i s slots) = .node i s slots :: contentsIn s.fields slots := nodes_node i s slots

@[simp] theorem contents_null : contents .null = [] := nodes_of_not_node rfl

@[simp] theorem contents_text (x : Text) : contents (.text x) = [] := nodes_of_not_node rfl

@[simp] theorem contentsOf_nil : contentsOf [] = [] := rfl

@[simp] theorem contentsOf_cons (t : Tree) (ts : List Tree) :
    contentsOf (t :: ts) = contents t ++ contentsOf ts := rfl

@[simp] theorem contentsOf_append (ts us : List Tree) : contentsOf (ts ++ us) = contentsOf ts ++ contentsOf us :=
  flatMap_append

@[simp] theorem contentsIn_cons (f : Field) (fs : List Field) (t : Tree) (ts : List Tree) :
    contentsIn (f :: fs) (t :: ts) = (if f.child then contents t else []) ++ contentsIn fs ts := by
  rw [contentsIn, occurrencesIn_cons, flatMap_append]
  congr 1
  unfold occurrencesOf
  split
  · cases t with
    | list items => exact flatMap_itemsFrom f.name 0 items
    | _ => simp [contents]
  · rfl

@[simp] theorem contentsIn_attr (name : String) (slots : List Tree) : contentsIn [.attr name] slots = [] := by
  cases slots <;> rfl

@[simp] theorem contentsIn_nil (fs : List Field) : contentsIn fs [] = [] := by
  rw [contentsIn, occurrencesIn_nil_right, flatMap_nil]

theorem nodes_sublist_contents (t : Tree) : t.nodes.Sublist t.contents := by
  cases t with
  | list items => exact (nodes_of_not_node rfl : nodes (.list items) = []) ▸ nil_sublist _
  | _ => exact .refl _

@[simp] theorem flatMap_nodes_sublist (ts : List Tree) : (ts.flatMap nodes).Sublist (contentsOf ts) :=
  List.Sublist.flatMap_right ts fun t _ => nodes_sublist_contents t

end Tree

namespace Script

open Grammar Token ArrowFree.Tree

variable {file : Text} {n : Tree} {ns ms : List Tree} {parts : List Built} {span : Option Span}

/-! ## Forms -/

/-- The kind of the nodes that a form makes; forms that pass trees on make none. -/
def Form.kind? : Form → Option Kind
  | .inline | .parameters | .target | .keyName | .varStatement => none
  | .program => some .program
  | .block => some .blockStatement
  | .expressionStatement => some .expressionStatement
  | .returnStatement => some .returnStatement
  | .throwStatement => some .throwStatement
  | .varDeclaration | .forInDeclaration => some .variableDeclaration
  | .variableDeclarator => some .variableDeclarator
  | .functionDeclaration => some .functionDeclaration
  | .ifStatement => some .ifStatement
  | .forStatement => some .forStatement
  | .forInStatement => some .forInStatement
  | .whileStatement => some .whileStatement
  | .doWhileStatement => some .doWhileStatement
  | .breakStatement => some .breakStatement
  | .continueStatement => some .continueStatement
  | .emptyStatement => some .emptyStatement
  | .tryCatch | .tryFinally => some .tryStatement
  | .catchClause => some .catchClause
  | .sequence => some .sequenceExpression
  | .assign | .compoundAssign => some .assignmentExpression
  | .arrowFunction => some .arrowFunctionExpression
  | .conditional => some .conditionalExpression
  | .logical => some .logicalExpression
  | .binary => some .binaryExpression
  | .unary => some .unaryExpression
  | .prefixUpdate | .postfixUpdate => some .updateExpression
  | .member | .computedMember => some .memberExpression
  | .call => some .callExpression
  | .new => some .newExpression
  | .functionExpression | .namedFunctionExpression => some .functionExpression
  | .array => some .arrayExpression
  | .object => some .objectExpression
  | .property | .shorthand => some .property

section

attribute [local simp] Shape.fields Kind.layout

theorem treesOf_drop (parts : List Built) (n : Nat) :
    Built.treesOf (parts.drop n) = Built.treesAt parts n ++ Built.treesOf (parts.drop (n + 1)) := by
  unfold Built.treesAt
  cases hn : parts[n]? with
  | none =>
    have hle := List.getElem?_eq_none_iff.mp hn
    rw [drop_eq_nil_of_le hle, drop_eq_nil_of_le (by omega)]
    rfl
  | some b =>
    obtain ⟨hlt, rfl⟩ := List.getElem?_eq_some_iff.mp hn
    rw [drop_eq_getElem_cons hlt]
    rfl

theorem contents_orNull_sublist (parts : List Built) (n : Nat) :
    (Built.orNull parts n).contents.Sublist (contentsOf (Built.treesAt parts n)) := by
  unfold Built.orNull Built.treesAt
  cases parts[n]? with
  | none => simp
  | some b => cases hb : b.trees <;> simp [hb]

theorem sublist_drop {n k : Nat} (hk : n < k) (hns : ns.Sublist (contentsOf (Built.treesAt parts n)))
    (hms : ms.Sublist (contentsOf (Built.treesOf (parts.drop k)))) :
    (ns ++ ms).Sublist (contentsOf (Built.treesOf (parts.drop n))) := by
  rw [treesOf_drop, contentsOf_append]
  have hdrop : (parts.drop k).Sublist (parts.drop (n + 1)) := drop_sublist_drop_left parts hk
  exact hns.append (hms.trans ((hdrop.flatMap _).flatMap _))

theorem contents_function_sublist (rest : List Tree) :
    (rest.dropLast.flatMap nodes ++ (rest.getLast?.getD .null).contents).Sublist (contentsOf rest) := by
  rcases eq_nil_or_concat rest with rfl | ⟨rest, last, rfl⟩
  · simp
  · simp

theorem sequence_eq (location : Option Location) (left right : Tree) :
    ∃ items, sequence location left right = .mk .sequenceExpression location [.list items] ∧
      (items.flatMap nodes).Sublist (left.contents ++ right.contents) := by
  have hpair : ([left, right].flatMap nodes).Sublist (left.contents ++ right.contents) := by
    simpa using flatMap_nodes_sublist [left, right]
  unfold sequence
  split
  · next i items =>
    split
    · refine ⟨_, rfl, ?_⟩
      have hright := (List.Sublist.refl (items.flatMap nodes)).append (nodes_sublist_contents right)
      simpa using hright.cons _
    · exact ⟨_, rfl, hpair⟩
  · exact ⟨_, rfl, hpair⟩

/-- What a node has within it, from the trees that it is made of. -/
inductive Kids : Form → List Tree → List Tree → Prop where
  | ordered {form : Form} {trees kids : List Tree} : kids.Sublist (contentsOf trees) → Kids form trees kids
  | shorthand (name : Tree) : Kids .shorthand [name] (name.contents ++ name.contents)
  | declarator (kind name : Tree) : Kids .forInDeclaration [kind, name]
      (Tree.mk .variableDeclarator name.location [name, .null]).nodes

/-- **What a form makes of its parts**: their trees as they are, or one node at their span. -/
theorem assemble_cases {form : Form} {trees : List Tree} (h : assemble file form span parts = .ok trees) :
    (trees = Built.treesOf parts ∧ form ≠ .block ∧ form ≠ .forStatement) ∨
    ∃ i s slots, trees = [.node i s slots] ∧ i.location = span.map (locationOf file) ∧
      Kids form (Built.treesOf parts) (contentsIn s.fields slots) ∧
      ((∃ k, form.kind? = some k ∧ s = .known k) ∨
        form = .varStatement ∧ ∃ j, Built.treesOf parts = [.node j s slots]) := by
  have hfor : ((Built.orNull parts 2).contents ++ ((Built.orNull parts 4).contents ++
      ((Built.orNull parts 6).contents ++ (Built.orNull parts 8).contents))).Sublist
        (contentsOf (Built.treesOf parts)) := by
    have hpart := contents_orNull_sublist parts
    have hbody := sublist_drop (Nat.lt_succ_self 8) (hpart 8) (nil_sublist _)
    rw [append_nil] at hbody
    have hkids := sublist_drop (by decide) (hpart 2)
      (sublist_drop (by decide) (hpart 4) (sublist_drop (by decide) (hpart 6) hbody))
    exact hkids.trans (((drop_sublist 2 parts).flatMap _).flatMap _)
  have harrow : ((Built.treesAt parts 0).flatMap nodes ++ (Built.orNull parts 2).contents).Sublist
      (contentsOf (Built.treesOf parts)) := by
    have hbody := sublist_drop (Nat.lt_succ_self 2) (contents_orNull_sublist parts 2) (nil_sublist _)
    rw [append_nil] at hbody
    exact sublist_drop (by decide) (flatMap_nodes_sublist _) hbody
  unfold assemble at h
  dsimp only at h
  generalize Built.treesOf parts = us at h hfor harrow
  split at h
  all_goals try obtain ⟨_, -, h⟩ := bind_ok.mp h
  all_goals cases h
  case h_48.refl => exact .inl ⟨rfl, by assumption, by assumption⟩
  all_goals try exact .inl ⟨rfl, nofun, nofun⟩
  case h_7.refl => exact .inr ⟨_, _, _, rfl, rfl, .ordered (by simp), .inr ⟨rfl, _, rfl⟩⟩
  case h_28.refl left right =>
    obtain ⟨items, heq, hitems⟩ := sequence_eq (span.map (locationOf file)) left right
    rw [heq]
    exact .inr ⟨_, _, _, rfl, rfl, .ordered (by simpa using hitems), .inl ⟨_, rfl, rfl⟩⟩
  case h_17.refl kind name =>
    refine .inr ⟨_, _, _, rfl, rfl, ?_, .inl ⟨_, rfl, rfl⟩⟩
    have hkids := Kids.declarator kind name
    simpa using hkids
  case h_47.refl name =>
    refine .inr ⟨_, _, _, rfl, rfl, ?_, .inl ⟨_, rfl, rfl⟩⟩
    have hkids := Kids.shorthand name
    simpa using hkids
  all_goals
    exact .inr ⟨_, _, _, rfl, rfl, .ordered (by simp [hfor, harrow, contents_function_sublist]), .inl ⟨_, rfl, rfl⟩⟩

end

end Script

end ArrowFree
