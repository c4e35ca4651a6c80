import ArrowFree.Proofs.Additions
import ArrowFree.Proofs.Places
import ArrowFree.Proofs.PrintedWords

/-!
# The parts of printed code

The pieces of a node are its mark and then texts with the pieces of nodes within it between them
(`IsPrinted.composed`). Hence every mark among the pieces of a tree stands where the pieces of one of its
nodes begin, and has that node's location (`exists_node_of_mark`).
-/

namespace ArrowFree

open List

variable {c t : Tree}

namespace Tree

variable {o : Occurrence}

/-- The values in the child fields of a node. -/
def childSlots (s : Shape) (slots : List Tree) : List Tree :=
  ((s.fields.zip slots).filter fun e => e.1.child).map Prod.snd

theorem mem_occurrencesIn_of_slot {fs : List Field} {slots : List Tree} {f : Field}
    (h : (f, c) ∈ fs.zip slots) (ho : o ∈ occurrencesOf f c) : o ∈ occurrencesIn fs slots := by
  induction fs generalizing slots with
  | nil => cases h
  | cons g fs ih =>
    cases slots with
    | nil => cases h
    | cons t ts =>
      rw [occurrencesIn_cons, mem_append]
      rcases mem_cons.mp h with heq | h
      · cases heq
        exact .inl ho
      · exact .inr (ih h)

/-- The nodes strictly within a tree. -/
def innerNodes (t : Tree) : List Tree := t.nodes.tail

theorem mem_inner_of_occurrence (ho : o ∈ t.occurrences) (hc : c ∈ o.tree.nodes) : c ∈ t.innerNodes := by
  rcases t.eq_node_or_not_node with ⟨i, s, slots, rfl⟩ | ht
  · rw [innerNodes, nodes_node, tail_cons]
    exact mem_flatMap.mpr ⟨o, ho, hc⟩
  · rw [occurrences_of_not_node ht] at ho
    cases ho

theorem mem_nodes_of_inner (h : c ∈ t.innerNodes) : c ∈ t.nodes := mem_of_mem_tail h

variable {i : Info} {s : Shape} {slots : List Tree} {c : Tree}

theorem mem_inner_of_slot (h : c ∈ childSlots s slots) (hc : c.isNode) :
    c ∈ (node i s slots).innerNodes := by
  obtain ⟨⟨f, c⟩, he, rfl⟩ := mem_map.mp h
  obtain ⟨he, hf⟩ := mem_filter.mp he
  have ho : ⟨f.name, none, c⟩ ∈ occurrencesOf f c := by
    rw [occurrencesOf_of_isNode hf hc]
    exact mem_singleton_self _
  exact mem_inner_of_occurrence (mem_occurrencesIn_of_slot he ho) (self_mem_nodes hc)

theorem mem_inner_of_item {items : List Tree} (h : list items ∈ childSlots s slots)
    (hmem : c ∈ items) (hc : c.isNode) : c ∈ (node i s slots).innerNodes := by
  obtain ⟨⟨f, _⟩, he, rfl⟩ := mem_map.mp h
  obtain ⟨he, hf⟩ := mem_filter.mp he
  obtain ⟨k, hk⟩ := exists_mem_itemsFrom f.name 0 hmem
  have ho : ⟨f.name, some k, c⟩ ∈ occurrencesOf f (list items) := by
    unfold occurrencesOf
    rwa [if_pos hf]
  exact mem_inner_of_occurrence (mem_occurrencesIn_of_slot he ho) (self_mem_nodes hc)

theorem mem_inner_trans {m : Tree} (hm : m ∈ t.innerNodes) (hc : c ∈ m.nodes) : c ∈ t.innerNodes := by
  rcases t.eq_node_or_not_node with ⟨i, s, slots, rfl⟩ | ht
  · rw [innerNodes, nodes_node, tail_cons] at hm ⊢
    obtain ⟨o, ho, hm⟩ := mem_flatMap.mp hm
    exact mem_flatMap.mpr ⟨o, ho, nodes_trans hm hc⟩
  · rw [innerNodes, nodes_of_not_node ht] at hm
    cases hm

/-- What holds of a tree when it holds of every node within it, holds of every tree. -/
theorem inner_induction {P : Tree → Prop} (h : ∀ t : Tree, (∀ c ∈ t.innerNodes, P c) → P t) (t : Tree) :
    P t := by
  have all : P t ∧ ∀ c ∈ t.innerNodes, P c := by
    induction t using occurrence_induction with
    | h t ih =>
      have hinner : ∀ c ∈ t.innerNodes, P c := by
        intro c hc
        rcases t.eq_node_or_not_node with ⟨i, s, slots, rfl⟩ | ht
        · rw [innerNodes, nodes_node, tail_cons] at hc
          obtain ⟨o, ho, hc⟩ := mem_flatMap.mp hc
          rcases o.tree.eq_node_or_not_node with ⟨j, s', slots', hnode⟩ | hnot
          · rw [hnode, nodes_node, ← hnode] at hc
            rcases mem_cons.mp hc with rfl | hc
            · exact (ih o ho).1
            · refine (ih o ho).2 c ?_
              rwa [innerNodes, hnode, nodes_node, tail_cons]
          · rw [nodes_of_not_node hnot] at hc
            cases hc
        · rw [innerNodes, nodes_of_not_node ht] at hc
          cases hc
      exact ⟨h t hinner, hinner⟩
  exact all.1

end Tree

namespace Printer

open ArrowFree.Tree

variable {ps after : List Piece} {name : Option Text} {l : Location} {B' : Tree → Prop}

/-! ## Composition -/

/-- These are the pieces of the node; in the head of a loop a declaration has no semicolon. -/
def IsPrinted (indent : Text) (t : Tree) (ps : List Piece) : Prop :=
  ∃ level, print indent level t = .ok ps ∨ printDeclaration indent level t = .ok ps

/-- Texts with the pieces of nodes from a collection between them. -/
inductive Composed (indent : Text) (B : Tree → Prop) : List Piece → Prop where
  | nil : Composed indent B []
  | text (t : Text) {ps : List Piece} : Composed indent B ps → Composed indent B (.text t :: ps)
  | part {c : Tree} {qs ps : List Piece} : B c → IsPrinted indent c qs → Composed indent B ps →
      Composed indent B (qs ++ ps)

/-- What is printed, if it is, is composed so. -/
def Composes (indent : Text) (B : Tree → Prop) (p : Pieces) : Prop :=
  ∀ ps, p = .ok ps → Composed indent B ps

variable {indent : Text} {B : Tree → Prop}

theorem Composed.append {qs : List Piece} (hp : Composed indent B ps) (hq : Composed indent B qs) :
    Composed indent B (ps ++ qs) := by
  induction hp with
  | nil => exact hq
  | text t _ ih => exact .text t ih
  | part hc hprinted _ ih =>
    rw [append_assoc]
    exact .part hc hprinted ih

namespace Composes

variable {p : Pieces}

@[simp] theorem error (f : Fault) : Composes indent B (.error f) := nofun

@[simp] theorem empty : Composes indent B (.ok []) := by
  rintro ps ⟨⟩
  exact .nil

@[simp] theorem word (t : Text) : Composes indent B (word t) := by
  rintro ps ⟨⟩
  exact .text t .nil

@[simp] theorem newline (level : Nat) : Composes indent B (newline indent level) := word _

theorem mono (h : Composes indent B p) (hB : ∀ c, B c → B' c) : Composes indent B' p := by
  intro ps hps
  have hcomposed := h ps hps
  clear hps
  induction hcomposed with
  | nil => exact .nil
  | text t _ ih => exact .text t ih
  | part hc hprinted _ ih => exact .part (hB _ hc) hprinted ih

theorem bind {α : Type} {x : Except Fault α} {f : α → Pieces} (h : ∀ v, Composes indent B (f v)) :
    Composes indent B (x >>= f) := by
  intro ps hps
  obtain ⟨v, -, hv⟩ := bind_ok.mp hps
  exact h v ps hv

theorem ite {c : Prop} [Decidable c] {q : Pieces} (hp : Composes indent B p)
    (hq : Composes indent B q) : Composes indent B (if c then p else q) := by
  split
  · exact hp
  · exact hq

theorem sequence {ps : List Pieces} (h : ∀ p ∈ ps, Composes indent B p) :
    Composes indent B (sequence ps) := by
  induction ps with
  | nil => exact empty
  | cons p ps ih =>
    intro qs hqs
    obtain ⟨a, ha, hqs⟩ := bind_ok.mp hqs
    obtain ⟨b, hb, hqs⟩ := bind_ok.mp hqs
    obtain rfl := Except.ok.inj hqs
    exact (h p mem_cons_self a ha).append (ih (fun p hp => h p (.tail _ hp)) b hb)

theorem nil : Composes indent B (Printer.sequence []) := empty

theorem cons {ps : List Pieces} (hp : Composes indent B p)
    (hps : Composes indent B (Printer.sequence ps)) : Composes indent B (Printer.sequence (p :: ps)) := by
  intro qs hqs
  obtain ⟨a, ha, hqs⟩ := bind_ok.mp hqs
  obtain ⟨b, hb, hqs⟩ := bind_ok.mp hqs
  obtain rfl := Except.ok.inj hqs
  exact (hp a ha).append (hps b hb)

theorem parenthesized {parens : Except Fault Bool} {p : Pieces} (h : Composes indent B p) :
    Composes indent B (parenthesized parens p) :=
  bind fun _ => ite (sequence (by simpa using h)) h

@[simp] theorem verbatim (t : Tree) : Composes indent B (verbatim t) := by
  unfold Printer.verbatim
  split <;> simp

@[simp] theorem notAList (t : Tree) : Composes indent B (notAList t) := by
  unfold Printer.notAList
  split <;> simp

@[simp] theorem keyword (t : Tree) : Composes indent B (keyword t) := by
  unfold Printer.keyword
  split <;> simp

theorem written (t : Tree) : Composes indent B (do Printer.word (← Literal.write t)) :=
  bind fun _ => word _

@[simp] theorem unaryGap (operator argument : Tree) : Composes indent B (unaryGap operator argument) :=
  ite (word _) (bind fun _ => ite (word _) empty)

theorem print {level : Nat} (h : c.isNode → B c) : Composes indent B (print indent level c) := by
  intro ps hps
  have hc : c.isNode := by
    cases c with
    | node i s slots => rfl
    | _ => cases hps
  simpa using Composed.part (h hc) ⟨level, .inl hps⟩ .nil

section Items

variable (F : Bool → List Tree → Pieces) (before : Bool → List Pieces) (item : Tree → Pieces)
  (hnil : ∀ first, F first [] = .ok [])
  (hcons : ∀ first t ts, F first (t :: ts) = Printer.sequence (before first ++ [item t, F false ts]))
  (hbefore : ∀ first, ∀ p ∈ before first, Composes indent B p)

include hnil hcons hbefore

theorem items {ts : List Tree} (h : ∀ t ∈ ts, Composes indent B (item t)) (first : Bool) :
    Composes indent B (F first ts) := by
  induction ts generalizing first with
  | nil =>
    rw [hnil]
    exact empty
  | cons t ts ih =>
    rw [hcons]
    refine sequence (forall_mem_append.mpr ⟨hbefore first, ?_⟩)
    simpa using ⟨h t mem_cons_self, ih (fun c hc => h c (.tail _ hc)) false⟩

end Items

section Lists

variable {s : Shape} {slots : List Tree} {i : Info} {t : Tree} (ht : t ∈ childSlots s slots)
  {level : Nat}
include ht

theorem child : Composes indent (· ∈ (node i s slots).innerNodes) (Printer.print indent level t) :=
  print fun hnode => mem_inner_of_slot ht hnode

theorem declaration :
    Composes indent (· ∈ (node i s slots).innerNodes) (printDeclaration indent level t) := by
  intro ps hps
  have hnode : t.isNode := by
    cases t with
    | node i s slots => rfl
    | _ => cases hps
  simpa using Composed.part (B := (· ∈ (node i s slots).innerNodes)) (mem_inner_of_slot ht hnode)
    ⟨level, .inr hps⟩ .nil

theorem statements (top : Bool) :
    Composes indent (· ∈ (node i s slots).innerNodes) (printStatements indent level top t) := by
  unfold printStatements
  split
  · exact items (printStatementItems indent level)
      (fun first => [if first then .ok [] else Printer.newline indent level])
      (Printer.print indent level) (fun _ => by rw [printStatementItems])
      (fun _ _ _ => by rw [printStatementItems]; rfl) (fun _ => by simp [ite])
      (fun _ hc => print (mem_inner_of_item ht hc)) top
  · exact notAList _

theorem comma : Composes indent (· ∈ (node i s slots).innerNodes) (printComma indent level t) := by
  unfold printComma
  split
  · exact items (printCommaItems indent level) (fun first => [if first then .ok [] else Printer.word ", "])
      (fun c => Printer.parenthesized (looserThanAssignment c) (Printer.print indent level c))
      (fun _ => by rw [printCommaItems]) (fun _ _ _ => by rw [printCommaItems]; rfl)
      (fun _ => by simp [ite]) (fun _ hc => (print (mem_inner_of_item ht hc)).parenthesized) true
  · exact notAList _

theorem declarators :
    Composes indent (· ∈ (node i s slots).innerNodes) (printDeclarators indent level t) := by
  unfold printDeclarators
  split
  · exact items (printDeclaratorItems indent level)
      (fun first => [if first then .ok [] else Printer.word ", "]) (Printer.print indent level)
      (fun _ => by rw [printDeclaratorItems]) (fun _ _ _ => by rw [printDeclaratorItems]; rfl)
      (fun _ => by simp [ite]) (fun _ hc => print (mem_inner_of_item ht hc)) true
  · exact notAList _

theorem properties :
    Composes indent (· ∈ (node i s slots).innerNodes) (printProperties indent level t) := by
  unfold printProperties
  split
  · exact items (printPropertyItems indent level)
      (fun first => [if first then .ok [] else Printer.word ",", Printer.newline indent level])
      (Printer.print indent level) (fun _ => by rw [printPropertyItems])
      (fun _ _ _ => by rw [printPropertyItems]; rfl) (fun _ => by simp [ite])
      (fun _ hc => print (mem_inner_of_item ht hc)) true
  · exact notAList _

/-- An accessor is printed with the parameters and the body of its function. -/
theorem method :
    Composes indent (· ∈ (node i s slots).innerNodes) (printMethod indent level t) := by
  unfold printMethod
  split
  · next j name params body =>
    have hparams : Composes indent
        (· ∈ (Tree.node j (.known .functionExpression) [name, params, body]).innerNodes)
        (printComma indent level params) := comma (.tail _ (.head _))
    have hbody : Composes indent
        (· ∈ (Tree.node j (.known .functionExpression) [name, params, body]).innerNodes)
        (Printer.print indent level body) := child (.tail _ (.tail _ (.head _)))
    refine mono (sequence ?_) fun c hc => mem_inner_trans (mem_inner_of_slot ht rfl) (mem_nodes_of_inner hc)
    simpa using ⟨hparams, hbody⟩
  · exact error _

end Lists

theorem node (i : Info) (k : Kind) (slots : List Tree) (level : Nat) :
    Composes indent (· ∈ (Tree.node i (.known k) slots).innerNodes) (printNode indent level k slots) := by
  unfold printNode
  split
  -- every part is a text of the printer's own, or the printed value of a child field
  all_goals try dsimp only [Printer.operand, cons_append, nil_append]
  all_goals repeat' first
    | apply nil | apply cons | apply unaryGap | apply ite | apply parenthesized
    | apply error | apply empty | apply word | apply newline | apply verbatim | apply keyword
    | apply written | apply child | apply declaration | apply statements | apply comma
    | apply declarators | apply properties | apply method
  all_goals simp [childSlots, Shape.fields, Kind.layout, Field.sub, Field.subs, Field.subOrNull,
    Field.attr, Field.attrOr]

end Composes

/-! ## Marks -/

theorem markOf_eq (i : Info) (s : Shape) (slots : List Tree) :
    ∃ name, markOf i s slots = (i.location.map fun l => Piece.mark l name).toList ∧
      ∀ x, name = some x → s = .known .identifier ∧ slots = [.text x] := by
  unfold markOf
  cases i.location with
  | none => exact ⟨none, rfl, nofun⟩
  | some l =>
    refine ⟨_, rfl, fun x hx => ?_⟩
    split at hx
    · next name =>
      refine ⟨rfl, ?_⟩
      cases name with
      | scalar v =>
        cases v with
        | text y => exact congrArg (fun z => [Tree.text z]) (Option.some.inj hx)
        | _ => cases hx
      | _ => cases hx
    · cases hx

/-- The pieces of a node: its mark if it is located, and texts with the pieces of nodes within it between
them. A mark with a name is that of an identifier, followed by the name. -/
theorem IsPrinted.composed (h : IsPrinted indent t ps) :
    t.isNode ∧ ∃ name body, ps = (t.location.map fun l => Piece.mark l name).toList ++ body ∧
      Composed indent (· ∈ t.innerNodes) body ∧
      ∀ x, name = some x → codeOf body = x ∧ t.name? = some x := by
  obtain ⟨level, h | h⟩ := h
  · cases t with
    | node i s slots =>
      cases s with
      | other type names => cases h
      | known k =>
        rw [print] at h
        obtain ⟨body, hbody, h⟩ := bind_ok.mp h
        obtain rfl := Except.ok.inj h
        obtain ⟨name, hmark, hname⟩ := markOf_eq i (.known k) slots
        refine ⟨rfl, name, body, by rw [hmark]; rfl, Composes.node i k slots level body hbody, fun x hx => ?_⟩
        obtain ⟨hk, rfl⟩ := hname x hx
        obtain rfl := Shape.known.inj hk
        rw [printNode] at hbody
        obtain rfl := Except.ok.inj hbody
        exact ⟨by simp [codeOf, textOf], rfl⟩
    | _ => cases h
  · unfold printDeclaration at h
    split at h
    · next i declarations kind =>
      obtain ⟨body, hbody, h⟩ := bind_ok.mp h
      obtain rfl := Except.ok.inj h
      refine ⟨rfl, none, body, ?_, ?_, by simp⟩
      · unfold markOf
        cases hl : i.location <;> simp [Tree.location, Tree.info, hl]
      · refine Composes.cons (Composes.keyword kind) (.cons (.declarators ?_) .nil) body hbody
        exact .head _
    · cases h

/-- Here the pieces of one of some nodes begin, which has that location; a name that is given is its name and
its text. -/
def Starts (indent : Text) (B : Tree → Prop) (l : Location) (name : Option Text) (ps : List Piece) : Prop :=
  ∃ n own after, B n ∧ IsPrinted indent n own ∧ n.location = some l ∧ ps = own ++ after ∧
    ∀ x, name = some x → codeOf own = x ∧ n.name? = some x

theorem Starts.append
    (h : Starts indent B l name ps) (qs : List Piece) : Starts indent B l name (ps ++ qs) := by
  obtain ⟨n, own, after, hn, hown, hl, rfl, hname⟩ := h
  exact ⟨n, own, after ++ qs, hn, hown, hl, append_assoc .., hname⟩

theorem Starts.mono (h : Starts indent B l name ps) (hB : ∀ c, B c → B' c) : Starts indent B' l name ps := by
  obtain ⟨n, own, after, hn, hrest⟩ := h
  exact ⟨n, own, after, hB n hn, hrest⟩

/-- A mark within composed pieces is one of the parts. -/
theorem Composed.starts (h : Composed indent B ps)
    (hpart : ∀ c, B c → ∀ qs, IsPrinted indent c qs → ∀ before l name after,
      qs = before ++ .mark l name :: after → Starts indent B' l name (.mark l name :: after))
    {before : List Piece} (hsplit : ps = before ++ .mark l name :: after) :
    Starts indent B' l name (.mark l name :: after) := by
  induction h generalizing before with
  | nil => simp at hsplit
  | text t _ ih =>
    cases before with
    | nil => cases hsplit
    | cons p before => exact ih (List.cons.inj hsplit).2
  | @part c qs ps hc hprinted _ ih =>
    rcases append_eq_append_iff.mp hsplit with ⟨as, rfl, hps⟩ | ⟨bs, hqs, hrest⟩
    · exact ih hps
    · cases bs with
      | nil => exact ih (show ps = [] ++ _ from hrest.symm)
      | cons b bs =>
        obtain ⟨rfl, rfl⟩ := List.cons.inj hrest
        exact (hpart c hc qs hprinted before l name bs hqs).append ps

/-- **Every mark stands where the text of a node begins**, and has that node's location. -/
theorem exists_node_of_mark (h : IsPrinted indent t ps) {before : List Piece}
    (hsplit : ps = before ++ .mark l name :: after) :
    Starts indent (· ∈ t.nodes) l name (.mark l name :: after) := by
  induction t using Tree.inner_induction generalizing ps before l name after with
  | h t ih =>
    obtain ⟨hnode, name', body, hps, hbody, hname⟩ := h.composed
    have within {before' : List Piece} (hsplit : body = before' ++ .mark l name :: after) :
        Starts indent (· ∈ t.nodes) l name (.mark l name :: after) := by
      refine hbody.starts (fun c hc qs hqs b l' name'' after' hsplit' => ?_) hsplit
      exact (ih c hc hqs hsplit').mono fun n hn => mem_nodes_of_inner (mem_inner_trans hc hn)
    cases hl : t.location with
    | none =>
      rw [hps, hl] at hsplit
      exact within hsplit
    | some l' =>
      rw [hl] at hps
      cases before with
      | nil =>
        obtain ⟨heq, hafter⟩ := List.cons.inj (hps.symm.trans hsplit)
        cases heq
        refine ⟨t, ps, [], self_mem_nodes hnode, h, hl, by rw [hsplit]; simp, fun x hx => ?_⟩
        rw [hps, codeOf, flatMap_append]
        exact hname x hx
      | cons p before => exact within (List.cons.inj (hps.symm.trans hsplit)).2

end Printer

end ArrowFree
