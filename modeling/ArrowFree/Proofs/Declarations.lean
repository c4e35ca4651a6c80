import ArrowFree.Proofs.Chains
import Mathlib.Data.List.Induction

/-!
# The declarations of a scope

A scope keeps one binding for each name. It is put together from all declarations of that name, in the
order in which they came: the first gives the type and the node, each gives its identifier
(`Holds.binding?`).
-/

namespace ArrowFree

open List

variable {ds : List Declaration}

/-- One declaration of a name. -/
structure Declaration where
  name : Text
  type : BindingType
  node : NodeId
  identifier : NodeId
deriving DecidableEq, Repr

namespace Declaration

/-- The bindings after one more declaration. -/
def into (bs : List Binding) (d : Declaration) : List Binding :=
  Scope.declare d.name d.type d.node d.identifier bs

/-- The binding that the declarations of one name make up. -/
def merged : List Declaration → Option Binding
  | [] => none
  | d :: ds => some ⟨d.name, d.type, d.node, (d :: ds).map Declaration.identifier⟩

theorem find?_into_of_ne {name : Text} {d : Declaration} (h : d.name ≠ name) (bs : List Binding) :
    (into bs d).find? (fun b => b.name = name) = bs.find? fun b => b.name = name := by
  unfold into
  induction bs with
  | nil => simp [Scope.declare, h]
  | cons b bs ih =>
    unfold Scope.declare
    by_cases hb : b.name = d.name
    · rw [if_pos hb, find?_cons, find?_cons]
      simp [hb, h]
    · rw [if_neg hb, find?_cons, find?_cons, ih]

theorem find?_into (d : Declaration) (bs : List Binding) :
    (into bs d).find? (fun b => b.name = d.name) =
      match bs.find? fun b => b.name = d.name with
      | none => some ⟨d.name, d.type, d.node, [d.identifier]⟩
      | some b => some { b with identifiers := b.identifiers ++ [d.identifier] } := by
  unfold into
  induction bs with
  | nil => simp [Scope.declare]
  | cons b bs ih =>
    unfold Scope.declare
    by_cases hb : b.name = d.name
    · rw [if_pos hb, find?_cons, find?_cons]
      simp [hb]
    · rw [if_neg hb, find?_cons, find?_cons, ih]
      simp [hb]

theorem merged_append (ds : List Declaration) (d : Declaration) : merged (ds ++ [d]) =
      match merged ds with
      | none => some ⟨d.name, d.type, d.node, [d.identifier]⟩
      | some b => some { b with identifiers := b.identifiers ++ [d.identifier] } := by
  cases ds with
  | nil => rfl
  | cons e es => simp [merged]

theorem identifiers_merged {b : Binding} (h : merged ds = some b) :
    b.identifiers = ds.map Declaration.identifier := by
  cases ds with
  | nil => cases h
  | cons d ds => rw [← Option.some.inj h]

theorem find?_foldl_into (name : Text) (ds : List Declaration) :
    (ds.foldl into []).find? (fun b => b.name = name) =
      merged (ds.filter fun d => d.name = name) := by
  induction ds using List.reverseRecOn with
  | nil => rfl
  | append_singleton ds d ih =>
    rw [foldl_append, filter_append]
    show (into (ds.foldl into []) d).find? _ = _
    by_cases hd : d.name = name
    · subst hd
      rw [find?_into, ih, filter_singleton, decide_eq_true rfl]
      exact (merged_append _ d).symm
    · rw [find?_into_of_ne hd, ih, filter_singleton, decide_eq_false hd]
      exact congrArg merged (append_nil _).symm

end Declaration

namespace Scope

variable {s : Scope}

/-- The bindings of the scope come from these declarations. -/
def Holds (s : Scope) (ds : List Declaration) : Prop := s.bindings = ds.foldl Declaration.into []

theorem Holds.define (h : s.Holds ds) (name : Text) (type : BindingType) (node identifier : NodeId) :
    (s.define name type node identifier).Holds (ds ++ [⟨name, type, node, identifier⟩]) := by
  unfold Holds Scope.define
  rw [foldl_append, ← h]
  rfl

/-- **Bindings.** What a name means in a scope, from the declarations of the scope. -/
theorem Holds.binding? (h : s.Holds ds) (name : Text) :
    s.binding? name = Declaration.merged (ds.filter fun d => d.name = name) := by
  unfold Scope.binding?
  rw [h, Declaration.find?_foldl_into]

end Scope

end ArrowFree
