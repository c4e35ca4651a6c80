import ArrowFree.Lowering.Arguments
import ArrowFree.Proofs.Additions
import Mathlib.Data.List.Perm.Subperm
import Mathlib.Data.List.Nodup

/-!
# Generated names

A generated name is the least that is free (`freshName_least`): the base and the base with a number behind it are
all different, so that the numbers up to one more than there are names cannot all be taken. A name that is
generated for a node is therefore the name of no identifier in it (`Generated.ne`), and it stays with the node
(`nameFor_least_and_kept`).
-/

namespace ArrowFree

open List

theorem CodePoint.ofChar_injective : Function.Injective CodePoint.ofChar := by
  intro c d h
  have hval : (ofChar c).val = (ofChar d).val := by rw [h]
  exact Char.toNat_inj.mp hval

theorem Text.ofNat_injective : Function.Injective Text.ofNat := by
  intro m n h
  have hdigits := map_injective_iff.mpr CodePoint.ofChar_injective h
  rw [← Nat.ofDigitChars_ten_toDigits (n := m), ← Nat.ofDigitChars_ten_toDigits (n := n), hdigits]

namespace Lowering

variable {base name : Text} {taken : List Text} {used : Text → Prop} {id : NodeId}

theorem numbered_injective (base : Text) : Function.Injective fun k => base ++ Text.ofNat k :=
  fun _ _ h => Text.ofNat_injective (append_cancel_left h)

theorem numbered_ne (base : Text) (k : Nat) : base ++ Text.ofNat k ≠ base := by
  intro h
  have hnil : Text.ofNat k = [] := append_cancel_left (h.trans (append_nil base).symm)
  exact Nat.toDigits_ne_nil (map_eq_nil_iff.mp hnil)

/-- The base and as many numbered names as there are taken ones are not all taken. -/
theorem exists_free (hbase : base ∈ taken) : ¬ ∀ k < taken.length, base ++ Text.ofNat (k + 1) ∈ taken := by
  intro hall
  let names := base :: (List.range taken.length).map fun k => base ++ Text.ofNat (k + 1)
  have hnodup : names.Nodup := by
    refine nodup_cons.mpr ⟨fun hmem => ?_, ?_⟩
    · obtain ⟨k, -, hk⟩ := mem_map.mp hmem
      exact numbered_ne base _ hk
    · exact List.Nodup.map (fun m n h => Nat.succ.inj (numbered_injective base h)) nodup_range
  have hsub : names ⊆ taken := by
    refine cons_subset.mpr ⟨hbase, fun name hname => ?_⟩
    obtain ⟨k, hk, rfl⟩ := mem_map.mp hname
    exact hall k (mem_range.mp hk)
  have hlength := (subperm_of_subset hnodup hsub).length_le
  simp only [names, length_cons, length_map, length_range] at hlength
  omega

/-- The base if it is not in use, or else the base with the least number behind it that is not in use. -/
inductive LeastFree (used : Text → Prop) (base : Text) : Text → Prop where
  | base : ¬ used base → LeastFree used base base
  | numbered {k : Nat} : used base → 1 ≤ k → ¬ used (base ++ Text.ofNat k) →
      (∀ j, 1 ≤ j → j < k → used (base ++ Text.ofNat j)) → LeastFree used base (base ++ Text.ofNat k)

theorem LeastFree.not_used (h : LeastFree used base name) : ¬ used name := by
  cases h with
  | base hfree => exact hfree
  | numbered _ _ hfree _ => exact hfree

theorem LeastFree.begins (h : LeastFree used base name) : base <+: name := by
  cases h with
  | base => exact prefix_rfl
  | numbered => exact prefix_append _ _

/-- The search from `n` on comes to the least free number: at the latest when it has passed over as many numbers as
there are names. -/
theorem firstFree_least (hbase : base ∈ taken) {fuel n : Nat} (hn : 1 ≤ n)
    (hlength : fuel + n = taken.length + 1) (hbefore : ∀ j, 1 ≤ j → j < n → base ++ Text.ofNat j ∈ taken) :
    LeastFree (· ∈ taken) base (firstFree base taken fuel n) := by
  induction fuel generalizing n with
  | zero => exact absurd (fun k hk => hbefore (k + 1) (by omega) (by omega)) (exists_free hbase)
  | succ fuel ih =>
    unfold firstFree
    by_cases htaken : taken.contains (base ++ Text.ofNat n) = true
    · rw [if_pos htaken]
      refine ih (by omega) (by omega) fun j hj hlt => ?_
      rcases Nat.lt_succ_iff_lt_or_eq.mp hlt with hlt | rfl
      · exact hbefore j hj hlt
      · exact contains_iff_mem.mp htaken
    · rw [if_neg htaken]
      exact .numbered hbase hn (fun hmem => htaken (contains_iff_mem.mpr hmem)) hbefore

/-- **Fresh names** are the least free ones. -/
theorem freshName_least (base : Text) (taken : List Text) :
    LeastFree (· ∈ taken) base (freshName base taken) := by
  unfold freshName
  by_cases hbase : taken.contains base = true
  · rw [if_pos hbase]
    exact firstFree_least (contains_iff_mem.mp hbase) (Nat.le_refl 1) rfl (by omega)
  · rw [if_neg hbase]
    exact .base fun hmem => hbase (contains_iff_mem.mpr hmem)

/-! ## Names for nodes -/

variable {base name : Text} {names : NodeMap Text} {target : Tree} {taken : List Text}

theorem mem_identifierNames (h : identifierNames target = .ok taken) {x : Text} :
    x ∈ taken ↔ ∃ n ∈ target.nodes, n.name? = some x := by
  obtain ⟨hin, hout⟩ := filterMapM_ok h
  constructor
  · intro hx
    obtain ⟨n, hn, hname⟩ := hout x hx
    refine ⟨n, hn, ?_⟩
    split_ifs at hname with hid
    · split at hname
      · next hv =>
        obtain rfl := Option.some.inj (Except.ok.inj hname)
        rw [Tree.name?, if_pos hid, hv]
        rfl
      all_goals cases hname
    · cases hname
  · rintro ⟨n, hn, hname⟩
    obtain ⟨o, ho, hmem⟩ := hin n hn
    unfold Tree.name? at hname
    split_ifs at hname with hid
    obtain ⟨v, hv, htext⟩ := Option.bind_eq_some_iff.mp hname
    rw [if_pos hid, hv] at ho
    unfold Tree.asText? at htext
    split at htext
    · obtain rfl := Option.some.inj htext
      exact hmem _ (Except.ok.inj ho).symm
    · cases htext

/-- The name is the one that is generated for a node. -/
def Generated (target : Tree) (name : Text) : Prop :=
  ∃ taken, identifierNames target = .ok taken ∧ name = freshName baseName taken

theorem Generated.ne {n : Tree} {other : Text} (h : Generated target name) (hn : n ∈ target.nodes)
    (hother : n.name? = some other) : other ≠ name := by
  obtain ⟨taken, htaken, rfl⟩ := h
  rintro rfl
  exact (freshName_least baseName taken).not_used ((mem_identifierNames htaken).mpr ⟨n, hn, hother⟩)

/-! ## Asking for a name -/

/-- Lists and objects, which cannot be members of a set of names. -/
def isCollection : Tree → Bool
  | .list _ | .object _ => true
  | _ => false

theorem identifierNames_ok
    (h : ∀ n ∈ target.nodes, n.is .identifier → ∀ v ∈ n.attribute? "name", isCollection v = false) :
    ∃ taken, identifierNames target = .ok taken := by
  refine exists_filterMapM fun n hn => ?_
  split
  · next hid =>
    split
    · exact ⟨_, rfl⟩
    · next items hv => cases h n hn hid _ hv
    · next fields hv => cases h n hn hid _ hv
    · exact ⟨_, rfl⟩
  · exact ⟨_, rfl⟩

theorem describeTarget_ok (h : ∀ id ∈ target.attribute? "id", id.isNull ∨ (id.attribute? "name").isSome) :
    ∃ x, describeTarget target = .ok x := by
  unfold describeTarget
  cases hid : target.attribute? "id" with
  | none => exact ⟨_, rfl⟩
  | some id =>
    dsimp only
    rcases h id hid with hnull | hname
    · rw [if_pos hnull]
      exact ⟨_, rfl⟩
    · obtain ⟨v, hv⟩ := Option.isSome_iff_exists.mp hname
      rw [Tree.get, hv]
      split_ifs
      · exact ⟨_, rfl⟩
      · cases v with
        | scalar s => cases s <;> exact ⟨_, rfl⟩
        | list | object | node => exact ⟨_, rfl⟩

/-- The names once these nodes have been asked for in turn. -/
def namesAfter (base : Text) (names : NodeMap Text) (targets : List Tree) : NodeMap Text :=
  targets.foldl (fun names target => (nameFor base names target).1) names

theorem get?_nameFor (h : names.get? id = some name) (target : Tree) :
    (nameFor base names target).1.get? id = some name := by
  unfold nameFor
  cases hget : names.get? target.id with
  | some _ => exact h
  | none =>
    cases identifierNames target with
    | error f => exact h
    | ok taken =>
      have hne : id ≠ target.id := by
        rintro rfl
        rw [hget] at h
        cases h
      exact (NodeMap.get?_set _ _ _ _).trans ((if_neg hne).trans h)

theorem get?_namesAfter (h : names.get? id = some name) (targets : List Tree) :
    (namesAfter base names targets).get? id = some name := by
  induction targets generalizing names with
  | nil => exact h
  | cons target targets ih => exact ih (get?_nameFor h target)

/-- **Generated names are least and stay.** The name that a node is given when it is first asked for is the base, if
no identifier in the node has it, or else the base with the least number behind it that no identifier has. It is
returned if the message about it can be written, which takes a name for the `id` of the node. Asked again, whatever
has become of the trees and whichever other nodes were asked for in between, the node has the same name. -/
theorem nameFor_least_and_kept (base : Text) {names : NodeMap Text} {target : Tree} (hnew : names.get? target.id = none)
    (hnames : ∀ n ∈ target.nodes, n.is .identifier → ∀ v ∈ n.attribute? "name", isCollection v = false) :
    ∃ name, LeastFree (fun x => ∃ n ∈ target.nodes, n.name? = some x) base name ∧
      ((∀ id ∈ target.attribute? "id", id.isNull ∨ (id.attribute? "name").isSome) →
        (nameFor base names target).2 = .ok name) ∧
      ∀ (between : List Tree) (again : Tree), again.id = target.id →
        nameFor base (namesAfter base names (target :: between)) again =
          (namesAfter base names (target :: between), .ok name) := by
  obtain ⟨taken, htaken⟩ := identifierNames_ok hnames
  have hfirst : nameFor base names target =
      (names.set target.id (freshName base taken), (describeTarget target).map fun _ => freshName base taken) := by
    rw [nameFor, hnew, htaken]
  refine ⟨freshName base taken, ?_, fun hid => ?_, fun between again hagain => ?_⟩
  · simpa only [mem_identifierNames htaken] using freshName_least base taken
  · obtain ⟨x, hx⟩ := describeTarget_ok hid
    rw [hfirst, hx]
    rfl
  · have hset : (nameFor base names target).1.get? again.id = some (freshName base taken) := by
      rw [hfirst, hagain]
      exact (NodeMap.get?_set _ _ _ _).trans (if_pos rfl)
    have hkept : (namesAfter base names (target :: between)).get? again.id = some (freshName base taken) :=
      get?_namesAfter hset between
    rw [nameFor, hkept]

/-- A function without a name whose parameters leave one number free. -/
def crowdedFunction : Tree :=
  .node ⟨.numbered 0, none⟩ (.known .functionExpression) [.null,
    .list (["$__arguments3", "$__arguments", "$__arguments1"].map fun x => .identifier x none),
    .mk .blockStatement none [.list []]]

theorem nameFor_least_and_kept_crowdedFunction : (nameFor baseName {} crowdedFunction).2 = .ok "$__arguments2" ∧
    ∀ (between : List Tree) (again : Tree), again.id = .numbered 0 →
      (nameFor baseName (namesAfter baseName {} (crowdedFunction :: between)) again).2 = .ok "$__arguments2" := by
  have hfree : ({} : NodeMap Text).get? crowdedFunction.id = none := rfl
  obtain ⟨name, -, hfirst, hagain⟩ := nameFor_least_and_kept baseName hfree (by decide)
  have hname : (nameFor baseName {} crowdedFunction).2 = .ok "$__arguments2" := rfl
  obtain rfl := Except.ok.inj ((hfirst (by decide)).symm.trans hname)
  exact ⟨hname, fun between again hid => congrArg Prod.snd (hagain between again hid)⟩

/-- The `id` is a pattern, which has no name. -/
def patternDeclarator : Tree :=
  .mk .variableDeclarator none [.node {} (.other (.text "ArrayPattern") ["elements"]) [.list []], .null]

/-- Nothing in the declarator has the base name, and yet it is not returned. -/
theorem name_not_returned_patternDeclarator : (∀ n ∈ patternDeclarator.nodes, n.name? ≠ some baseName) ∧
    (nameFor baseName {} patternDeclarator).2 = .error .noAttribute :=
  ⟨by decide, rfl⟩

end Lowering

end ArrowFree
