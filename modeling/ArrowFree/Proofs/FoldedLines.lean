import ArrowFree.Proofs.StringLiterals
import ArrowFree.Sexpr
import Mathlib.Data.List.Forall2

/-!
# The pretty and the compact form

If each line feed of the pretty form, with the spaces behind it, is folded to one space, the compact form is left
(`pretty_folds_to_compact`). What is written for an S-expression begins with no space, so that it is kept as it is
behind a break (`Folds`). The names of types and fields are to have no characters that the compact form escapes.
-/

namespace ArrowFree

open List

namespace Text

/-! ## Folding -/

/-- The text with each line feed and the spaces behind it replaced by one space, where `broken` says whether a
line feed has just been replaced. -/
def foldFrom : (broken : Bool) → Text → Text
  | _, [] => []
  | broken, c :: r =>
    if c = CodePoint.newline then ' ' :: foldFrom true r
    else if broken && c = ' ' then foldFrom true r
    else c :: foldFrom false r

/-- Each line feed with the spaces behind it becomes one space. -/
def foldBreaks (t : Text) : Text := foldFrom false t

/-- Within a line `t` is folded to `c`, whatever follows. -/
def FoldsInside (t c : Text) : Prop := ∀ r, foldFrom false (t ++ r) = c ++ foldFrom false r

/-- The same also behind a break. -/
def Folds (t c : Text) : Prop := ∀ broken r, foldFrom broken (t ++ r) = c ++ foldFrom false r

variable {s t c d : Text}

theorem Folds.inside (h : Folds t c) : FoldsInside t c := h false

theorem FoldsInside.append (h : FoldsInside s c) (h' : FoldsInside t d) : FoldsInside (s ++ t) (c ++ d) := by
  intro r
  rw [append_assoc, h, h', append_assoc]

theorem Folds.append (h : Folds s c) (h' : FoldsInside t d) : Folds (s ++ t) (c ++ d) := by
  intro broken r
  rw [append_assoc, h, h', append_assoc]

theorem foldsInside_line (h : CodePoint.newline ∉ t) : FoldsInside t t := by
  induction t with
  | nil => exact fun r => rfl
  | cons x t ih =>
    have hx := ne_of_not_mem_cons h
    have ht := not_mem_of_not_mem_cons h
    intro r
    rw [cons_append, foldFrom, if_neg (Ne.symm hx), if_neg (by simp), ih ht, cons_append]

theorem folds_line (h : CodePoint.newline ∉ t) {x : CodePoint} (hx : t.head? = some x) (hne : x ≠ ' ') :
    Folds t t := by
  obtain ⟨t, rfl⟩ := head?_eq_some_iff.mp hx
  have hx := ne_of_not_mem_cons h
  have ht := not_mem_of_not_mem_cons h
  intro broken r
  rw [cons_append, foldFrom, if_neg (Ne.symm hx), if_neg (by simp [hne]), foldsInside_line ht,
    cons_append]

/-- Whether there are neither line feeds nor spaces. -/
def isUnbroken (t : Text) : Bool := t.all fun c => c ≠ CodePoint.newline && c ≠ ' '

theorem folds_unbroken (h : isUnbroken t) (hne : t ≠ []) : Folds t t := by
  obtain ⟨x, t, rfl⟩ := exists_cons_of_ne_nil hne
  have hall := all_eq_true.mp h
  refine folds_line (fun hmem => ?_) rfl ?_
  · simpa using hall _ hmem
  · simpa using (Bool.and_eq_true_iff.mp (hall x (.head _))).2

@[simp] theorem isUnbroken_append (s t : Text) : isUnbroken (s ++ t) = (isUnbroken s && isUnbroken t) :=
  all_append

theorem isUnbroken_of_subset (h : isUnbroken t) (hsub : s ⊆ t) : isUnbroken s :=
  all_eq_true.mpr fun c hc => all_eq_true.mp h c (hsub hc)

theorem isUnbroken_ofNat (n : Nat) : isUnbroken (ofNat n) := by
  refine all_eq_true.mpr fun c hc => ?_
  have hdigit := isAsciiDigit_ofNat n c hc
  have hne {d : CodePoint} (hd : d.isAsciiDigit = false) : c ≠ d := fun h => by rw [h, hd] at hdigit; cases hdigit
  simp [hne (d := CodePoint.newline) rfl, hne (d := ' ') rfl]

theorem Folds.break (h : Folds t c) (n : Nat) : FoldsInside ("\n" ++ repeated "  " n ++ t) (" " ++ c) := by
  have hspaces (r : Text) : foldFrom true (repeated "  " n ++ r) = foldFrom true r := by
    induction n with
    | zero => rfl
    | succ n ih => exact ih
  intro r
  change (' ' : CodePoint) :: foldFrom true ((repeated "  " n ++ t) ++ r) = _
  rw [append_assoc, hspaces, h]
  rfl

theorem join_cons (sep t : Text) (ts : List Text) : join sep (t :: ts) = t ++ ts.flatMap (sep ++ ·) := by
  induction ts generalizing t with
  | nil => simp [join]
  | cons u us ih => rw [join, ih, flatMap_cons, append_assoc, append_assoc]; simp

end Text

namespace Sexpr

open Text

variable {cs : List Text} {e : Sexpr} {s : Text}

/-! ## Lists -/

theorem prettyItems_eq_map (n : Nat) (es : List Sexpr) : prettyItems n es = es.map (pretty n) := by
  induction es with
  | nil => rfl
  | cons e es ih => rw [prettyItems, ih, map_cons]

theorem compactItems_eq_map (es : List Sexpr) : compactItems es = es.map compact := by
  induction es with
  | nil => rfl
  | cons e es ih => rw [compactItems, ih, map_cons]

theorem space : FoldsInside " " " " := foldsInside_line (by decide)

theorem folds_spaced {ts : List Text} (h : List.Forall₂ Folds ts cs) :
    FoldsInside (ts.flatMap (" " ++ ·)) (cs.flatMap (" " ++ ·)) := by
  induction h with
  | nil => exact fun r => rfl
  | cons ht _ ih => exact (space.append ht.inside).append ih

/-- The rows of a broken list are folded to the items, with a space before each. -/
theorem folds_rows (n : Nat) {xs : List (Sexpr × Text)} (h : List.Forall₂ (fun x c => Folds x.2 c) xs cs) :
    FoldsInside ((rows xs).flatMap (("\n" ++ repeated "  " n) ++ ·)) (cs.flatMap (" " ++ ·)) := by
  fun_induction rows xs generalizing cs with
  | case1 =>
    cases h
    exact fun r => rfl
  | case2 e t =>
    obtain _ | ⟨ht, _ | _⟩ := h
    exact (ht.break n).append (t := []) (d := []) fun r => rfl
  | case3 e k f v rest hkey ih =>
    obtain _ | ⟨hk, _ | ⟨hv, hrest⟩⟩ := h
    have hpair := (hk.append space).append hv.inside
    have := (hpair.break n).append (ih hrest)
    simpa using this
  | case4 e k f v rest hkey ih =>
    obtain _ | ⟨hk, hrest⟩ := h
    exact (hk.break n).append (ih hrest)

theorem folds_layOut (n : Nat) {es : List Sexpr} {f : Sexpr → Text} (he : FoldsInside (f e) (compact e))
    (hes : ∀ x ∈ es, Folds (f x) (compact x)) :
    Folds (layOut n (e :: es) ((e :: es).map f)) ("(" ++ Text.join " " ((e :: es).map compact) ++ ")") := by
  have hopen : Folds "(" "(" := folds_line (by decide) rfl (by decide)
  have hclose : FoldsInside ")" ")" := foldsInside_line (by decide)
  unfold layOut
  dsimp only
  split
  · next hline =>
    refine (hopen.append ?_).append hclose
    rw [map_cons, map_cons, join_cons, join_cons]
    refine he.append (folds_spaced ?_)
    rwa [forall₂_map_left_iff, forall₂_map_right_iff, forall₂_same]
  · refine (hopen.append ?_).append hclose
    have hzip : ((e :: es).zip ((e :: es).map f)).drop 1 = es.map fun x => (x, f x) := by
      simpa using zip_map' (f := id) (g := f) (l := es)
    rw [hzip, map_cons, map_cons, take_succ_cons, take_zero, singleton_append, join_cons, join_cons]
    refine he.append (folds_rows (n + 1) ?_)
    rw [forall₂_map_left_iff, forall₂_map_right_iff, forall₂_same]
    exact hes

/-! ## Atoms -/

theorem newline_notMem_plainEscape (c : CodePoint) : CodePoint.newline ∉ plainEscape c := by
  unfold plainEscape
  split
  · next h =>
    obtain rfl | rfl : c = '"' ∨ c = '\\' := by simpa using h
    all_goals decide
  · split
    · next d hd =>
      have hd : CodePoint.newline ≠ d := (Literal.controlLetter?_spec hd).1.1.symm
      exact not_mem_cons_of_ne_of_not_mem (by decide) (mt mem_singleton.mp hd)
    · next h =>
      intro hmem
      rw [← mem_singleton.mp hmem] at h
      cases h

theorem newline_notMem_plainQuoted (t : Text) : CodePoint.newline ∉ t.plainQuoted := by
  have hbody : CodePoint.newline ∉ t.flatMap plainEscape := fun h => by
    obtain ⟨c, -, hc⟩ := mem_flatMap.mp h
    exact newline_notMem_plainEscape c hc
  simp only [plainQuoted, mem_append, hbody]
  decide

theorem numberMarks : ∀ x ∈ ["0.", ".0", ".", "", "-", "+", "e", "0"], isUnbroken (ofString x) := by
  decide

theorem isUnbroken_layOut {digits : Text} (h : isUnbroken digits) (e : Int) :
    isUnbroken (Binary64.layOut digits e) ∧ Binary64.layOut digits e ≠ [] := by
  have hzeros (n : Nat) : isUnbroken (List.replicate n ('0' : CodePoint)) :=
    all_eq_true.mpr fun c hc => eq_of_mem_replicate hc ▸ by decide
  have htake (n : Nat) := isUnbroken_of_subset h (take_subset n digits)
  have hdrop (n : Nat) := isUnbroken_of_subset h (drop_subset n digits)
  have htail := isUnbroken_of_subset h fun _ => mem_of_mem_tail
  unfold Binary64.layOut
  dsimp only
  split_ifs
  all_goals
    refine ⟨?_, ?_⟩
    · simp [h, hzeros, htake, hdrop, htail, isUnbroken_ofNat, numberMarks]
    · simp [ofString]

theorem isUnbroken_toText (x : Binary64) : isUnbroken x.toText ∧ x.toText ≠ [] := by
  unfold Binary64.toText
  cases x with
  | nan => decide
  | infinity negative => cases negative <;> decide
  | finite negative m e =>
    have hdigits : isUnbroken (Binary64.shortest m e).1 :=
      isUnbroken_of_subset (isUnbroken_ofNat _) fun c hc =>
        mem_reverse.mp (dropWhile_subset _ (mem_reverse.mp hc))
    have hlaid := isUnbroken_layOut hdigits (Binary64.shortest m e).2
    dsimp only
    split_ifs
    · decide
    · simp [hlaid, numberMarks]
    · decide
    · exact hlaid

theorem folds_atomText (x : Scalar) : Folds (atomText x) (atomText x) := by
  cases x with
  | null => exact folds_unbroken (by decide) (by decide)
  | bool b => cases b <;> exact folds_unbroken (by decide) (by decide)
  | int i =>
    have hnat (n : Nat) : ofNat n ≠ [] := fun h => Nat.toDigits_ne_nil (map_eq_nil_iff.mp h)
    cases i with
    | ofNat n => exact folds_unbroken (isUnbroken_ofNat n) (hnat n)
    | negSucc n =>
      refine folds_unbroken ?_ (cons_ne_nil _ _)
      exact (isUnbroken_append "-" _).trans (by simp [numberMarks, isUnbroken_ofNat])
  | float x => exact folds_unbroken (isUnbroken_toText x).1 (isUnbroken_toText x).2
  | text t => exact folds_line (newline_notMem_plainQuoted t) rfl (by decide)

/-! ## S-expressions of trees -/

/-- Whether a name has no line feed and nothing that the compact form escapes. -/
def isPlainName (s : Text) : Bool := s.all fun c => c ≠ CodePoint.newline && ! escapedInSymbol.contains c

/-- What trees give: only the type at the head of a node can be an empty symbol. -/
inductive Tidy : Sexpr → Prop where
  | symbol {s : Text} : isPlainName s → s ≠ [] → Tidy (word s)
  | atom (x : Scalar) : Tidy (.atom x)
  | items {es : List Sexpr} : (∀ e ∈ es, Tidy e) → Tidy (.list es)
  | node {s : Text} {es : List Sexpr} : isPlainName s → (∀ e ∈ es, Tidy e) → Tidy (.list (word s :: es))

theorem compact_word (h : isPlainName s) : compact (word s) = s := by
  change escapeSymbol s = s
  rw [escapeSymbol, flatMap_congr (g := fun c => [c]) fun c hc => if_neg ?_, flatMap_singleton']
  simpa using (Bool.and_eq_true_iff.mp (all_eq_true.mp h c hc)).2

theorem isUnbroken_of_isPlainName (h : isPlainName s) : isUnbroken s := by
  refine all_eq_true.mpr fun c hc => ?_
  obtain ⟨hline, hescaped⟩ := Bool.and_eq_true_iff.mp (all_eq_true.mp h c hc)
  refine Bool.and_eq_true_iff.mpr ⟨hline, decide_eq_true ?_⟩
  rintro rfl
  cases hescaped

theorem Tidy.folds (h : Tidy e) (n : Nat) : Folds (pretty n e) (compact e) := by
  induction h generalizing n with
  | symbol hs hne =>
    rw [compact_word hs]
    exact folds_unbroken (isUnbroken_of_isPlainName hs) hne
  | atom x => exact folds_atomText x
  | @items es hes ih =>
    rw [pretty, compact, prettyItems_eq_map, compactItems_eq_map]
    cases es with
    | nil => exact folds_unbroken (t := "()") (by decide) (by decide)
    | cons e es => exact folds_layOut n (ih e (.head _) _).inside fun x hx => ih x (.tail _ hx) _
  | @node s es hs hes ih =>
    rw [pretty, compact, prettyItems_eq_map, compactItems_eq_map]
    refine folds_layOut n ?_ fun x hx => ih x hx _
    rw [compact_word hs]
    refine foldsInside_line fun hmem => ?_
    cases all_eq_true.mp hs _ hmem

theorem areNamed_eq_all (es : List Sexpr) : areNamed es = es.all isNamed := by
  induction es with
  | nil => rfl
  | cons e es ih => rw [areNamed, ih, all_cons]

theorem Tidy.isNamed (h : Tidy e) : e.isNamed = true := by
  induction h with
  | symbol | atom => rfl
  | items hes ih => exact (areNamed_eq_all _).trans (all_eq_true.mpr ih)
  | node hs hes ih => exact (areNamed_eq_all _).trans (all_eq_true.mpr (forall_mem_cons.mpr ⟨rfl, ih⟩))

end Sexpr

open Sexpr

namespace Tree

mutual

/-- Whether all types and field names of the tree, at any depth, are written without escapes. -/
def hasPlainNames : Tree → Bool
  | .scalar _ | .object _ => true
  | .list items => havePlainNames items
  | .node _ s slots =>
    (match s.type with
      | .text x => isPlainName x
      | _ => false) && s.fields.all (fun f => isPlainName f.name) && havePlainNames slots

def havePlainNames : List Tree → Bool
  | [] => true
  | t :: ts => t.hasPlainNames && havePlainNames ts

end

theorem tidy_keyword {x : Text} (h : isPlainName x) : Tidy (keyword x) :=
  .symbol (all_eq_true.mpr (forall_mem_cons.mpr ⟨by decide, all_eq_true.mp h⟩)) (cons_ne_nil _ _)

mutual

theorem tidy_ofTree (located : Bool) : (t : Tree) → t.hasPlainNames → Tidy (ofTree located t)
  | .scalar s, _ => by
    cases s with
    | null => exact .symbol (by decide) (by decide)
    | bool b => cases b <;> exact .symbol (by decide) (by decide)
    | int | float | text => exact .atom _
  | .list items, h => .items (tidy_ofItems located items h)
  | .object fields, _ => .atom _
  | .node i s slots, h => by
    rw [hasPlainNames, Bool.and_eq_true_iff, Bool.and_eq_true_iff] at h
    obtain ⟨⟨htype, hfields⟩, hslots⟩ := h
    rw [ofTree]
    split at htype
    · next x hx =>
      rw [hx]
      refine .node htype (forall_mem_append.mpr ⟨tidy_ofSlots located _ hfields slots hslots, ?_⟩)
      unfold ofLocation
      split
      · exact forall_mem_cons.mpr ⟨tidy_keyword (by decide), forall_mem_singleton.mpr (.atom _)⟩
      · exact nofun
    · cases htype

theorem tidy_ofItems (located : Bool) : (ts : List Tree) → havePlainNames ts →
    ∀ e ∈ ofItems located ts, Tidy e
  | [], _ => nofun
  | t :: ts, h => by
    obtain ⟨ht, hts⟩ := Bool.and_eq_true_iff.mp h
    exact forall_mem_cons.mpr ⟨tidy_ofTree located t ht, tidy_ofItems located ts hts⟩

theorem tidy_ofSlots (located : Bool) : (fs : List Field) → fs.all (fun f => isPlainName f.name) →
    (ts : List Tree) → havePlainNames ts → ∀ e ∈ ofSlots located fs ts, Tidy e
  | [], _, _, _ => by simp [ofSlots]
  | _ :: _, _, [], _ => by simp [ofSlots]
  | f :: fs, hfs, t :: ts, hts => by
    obtain ⟨hf, hfs⟩ := Bool.and_eq_true_iff.mp hfs
    obtain ⟨ht, hts⟩ := Bool.and_eq_true_iff.mp hts
    rw [ofSlots]
    exact forall_mem_cons.mpr ⟨tidy_keyword hf, forall_mem_cons.mpr ⟨tidy_ofTree located t ht,
      tidy_ofSlots located fs hfs ts hts⟩⟩

end

/-- **The pretty and the compact form agree.** A tree whose type and field names need no escapes has both forms,
with or without locations, and the compact one is the pretty one with each line feed and the spaces behind it
folded to one space. -/
theorem pretty_folds_to_compact {t : Tree} (h : t.hasPlainNames) (located : Bool) :
    ∃ p c, t.sexpr located true = .ok p ∧ t.sexpr located false = .ok c ∧ p.foldBreaks = c := by
  have htidy := tidy_ofTree located t h
  refine ⟨_, _, if_pos htidy.isNamed, if_pos htidy.isNamed, ?_⟩
  have hfolds := htidy.folds 0 false []
  rwa [List.append_nil, Text.foldFrom, List.append_nil] at hfolds

/-- A node of an unknown type with an empty name, and in it a call that is too long for a line. -/
def wideCall : Tree :=
  let name : Tree := .identifier (List.replicate 40 'a') (some { file := "a b.js", line := 1, column := 1 })
  .node {} (.other (.text []) ["x", "y"]) [.list [.mk .callExpression none [name, .list [name]], .null], .text "\n  "]

/-- The break in the text of the node is no line feed, those of the layout are. -/
theorem pretty_folds_to_compact_wideCall :
    wideCall.hasPlainNames ∧ ∃ p c, wideCall.sexpr true true = .ok p ∧ wideCall.sexpr true false = .ok c ∧
      p.foldBreaks = c ∧ p.count CodePoint.newline = 5 := by
  have hplain : wideCall.hasPlainNames := by decide
  obtain ⟨p, c, hp, hc, hfolds⟩ := pretty_folds_to_compact hplain true
  have hbreaks : (wideCall.sexpr true true).toOption.map (List.count CodePoint.newline) = some 5 := by decide +kernel
  rw [hp] at hbreaks
  exact ⟨hplain, p, c, hp, hc, hfolds, Option.some.inj hbreaks⟩

end Tree

end ArrowFree
