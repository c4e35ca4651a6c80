import ArrowFree.Proofs.DecodedMappings
import ArrowFree.Proofs.PrintedParts
import Mathlib.Data.List.TakeWhile

/-!
# Mappings have true positions

While code is laid out, line and column are counted piece by piece. They are those of the text so far
(`Traced`), whatever line feeds the pieces have. A position never goes back, so that a mapping at the
position of the last one is the only one that can be there already, and the mappings stay in strict order
(`Traced.mark`). With the marks of `PrintedParts` each mapping is that of a node whose text begins there
(`mapped_positions`).
-/

namespace ArrowFree

open List

variable {g : Mapping}

/-! ## Lines and columns -/

namespace Text

variable {t : Text}

/-- The line that the end of a text is on, counted by the line feeds. -/
def endLine (t : Text) : Nat := t.count CodePoint.newline

/-- The code points behind the last line feed. -/
def endColumn (t : Text) : Nat := (t.reverse.takeWhile (· ≠ CodePoint.newline)).length

/-- The line of an offset. -/
def lineAt (t : Text) (offset : Nat) : Nat := endLine (t.take offset)

/-- The column of an offset. -/
def columnAt (t : Text) (offset : Nat) : Nat := endColumn (t.take offset)

theorem endLine_append (s t : Text) : endLine (s ++ t) = endLine s + endLine t := count_append

theorem endColumn_of_endLine_eq_zero (h : endLine t = 0) (s : Text) :
    endColumn (s ++ t) = endColumn s + t.length := by
  have hfree : ∀ c ∈ t.reverse, (decide (c ≠ CodePoint.newline)) = true := by
    intro c hc
    refine decide_eq_true fun hnew => count_eq_zero.mp h ?_
    rw [← hnew]
    exact mem_reverse.mp hc
  rw [endColumn, reverse_append, takeWhile_append_of_pos hfree, length_append,
    length_reverse, Nat.add_comm, endColumn]

theorem endColumn_of_endLine_ne_zero (h : endLine t ≠ 0) (s : Text) : endColumn (s ++ t) = endColumn t := by
  have hmem : CodePoint.newline ∈ t := by
    rw [← count_pos_iff]
    exact Nat.pos_of_ne_zero h
  rw [endColumn, reverse_append, takeWhile_append, if_neg, endColumn]
  intro hlength
  have hall := takeWhile_eq_self_iff.mp (( takeWhile_prefix _).eq_of_length hlength)
  exact of_decide_eq_true (hall _ (mem_reverse.mpr hmem)) rfl

theorem end_le_append (s t : Text) : endLine s < endLine (s ++ t) ∨
    endLine s = endLine (s ++ t) ∧ endColumn s ≤ endColumn (s ++ t) := by
  rw [endLine_append]
  by_cases h : endLine t = 0
  · rw [endColumn_of_endLine_eq_zero h]
    omega
  · omega

end Text

/-! ## Adding mappings -/

namespace Mapping

/-- Strictly before in the generated text. -/
def Before (a b : Mapping) : Prop := a.line < b.line ∨ a.line = b.line ∧ a.column < b.column

/-- At the same place of the generated text. -/
def Beside (a b : Mapping) : Prop := a.line = b.line ∧ a.column = b.column

end Mapping

namespace SourceMap

open Mapping

/-- Beside the last mapping a new one is left out or takes its place; elsewhere it comes behind it. -/
theorem mappings_add (m : SourceMap) (new : Mapping) :
    (∃ ms last, m.mappings = ms ++ [last] ∧ last.Beside new ∧
      ((m.add new).mappings = m.mappings ∨ (m.add new).mappings = ms ++ [new])) ∨
    (∀ ms last, m.mappings = ms ++ [last] → ¬ last.Beside new) ∧
      (m.add new).mappings = m.mappings ++ [new] := by
  unfold add
  rcases eq_nil_or_concat' m.mappings with hnil | ⟨ms, last, hms⟩
  · rw [hnil]
    exact .inr ⟨by simp, rfl⟩
  · rw [hms, getLast?_concat]
    dsimp only
    by_cases hbeside : last.Beside new
    · refine .inl ⟨ms, last, rfl, hbeside, ?_⟩
      rw [if_pos (Prod.ext hbeside.1 hbeside.2)]
      split
      · exact .inr (by rw [dropLast_concat])
      · exact .inl hms
    · refine .inr ⟨fun ms' last' h => ?_, ?_⟩
      · obtain ⟨-, hlast⟩ := append_inj' h rfl
        obtain rfl := (List.cons.inj hlast).1
        exact hbeside
      · rw [if_neg fun h => hbeside (Prod.mk.inj h)]

/-- Mappings in strict order that do not lie behind a new one stay in strict order with it. -/
theorem pairwise_add {m : SourceMap} {new : Mapping} (h : m.mappings.Pairwise Before)
    (hnew : ∀ g ∈ m.mappings, g.Before new ∨ g.Beside new) : (m.add new).mappings.Pairwise Before := by
  rcases mappings_add m new with ⟨ms, last, hms, hbeside, heq | heq⟩ | ⟨hlast, heq⟩
  · rwa [heq]
  · rw [heq]
    rw [hms, pairwise_append] at h
    refine pairwise_append.mpr ⟨h.1, pairwise_singleton _ _, fun g hg b hb => ?_⟩
    obtain rfl := mem_singleton.mp hb
    have hbefore := h.2.2 g hg last (mem_singleton_self _)
    unfold Before Beside at *
    omega
  · rw [heq]
    refine pairwise_append.mpr ⟨h, pairwise_singleton _ _, fun g hg b hb => ?_⟩
    obtain rfl := mem_singleton.mp hb
    refine (hnew g hg).resolve_right fun hbeside => ?_
    -- only the last mapping can be beside the new one, and it is not
    rcases eq_nil_or_concat' m.mappings with hnil | ⟨ms, last, hms⟩
    · rw [hnil] at hg
      cases hg
    · rw [hms] at h hg hnew
      rcases mem_append.mp hg with hg | hg
      · have hbefore := (pairwise_append.mp h).2.2 g hg last (mem_singleton_self _)
        have hend := hnew last (mem_append_right _ (mem_singleton_self _))
        unfold Before Beside at *
        omega
      · obtain rfl := mem_singleton.mp hg
        exact hlast ms _ hms hbeside

/-- There is a mapping beside every one that was there, and beside the new one. -/
theorem exists_beside_add (m : SourceMap) (new : Mapping) (hg : g ∈ m.mappings ∨ g = new) :
    ∃ g' ∈ (m.add new).mappings, g'.Beside g := by
  rcases mappings_add m new with ⟨ms, last, hms, hbeside, heq | heq⟩ | ⟨-, heq⟩
  · rw [heq]
    rcases hg with hg | rfl
    · exact ⟨g, hg, rfl, rfl⟩
    · exact ⟨last, hms ▸ mem_append_right _ (mem_singleton_self _), hbeside⟩
  · rw [heq]
    rw [hms] at hg
    have hend : new ∈ ms ++ [new] := mem_append_right _ (mem_singleton_self _)
    rcases hg with hg | rfl
    · rcases mem_append.mp hg with hg | hg
      · exact ⟨g, mem_append_left _ hg, rfl, rfl⟩
      · obtain rfl := mem_singleton.mp hg
        exact ⟨new, hend, hbeside.1.symm, hbeside.2.symm⟩
    · exact ⟨g, hend, rfl, rfl⟩
  · rw [heq]
    refine ⟨g, ?_, rfl, rfl⟩
    rcases hg with hg | rfl
    · exact mem_append_left _ hg
    · exact mem_append_right _ (mem_singleton_self _)

end SourceMap

/-! ## Laying out -/

namespace Printer

open Mapping

/-- The mapping of a mark behind a text. -/
def mappingAt (before : Text) (l : Location) (name : Option Text) : Mapping :=
  ⟨Text.endLine before, Text.endColumn before, l.line - 1, l.column - 1, name⟩

/-- What holds after some pieces have been laid out with a map. -/
structure Traced (done : List Piece) (l : Layout) (m : SourceMap) : Prop where
  map : l.map = some m
  line : l.line = (codeOf done).endLine
  column : l.column = (codeOf done).endColumn
  origin : ∀ g ∈ m.mappings, ∃ before loc name after,
    done = before ++ .mark loc name :: after ∧ g = mappingAt (codeOf before) loc name
  increasing : m.mappings.Pairwise Before
  named : m.Named
  covered : ∀ before loc name after, done = before ++ .mark loc name :: after →
    ∃ g ∈ m.mappings, g.Beside (mappingAt (codeOf before) loc name)

theorem codeOf_append (ps qs : List Piece) : codeOf (ps ++ qs) = codeOf ps ++ codeOf qs :=
  flatMap_append

namespace Traced

variable {done : List Piece} {l : Layout} {m : SourceMap}

theorem start (file source : Text) : Traced [] { map := some { file, source } } { file, source } where
  map := rfl
  line := rfl
  column := rfl
  origin := by simp
  increasing := .nil
  named := ⟨nodup_nil, by simp⟩
  covered := by simp

theorem text (h : Traced done l m) (t : Text) : Traced (done ++ [.text t]) (l.place (.text t)) m := by
  have hcode : codeOf (done ++ [.text t]) = codeOf done ++ t := by
    simp [codeOf, textOf]
  have hmoved : l.place (.text t) = { l with
      line := (codeOf done ++ t).endLine, column := (codeOf done ++ t).endColumn } := by
    have hcount : t.count CodePoint.newline = t.endLine := rfl
    simp only [Layout.place, Layout.moveOver, hcount, Text.endLine_append, ← h.line]
    split
    · next hzero => rw [Text.endColumn_of_endLine_eq_zero hzero, ← h.column, hzero, Nat.add_zero]
    · next hline => rw [Text.endColumn_of_endLine_ne_zero hline, Text.endColumn]
  rw [hmoved]
  refine ⟨h.map, by rw [hcode], by rw [hcode], fun g hg => ?_, h.increasing, h.named, ?_⟩
  · obtain ⟨before, loc, name, after, rfl, hg⟩ := h.origin g hg
    exact ⟨before, loc, name, after ++ [.text t], by simp, hg⟩
  · intro before loc name after hsplit
    rcases eq_nil_or_concat' after with rfl | ⟨after, p, rfl⟩
    · have := (append_inj' hsplit rfl).2
      cases this
    · rw [← cons_append, ← append_assoc] at hsplit
      exact h.covered before loc name after (append_inj' hsplit rfl).1

theorem reached (h : Traced done l m) {loc : Location} {name : Option Text} (hg : g ∈ m.mappings) :
    g.Before (mappingAt (codeOf done) loc name) ∨ g.Beside (mappingAt (codeOf done) loc name) := by
  obtain ⟨before, loc', name', after, rfl, rfl⟩ := h.origin g hg
  have hle := Text.end_le_append (codeOf before) (codeOf (.mark loc' name' :: after))
  rw [← codeOf_append] at hle
  simp only [Before, Beside, mappingAt]
  omega

theorem mark (h : Traced done l m) (loc : Location) (name : Option Text) :
    Traced (done ++ [.mark loc name]) (l.place (.mark loc name))
      (m.add (mappingAt (codeOf done) loc name)) := by
  have hcode : codeOf (done ++ [.mark loc name]) = codeOf done := by
    simp [codeOf, textOf]
  refine ⟨?_, by rw [hcode]; exact h.line, by rw [hcode]; exact h.column, fun g hg => ?_,
    SourceMap.pairwise_add h.increasing fun g hg => h.reached hg, h.named.add _, ?_⟩
  · simp only [Layout.place, h.map, Option.map_some, mappingAt, h.line, h.column]
  · have hadded : g ∈ ([mappingAt (codeOf done) loc name].foldl SourceMap.add m).mappings := hg
    rcases SourceMap.mem_foldl_add hadded with hg | hg
    · obtain ⟨before, loc', name', after, rfl, heq⟩ := h.origin g hg
      exact ⟨before, loc', name', after ++ [.mark loc name], by simp, heq⟩
    · exact ⟨done, loc, name, [], rfl, mem_singleton.mp hg⟩
  · intro before loc' name' after hsplit
    rcases eq_nil_or_concat' after with rfl | ⟨after, p, rfl⟩
    · obtain ⟨rfl, heq⟩ := append_inj' hsplit rfl
      cases heq
      exact SourceMap.exists_beside_add m _ (.inr rfl)
    · rw [← cons_append, ← append_assoc] at hsplit
      obtain ⟨g, hg, hbeside⟩ := h.covered before loc' name' after (append_inj' hsplit rfl).1
      obtain ⟨g', hg', hbeside'⟩ :=
        SourceMap.exists_beside_add m (mappingAt (codeOf done) loc name) (.inl hg)
      exact ⟨g', hg', hbeside'.1.trans hbeside.1, hbeside'.2.trans hbeside.2⟩

theorem sorted (h : Traced done l m) : m.mappings.mergeSort SourceMap.precedes = m.mappings := by
  refine mergeSort_of_pairwise (h.increasing.imp fun hbefore => ?_)
  rw [SourceMap.precedes_iff]
  unfold Mapping.Before at hbefore
  omega

theorem run (ps : List Piece) (h : Traced done l m) :
    ∃ m', Traced (done ++ ps) (ps.foldl Layout.place l) m' := by
  induction ps generalizing done l m with
  | nil => exact ⟨m, by simpa using h⟩
  | cons p ps ih =>
    have hstep : ∃ m', Traced (done ++ [p]) (l.place p) m' := by
      cases p with
      | text t => exact ⟨m, h.text t⟩
      | mark loc name => exact ⟨_, h.mark loc name⟩
    obtain ⟨m', h'⟩ := hstep
    simpa using ih h'

end Traced

/-! ## Printed code -/

/-- The text of a node begins at this offset of the code of a tree: its pieces stand there among those of
the tree. -/
def TextBegins (indent : Text) (t n : Tree) (offset : Nat) : Prop :=
  ∃ before own after, print indent 0 t = .ok (before ++ own ++ after) ∧ IsPrinted indent n own ∧
    (codeOf before).length = offset

theorem prefix_closeLine (code : Text) : code <+: closeLine code := by
  unfold closeLine
  split
  · exact prefix_rfl
  · exact prefix_append _ _

theorem take_closeLine (before after : Text) :
    (closeLine (before ++ after)).take before.length = before := by
  obtain ⟨rest, hrest⟩ := prefix_closeLine (before ++ after)
  rw [← hrest, append_assoc, take_left]

theorem prefix_drop_closeLine (before own after : Text) :
    own <+: (closeLine (before ++ own ++ after)).drop before.length := by
  obtain ⟨rest, hrest⟩ := prefix_closeLine (before ++ own ++ after)
  rw [← hrest, append_assoc, append_assoc, drop_left]
  exact prefix_append _ _

theorem print_of_pieces {t : Tree} {indent : Text} {ps : List Piece} (h : print indent 0 t = .ok ps)
    (map : Option SourceMap) :
    t.print map indent = .ok ⟨closeLine (codeOf ps), (ps.foldl Layout.place { map := map }).map,
      (ps.foldl Layout.place { map := map }).line + 1⟩ := by
  rw [Tree.print, h]
  rfl

end Printer

open Printer in
/-- **Mappings have true positions.** A tree that can be printed is printed with a new map to the same code.
The mappings are in strict order, so that sorting changes nothing. Each has the line and column of an offset at
which the text of a located node begins, with that node's place of the source; at the offset of one with a name
the code goes on with that name. And there is a mapping wherever the text of a located node begins. -/
theorem mapped_positions {t : Tree} {indent : Text} {plain : Printed} (h : t.print none indent = .ok plain)
    (file source : Text) :
    ∃ printed m, t.print (some { file, source }) indent = .ok printed ∧ printed.code = plain.code ∧
      printed.map = some m ∧ m.mappings.Pairwise Mapping.Before ∧
      m.mappings.mergeSort SourceMap.precedes = m.mappings ∧
      (∀ g ∈ m.mappings, ∃ n ∈ t.nodes, ∃ l offset, n.location = some l ∧ TextBegins indent t n offset ∧
        offset ≤ printed.code.length ∧ g.line = printed.code.lineAt offset ∧
        g.column = printed.code.columnAt offset ∧ g.sourceLine = l.line - 1 ∧ g.sourceColumn = l.column - 1 ∧
        ∀ x, g.name = some x → x <+: printed.code.drop offset) ∧
      ∀ n ∈ t.nodes, n.location.isSome → ∀ offset, TextBegins indent t n offset →
        ∃ g ∈ m.mappings, g.line = printed.code.lineAt offset ∧ g.column = printed.code.columnAt offset := by
  obtain ⟨ps, hps, h⟩ := bind_ok.mp h
  obtain rfl := Except.ok.inj h
  obtain ⟨m, htraced⟩ := (Traced.start file source).run ps
  rw [List.nil_append] at htraced
  refine ⟨_, m, print_of_pieces hps _, rfl, htraced.map, htraced.increasing, htraced.sorted, fun g hg => ?_, ?_⟩
  · obtain ⟨before, l, name, rest, hsplit, rfl⟩ := htraced.origin g hg
    obtain ⟨n, own, after, hn, hown, hl, hrest, hname⟩ := exists_node_of_mark ⟨0, .inl hps⟩ hsplit
    have hparts : ps = before ++ own ++ after := by rw [hsplit, hrest, List.append_assoc]
    have hcode : codeOf ps = codeOf before ++ codeOf own ++ codeOf after := by
      rw [hparts, codeOf_append, codeOf_append]
    have hbefore := take_closeLine (codeOf before) (codeOf own ++ codeOf after)
    rw [← List.append_assoc, ← hcode] at hbefore
    refine ⟨n, hn, l, (codeOf before).length, hl, ⟨before, own, after, hparts ▸ hps, hown, rfl⟩, ?_, ?_, ?_,
      rfl, rfl, fun x hx => ?_⟩
    · rw [← hbefore]
      exact List.length_take_le' ..
    · rw [Text.lineAt, hbefore]
      rfl
    · rw [Text.columnAt, hbefore]
      rfl
    · have hgoes := prefix_drop_closeLine (codeOf before) (codeOf own) (codeOf after)
      rw [← hcode, (hname x hx).1] at hgoes
      exact hgoes
  · rintro n hn hl offset ⟨before, own, after, hps', hown, rfl⟩
    obtain rfl : ps = before ++ own ++ after := Except.ok.inj (hps.symm.trans hps')
    obtain ⟨-, name, body, hbody, -⟩ := hown.composed
    obtain ⟨l, hl⟩ := Option.isSome_iff_exists.mp hl
    rw [hl] at hbody
    obtain ⟨g, hg, hbeside⟩ := htraced.covered before l name (body ++ after) (by rw [hbody]; simp)
    have hbefore := take_closeLine (codeOf before) (codeOf own ++ codeOf after)
    rw [← codeOf_append, ← codeOf_append, ← List.append_assoc] at hbefore
    refine ⟨g, hg, ?_, ?_⟩
    · rw [hbeside.1, Text.lineAt]
      exact congrArg (fun x => (Text.endLine x : Int)) hbefore.symm
    · rw [hbeside.2, Text.columnAt]
      exact congrArg (fun x => (Text.endColumn x : Int)) hbefore.symm

/-- `for (var a = 'x';;) { b; }` with a line feed for the `x`. -/
def brokenLines : Tree :=
  let loc (line column : Int) : Option Location := some { file := "in.js", line, column }
  .mk .program (loc 1 1) [.list [.mk .forStatement (loc 1 1)
    [.mk .variableDeclaration (loc 1 6) [.list [.mk .variableDeclarator (loc 1 10)
      [.identifier "a" (loc 1 10), .mk .literal none [.null, .text "'\n'"]]], .text "var"],
     .null, .null, .mk .blockStatement none [.list [.mk .expressionStatement (loc 3 5)
      [.identifier "b" (loc 3 5)]]]]]]

/-- Line feeds in a literal and in the indentation are counted, and the names come to the mappings of the
nodes around them. -/
theorem mapped_positions_brokenLines :
    ∃ plain printed m, brokenLines.print none "\n\t" = .ok plain ∧
      plain.code = "for (var a = '\n';;) \x7b\n\n\tb;\n\x7d\n" ∧
      brokenLines.print (some { file := "out.js", source := "in.js" }) "\n\t" = .ok printed ∧
      printed.code = plain.code ∧ printed.map = some m ∧ m.mappings.Pairwise Mapping.Before ∧
      m.mappings = [⟨0, 0, 0, 0, none⟩, ⟨0, 5, 0, 5, none⟩, ⟨0, 9, 0, 9, some "a"⟩,
        ⟨3, 1, 2, 4, some "b"⟩] := by
  have hplain : ((brokenLines.print none "\n\t").toOption.map Printed.code) =
      some ("for (var a = '\n';;) \x7b\n\n\tb;\n\x7d\n" : Text) := by decide
  have hmap : (((brokenLines.print (some { file := "out.js", source := "in.js" }) "\n\t").toOption.bind
      Printed.map).map SourceMap.mappings) = some [⟨0, 0, 0, 0, none⟩, ⟨0, 5, 0, 5, none⟩,
        ⟨0, 9, 0, 9, some "a"⟩, ⟨3, 1, 2, 4, some "b"⟩] := by decide
  cases h : brokenLines.print none "\n\t" with
  | error f => rw [h] at hplain; cases hplain
  | ok plain =>
    rw [h] at hplain
    obtain ⟨printed, m, hprinted, hcode, hm, hbefore, -⟩ := mapped_positions h "out.js" "in.js"
    rw [hprinted] at hmap
    refine ⟨plain, printed, m, rfl, Option.some.inj hplain, hprinted, hcode, hm, hbefore, ?_⟩
    rw [Except.toOption, Option.bind_some, hm] at hmap
    exact Option.some.inj hmap

end ArrowFree
