import ArrowFree.Proofs.NodesKept
import ArrowFree.Proofs.OutermostElse
import ArrowFree.Proofs.TruePositions

/-!
# Names in source maps

A name in the map of a compiled script is that of an identifier of the lowered tree. An identifier there that
has a location stands for one of the parsed tree (`Woven.named`), which is a word of the script at that place
(`spelled_of_parse`). So the map has the word, unless lowering gave the identifier a new name: only `arguments`
gets one, and then the map has the new name (`mapped_names`).
-/

namespace ArrowFree

open ArrowFree.Tree Lowering
open List hiding lex

variable {x file source indent : Text} {printed : Printed} {options : CompileOptions}

/-! ## Words of a script -/

namespace Tree

theorem name?_identifier (i : Info) (slots : List Tree) :
    (node i (.known .identifier) slots).name? = slots.head?.bind asText? := by
  cases slots <;> rfl

theorem name?_of_not_identifier {t : Tree} (h : t.is .identifier = false) : t.name? = none := by
  rw [name?, h]
  rfl

theorem is_of_name? {t : Tree} (h : t.name? = some x) : t.is .identifier := by
  cases hid : t.is .identifier with
  | true => rfl
  | false => cases (name?_of_not_identifier hid).symm.trans h

theorem is_unnumbered (t : Tree) (k : Kind) : t.unnumbered.is k = t.is k := by
  rcases t with _ | _ | _ | ⟨i, _ | _, slots⟩ <;> rfl

theorem location_unnumbered (t : Tree) : t.unnumbered.location = t.location := by
  cases t <;> rfl

theorem name?_unnumbered (t : Tree) : t.unnumbered.name? = t.name? := by
  cases hid : t.is .identifier with
  | true =>
    obtain ⟨i, slots, rfl⟩ := is_iff.mp hid
    rw [unnumbered, mapInfo_node, name?_identifier, name?_identifier]
    rcases slots with _ | ⟨_ | _ | _ | _, _⟩ <;> rfl
  | false => rw [name?_of_not_identifier hid, name?_of_not_identifier (by rw [is_unnumbered, hid])]

end Tree

namespace Script

open Token

/-- An identifier is a word of the script, at its place. -/
def Spelled (file source : Text) (n : Tree) : Prop :=
  n.is .identifier → ∃ t ∈ (lex source).tokens, t.terminal ∈ propertyWords ∧
    n.location = some (tokenLocation file t) ∧ n.name? = some t.text

theorem selective_spelled (file source : Text) : Selective (Spelled file source) where
  relocated i j s slots hs _ hid := by
    obtain ⟨i', slots', heq⟩ := is_iff.mp hid
    exact absurd (Tree.node.inj heq).2.1 hs
  other i k slots _ hk hid := by
    obtain ⟨i', slots', heq⟩ := is_iff.mp hid
    exact absurd (Shape.known.inj (Tree.node.inj heq).2.1) hk

/-- **The identifiers of a script** are words of it. -/
theorem spelled_of_parse {t : Tree} (h : parse file source = .ok t) :
    ∀ n ∈ t.nodes, Spelled file source n := by
  refine holds_of_parse (selective_spelled file source) (fun n => ?_) h (fun t ht hword _ => ?_)
    (fun p ds _ _ _ us _ _ parts _ span i slots _ hid => ?_)
  · unfold Spelled
    rw [is_unnumbered, location_unnumbered, name?_unnumbered]
  · exact ⟨t, ht, hword, rfl, rfl⟩
  · cases hid

end Script

/-! ## Lowered identifiers -/

namespace Lowering

variable {a : Analysis}

theorem location_frame (t : Tree) : t.frame.location = t.location := by
  cases t <;> rfl

theorem is_frame (t : Tree) (k : Kind) : t.frame.is k = t.is k := by
  rcases t with _ | _ | _ | ⟨i, _ | _, slots⟩ <;> rfl

theorem name?_frame (t : Tree) : t.frame.name? = t.name? := by
  cases hid : t.is .identifier with
  | true =>
    obtain ⟨i, slots, rfl⟩ := is_iff.mp hid
    rw [frame, name?_identifier, name?_identifier]
    cases slots <;> rfl
  | false => rw [name?_of_not_identifier hid, name?_of_not_identifier (by rw [is_frame, hid])]

/-- An identifier with a location stands for one at that location, and has its new name if it gets one. -/
theorem Woven.named {ns ns' : List Tree} {cs : List NodeId} (h : Woven a ns ns' cs) {n' : Tree}
    (hn' : n' ∈ ns') (hname : n'.name? = some x) {l : Location} (hl : n'.location = some l) :
    ∃ n ∈ ns, n.is .identifier ∧ n.location = some l ∧ ((newName? a n).or n.name?) = some x := by
  have hid : n'.kind? = some .identifier := of_decide_eq_true (is_of_name? hname)
  cases hmade : n'.id.isMade with
  | true =>
    obtain ⟨role, origin, heq⟩ : ∃ role origin, n'.id = .made role origin := by
      cases heq : n'.id <;> simp_all [NodeId.isMade]
    obtain ⟨hk, hnone⟩ := h.of_made hn' heq
    cases (hnone (Option.some.inj (hk.symm.trans hid))).symm.trans hl
  | false =>
    have hframe : n'.frame ∈ (ns'.filter fun n => ! n.id.isMade).map frame :=
      mem_map_of_mem (mem_filter.mpr ⟨hn', by simp [hmade]⟩)
    rw [h.frames_eq] at hframe
    obtain ⟨n, hn, hafter⟩ := mem_map.mp hframe
    have hlocation : (frameAfter a n).location = some l := by rw [hafter, location_frame, hl]
    have hnamed : (frameAfter a n).name? = some x := by rw [hafter, name?_frame, hname]
    refine ⟨n, (mem_filter.mp hn).1, ?_⟩
    unfold frameAfter at hlocation hnamed
    cases hnew : newName? a n with
    | some y =>
      rw [hnew] at hlocation hnamed
      refine ⟨?_, hlocation, hnamed⟩
      cases hid : n.is .identifier with
      | true => rfl
      | false => cases (newName?_of_not_identifier hid).symm.trans hnew
    | none =>
      rw [hnew] at hlocation hnamed
      dsimp only at hlocation hnamed
      split at hnamed
      · next hout =>
        -- a property that is written out is no identifier
        unfold writesOut at hout
        split at hout
        · cases hnamed
        · cases hout
      · next hout =>
        rw [if_neg hout, location_frame] at hlocation
        rw [name?_frame] at hnamed
        exact ⟨is_of_name? hnamed, hlocation, hnamed⟩

theorem Generated.ne_arguments {target : Tree} (h : Generated target x) : x ≠ argumentsName := by
  obtain ⟨taken, -, rfl⟩ := h
  have hbegins := (freshName_least baseName taken).begins
  intro heq
  rw [heq] at hbegins
  revert hbegins
  decide

namespace Analyzed

variable {root : Tree} {t : ScopeTable} {hidden : List (Nat × List NodeId)}
  (h : Analyzed a root t hidden) {p : Place}
include h

theorem name?_of_reference (hp : p ∈ root.places) {ref : Reference} (href : ref ∈ t.references)
    (hid : ref.identifier = p.node.id) : p.node.name? = ref.name := by
  obtain ⟨q, hq, -, -, rfl⟩ := h.outlined.references ref href
  rw [h.distinct.place_eq hq hp hid]

/-- Only `arguments` gets a new name, and another one. -/
theorem replacement?_arguments (hp : p ∈ root.places) (hname : a.replacement? p.node.id = some x) :
    p.node.name? = some argumentsName ∧ x ≠ argumentsName := by
  unfold Analysis.replacement? at hname
  split at hname
  · next f htarget =>
    obtain ⟨ref, hid, ⟨href, hargs, -⟩, -⟩ := h.recorded.provided.targets _ _ htarget
    obtain ⟨-, n, -, -, hgenerated⟩ := h.recorded.provided.hoisted f x hname
    exact ⟨(h.name?_of_reference hp href hid).trans hargs, hgenerated.ne_arguments⟩
  · obtain ⟨i, s, b, ⟨hlexical, -⟩, hnames, n, -, -, hgenerated⟩ := h.renamed_iff.mp hname
    refine ⟨?_, hgenerated.ne_arguments⟩
    rcases hnames with hdeclared | ⟨ref, href, hargs, hid, -⟩
    · obtain ⟨d, hd, hargs, hid⟩ := (hlexical.mem_identifiers h.outlined _).mp hdeclared
      obtain ⟨q, hq, -, hname, hid', -⟩ :=
        (ScopeTable.mem_declarationsIn_iff h.additions).mp ⟨d, hd, hargs, hid⟩
      rw [← h.distinct.place_eq hq hp hid', hname]
    · exact (h.name?_of_reference hp href hid).trans hargs

end Analyzed

end Lowering

/-! ## Maps -/

variable {m : SourceMap} {t : Tree}

theorem map_place_none {l : Layout} (h : l.map = none) (p : Piece) : (l.place p).map = none := by
  cases p with
  | text x =>
    rw [Layout.place, Layout.moveOver]
    split <;> exact h
  | mark loc name => rw [Layout.place, h]; rfl

theorem map_of_print_none (h : t.print none indent = .ok printed) : printed.map = none := by
  obtain ⟨ps, -, h⟩ := bind_ok.mp h
  obtain rfl := Except.ok.inj h
  exact List.foldlRecOn (motive := fun l => l.map = none) ps Layout.place (b := {}) rfl
    fun l hl p _ => map_place_none hl p

/-- The map of a printed tree: the mappings are in the order of the generated text, and their names are those of
identifiers of the tree. -/
structure MapOf (t : Tree) (m : SourceMap) : Prop where
  named : m.Named
  sorted : m.mappings.mergeSort SourceMap.precedes = m.mappings
  line : ∀ g ∈ m.mappings, 0 ≤ g.line
  origin : ∀ g ∈ m.mappings, ∀ x, g.name = some x → ∃ n ∈ t.nodes, ∃ l, n.location = some l ∧
    n.name? = some x ∧ g.sourceLine = l.line - 1 ∧ g.sourceColumn = l.column - 1

open Printer in
theorem mapOf_of_print (h : t.print (some { file, source }) indent = .ok printed) (hm : printed.map = some m) :
    MapOf t m := by
  obtain ⟨ps, hps, h⟩ := bind_ok.mp h
  obtain rfl := Except.ok.inj h
  obtain ⟨m', htraced⟩ := (Traced.start file source).run ps
  obtain rfl : m' = m := Option.some.inj (htraced.map.symm.trans hm)
  rw [nil_append] at htraced
  refine ⟨htraced.named, htraced.sorted, fun g hg => ?_, fun g hg x hx => ?_⟩
  · obtain ⟨before, l, name, rest, -, rfl⟩ := htraced.origin g hg
    exact Int.natCast_nonneg _
  · obtain ⟨before, l, name, rest, hsplit, rfl⟩ := htraced.origin g hg
    obtain ⟨n, own, after, hn, -, hl, -, hname⟩ := exists_node_of_mark ⟨0, .inl hps⟩ hsplit
    exact ⟨n, hn, l, hl, (hname x hx).2, rfl, rfl⟩

open SourceMap in
theorem MapOf.decode (h : MapOf t m) : decode m.encoded = .ok (m.mappings.map (segmentOf m.names)) := by
  have hordered := (stablySorted_mergeSort m.mappings).ordered
  rw [h.sorted] at hordered
  rw [decode_eq_readOn, encoded, h.sorted]
  exact readOn_encodeFrom m.names m.mappings ⟨rfl, rfl, rfl, rfl, rfl⟩ (Int.le_refl 0) h.line
    (hordered.imp (by omega))

/-- The map of a script that is compiled with one. -/
def compiledMap? (source : Text) (options : CompileOptions) : Option SourceMap :=
  ((compile source options).toOption.bind Compilation.printed).bind Printed.map

theorem mapOf_of_compile (h : compiledMap? source options = some m) :
    ∃ program scopes a u, Script.parse options.file source = .ok program ∧
      LoweredTo options.file source program scopes a u ∧ MapOf u m := by
  obtain ⟨printed, hprinted, hm⟩ := Option.bind_eq_some_iff.mp h
  obtain ⟨c, hc, hprinted⟩ := Option.bind_eq_some_iff.mp hprinted
  have h : compile source options = .ok c := by
    cases h : compile source options with
    | error f => rw [h] at hc; cases hc
    | ok c' => rw [h] at hc; exact congrArg _ (Option.some.inj hc)
  obtain ⟨program, scopes, a, u, hparse, hlowered, hprint⟩ := compile_printed h hprinted
  refine ⟨program, scopes, a, u, hparse, hlowered, ?_⟩
  unfold CompileOptions.map at hprint
  cases hname : Diagnostic.present options.mapName with
  | some name =>
    rw [hname] at hprint
    exact mapOf_of_print hprint hm
  | none =>
    rw [hname] at hprint
    cases (map_of_print_none hprint).symm.trans hm

/-- A name in a segment comes from this word of the script, which is this identifier of the parsed tree. It is
the word itself, unless lowering gives the identifier a new name. -/
structure ComesFrom (file : Text) (a : Analysis) (s : SourceMap.Segment) (x : Text) (t : Token) (n : Tree) :
    Prop where
  word : t.terminal ∈ propertyWords
  line : (t.start.line : Int) = s.sourceLine + 1
  column : (t.start.column : Int) = s.sourceColumn + 1
  location : n.location = some (Script.tokenLocation file t)
  name : n.name? = some t.text
  mapped : x = (newName? a n).getD t.text
  replaced : x ≠ t.text ↔ (newName? a n).isSome
  arguments : x ≠ t.text → t.text = argumentsName

/-- **Names in source maps.** The map of a compiled script can be read, and every name in it comes from a word
of the script. The name is that word, except where lowering has replaced `arguments`: there, and only there,
it is another. -/
theorem mapped_names (h : compiledMap? source options = some m) :
    ∃ program scopes a u segments, Script.parse options.file source = .ok program ∧
      LoweredTo options.file source program scopes a u ∧ SourceMap.decode m.encoded = .ok segments ∧
      ∀ s ∈ segments, ∀ k, s.name = some k → ∃ (j : Nat) (x : Text), k = j ∧ m.names[j]? = some x ∧
        ∃ t ∈ (Token.lex source).tokens, ∃ n ∈ program.nodes, ComesFrom options.file a s x t n := by
  obtain ⟨program, scopes, a, u, hparse, hlowered, hmap⟩ := mapOf_of_compile h
  obtain ⟨hidden, hanalyzed⟩ := analyzed hlowered.distinct hlowered.scopes_eq hlowered.analysis_eq
  obtain ⟨cs, hwoven, -⟩ := woven_of_distinct hlowered.distinct hlowered.apply_eq
  refine ⟨program, scopes, a, u, _, hparse, hlowered, hmap.decode, fun s hs k hk => ?_⟩
  obtain ⟨g, hg, rfl⟩ := mem_map.mp hs
  have htells := SourceMap.segmentOf_tells (hmap.line g hg) (hmap.named.mem g hg)
  cases hx : g.name with
  | none =>
    rw [htells.unnamed hx] at hk
    cases hk
  | some x =>
    obtain ⟨j, hj, hnames⟩ := htells.named x hx
    obtain ⟨n', hn', l, hl, hname, hsourceLine, hsourceColumn⟩ := hmap.origin g hg x hx
    obtain ⟨n, hn, hid, hlocation, hfrom⟩ := hwoven.named hn' hname hl
    obtain ⟨t, ht, hword, hplace, htext⟩ := Script.spelled_of_parse hparse n hn hid
    obtain rfl : l = Script.tokenLocation options.file t := Option.some.inj (hlocation.symm.trans hplace)
    refine ⟨j, x, Option.some.inj (hk.symm.trans hj), hnames, t, ht, n, hn, ?_⟩
    have hline : (t.start.line : Int) = g.sourceLine + 1 := by
      rw [hsourceLine]
      exact (Int.sub_add_cancel ..).symm
    have hcolumn : (t.start.column : Int) = g.sourceColumn + 1 := by
      rw [hsourceColumn]
      exact (Int.sub_add_cancel ..).symm
    cases hnew : newName? a n with
    | none =>
      rw [hnew, htext] at hfrom
      obtain rfl := Option.some.inj hfrom
      exact ⟨hword, hline, hcolumn, hlocation, htext, by simp [hnew], by simp [hnew], by simp⟩
    | some y =>
      rw [hnew] at hfrom
      obtain rfl := Option.some.inj hfrom
      obtain ⟨p, hp, rfl⟩ := mem_map.mp hn
      have hreplacement : a.replacement? p.node.id = some y := by rwa [newName?, if_pos hid] at hnew
      obtain ⟨hargs, hne⟩ := hanalyzed.replacement?_arguments hp hreplacement
      obtain heq : t.text = argumentsName := Option.some.inj (htext.symm.trans hargs)
      rw [← heq] at hne
      exact ⟨hword, hline, hcolumn, hlocation, htext, by simp [hnew], by simp [hnew, hne], fun _ => heq⟩

/-- `function f() { () => arguments }` -/
def carriedOnce : Text := "function f()\x7b()=>arguments\x7d"

/-- The word `arguments` is replaced, and the map has the new name for it. -/
theorem word_replaced_in_map :
    ∃ m segments, compiledMap? carriedOnce { mapName := some "m" } = some m ∧
      SourceMap.decode m.encoded = .ok segments ∧
      ∃ s ∈ segments, ∃ t ∈ (Token.lex carriedOnce).tokens, (t.start.line : Int) = s.sourceLine + 1 ∧
        (t.start.column : Int) = s.sourceColumn + 1 ∧ t.text = "arguments" ∧ s.name = some 1 ∧
        m.names[1]? = some ("$__arguments" : Text) := by
  have hcomputed : (compiledMap? carriedOnce { mapName := some "m" }).map
      (fun m => (m.names, m.mappings.getLast?)) =
        some ([("f" : Text), "$__arguments"], some ⟨3, 11, 0, 17, some "$__arguments"⟩) := by decide +kernel
  obtain ⟨m, hm, heq⟩ := Option.map_eq_some_iff.mp hcomputed
  obtain ⟨hnames, hlast⟩ := Prod.mk.inj heq
  obtain ⟨-, -, -, u, -, -, hmap⟩ := mapOf_of_compile hm
  refine ⟨m, _, hm, hmap.decode, _, mem_map_of_mem (mem_of_getLast? hlast),
    ⟨.ident, "arguments", ⟨1, 18, 17⟩, ⟨1, 27, 26⟩⟩, by decide, rfl, rfl, rfl, ?_, ?_⟩
  · rw [hnames]
    decide
  · rw [hnames]
    rfl

end ArrowFree
