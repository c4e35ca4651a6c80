import ArrowFree.Proofs.OutermostElse
import ArrowFree.Proofs.TruePositions

/-!
# Locations of parsed nodes

A derivation spans from its first token to its last (`span_of_build`), and so does the node that it makes. The nodes
within were made from some of these tokens, so that they lie inside; they keep the order of the tokens, because each
form takes the trees of its parts in order (`assemble_cases`). Tokens stand at the places of their offsets, hence so
do the nodes (`locations_consistent`).
-/

namespace ArrowFree

open List hiding lex

variable {t : Token}

/-! ## Places of offsets -/

/-- The place of an offset of a text. -/
def Position.ofOffset (t : Text) (n : Nat) : Position := ⟨t.lineAt n + 1, t.columnAt n + 1, n⟩

theorem Position.advance_eq (t : Text) : ({} : Position).advance t = ⟨t.endLine + 1, t.endColumn + 1, t.length⟩ := by
  induction t using List.reverseRecOn with
  | nil => rfl
  | append_singleton t c ih =>
    rw [advance_append, ih]
    change step _ c = _
    rw [length_append, Text.endLine_append]
    unfold step
    split
    · next h =>
      subst h
      rw [Text.endColumn_of_endLine_ne_zero (by decide)]
      rfl
    · next h =>
      have hline : Text.endLine [c] = 0 := count_eq_zero.mpr fun hmem => h (mem_singleton.mp hmem).symm
      rw [Text.endColumn_of_endLine_eq_zero hline, hline]
      rfl

theorem Position.advance_left (s t : Text) : ({} : Position).advance s = ofOffset (s ++ t) s.length := by
  rw [advance_eq, ofOffset, Text.lineAt, Text.columnAt, take_left]

theorem Token.place_of_mem_lex {source : Text} (h : t ∈ (lex source).tokens) :
    t.start = .ofOffset source t.start.offset ∧ t.stop = .ofOffset source t.stop.offset ∧
      t.stop.offset ≤ source.length := by
  obtain ⟨-, x, z, rfl, hstart, hstop⟩ := (lexes_lex source).found h
  have hfirst := hstart.trans (Position.advance_left x (t.text ++ z))
  have hlast := hstop.trans (Position.advance_left (x ++ t.text) z)
  rw [← append_assoc] at hfirst
  rw [hfirst, hlast]
  exact ⟨rfl, rfl, by simp [Position.ofOffset]⟩

namespace Script

open Grammar Token ArrowFree.Tree

variable {file : Text} {ts us : List Token} {n : Tree} {ns ms trees : List Tree}
  {parts : List Built} {span : Option Span} {form : Form}

/-! ## Spans of tokens -/

/-- The tokens stand one behind the other, and none is empty. -/
structure InOrder (ts : List Token) : Prop where
  filled : ∀ t ∈ ts, t.start.offset < t.stop.offset
  behind : ts.Pairwise fun s t => s.stop.offset ≤ t.start.offset

namespace InOrder

theorem left (h : InOrder (ts ++ us)) : InOrder ts :=
  ⟨(forall_mem_append.mp h.filled).1, (pairwise_append.mp h.behind).1⟩

theorem right (h : InOrder (ts ++ us)) : InOrder us :=
  ⟨(forall_mem_append.mp h.filled).2, (pairwise_append.mp h.behind).2.1⟩

end InOrder

/-- The span of tokens begins with one of them and ends with one, and all lie in it. -/
theorem tokenSpan_spec (h : InOrder ts) (hne : ts ≠ []) :
    ∃ a ∈ ts, ∃ b ∈ ts, tokenSpan ts = some (a.start, b.stop) ∧
      ∀ t ∈ ts, a.start.offset ≤ t.start.offset ∧ t.stop.offset ≤ b.stop.offset := by
  induction ts with
  | nil => exact absurd rfl hne
  | cons t ts ih =>
    obtain ⟨hfilled, hrest⟩ := forall_mem_cons.mp h.filled
    obtain ⟨hfirst, hbehind⟩ := pairwise_cons.mp h.behind
    rcases eq_nil_or_concat ts with rfl | hts
    · exact ⟨t, .head _, t, .head _, rfl, by simp⟩
    · have hne : ts ≠ [] := by
        rintro rfl
        simp at hts
      obtain ⟨a, ha, b, hb, hspan, hwithin⟩ := ih ⟨hrest, hbehind⟩ hne
      refine ⟨t, .head _, b, .tail _ hb, ?_, forall_mem_cons.mpr ⟨⟨Nat.le_refl _, ?_⟩, fun u hu => ?_⟩⟩
      · change Built.joinSpans _ (tokenSpan ts) = _
        rw [hspan]
        rfl
      · have := hfirst b hb
        have := hrest b hb
        omega
      · have := hfirst u hu
        have := hwithin u hu
        omega

/-! ## Nodes over tokens -/

/-- The first node does not start behind the second. -/
def Rises (n m : Tree) : Prop := ∀ l ∈ n.location, ∀ k ∈ m.location, l.start ≤ k.start

/-- The location of the first node contains that of the second. -/
def Contains (n m : Tree) : Prop := ∀ l ∈ n.location, ∀ k ∈ m.location, l.start ≤ k.start ∧ k.stop ≤ l.stop

/-- Nodes made of some tokens: each spans from one to another, they come in the order of their starts, and what is
within them lies in their span. -/
@[mk_iff] structure Laid (file : Text) (ts : List Token) (ns : List Tree) : Prop where
  located : ∀ n ∈ ns, ∃ a ∈ ts, ∃ b ∈ ts, n.location = some (locationOf file (a.start, b.stop)) ∧
    a.start.offset < b.stop.offset
  rising : ns.Pairwise Rises
  nested : ∀ n ∈ ns, ∀ m ∈ n.nodes, Contains n m

namespace Laid

theorem nil : Laid file ts [] := ⟨nofun, .nil, nofun⟩

theorem sublist (h : Laid file ts ms) (hsub : ns.Sublist ms) : Laid file ts ns where
  located n hn := h.located n (hsub.subset hn)
  rising := h.rising.sublist hsub
  nested n hn := h.nested n (hsub.subset hn)

theorem append (ho : InOrder (ts ++ us)) (h : Laid file ts ns) (h' : Laid file us ms) :
    Laid file (ts ++ us) (ns ++ ms) where
  located := by
    refine forall_mem_append.mpr ⟨fun n hn => ?_, fun n hn => ?_⟩
    · obtain ⟨a, ha, b, hb, hn⟩ := h.located n hn
      exact ⟨a, mem_append_left _ ha, b, mem_append_left _ hb, hn⟩
    · obtain ⟨a, ha, b, hb, hn⟩ := h'.located n hn
      exact ⟨a, mem_append_right _ ha, b, mem_append_right _ hb, hn⟩
  rising := by
    refine pairwise_append.mpr ⟨h.rising, h'.rising, fun n hn m hm l hl k hk => ?_⟩
    obtain ⟨a, ha, b, -, hnl, -⟩ := h.located n hn
    obtain ⟨c, hc, d, -, hmk, -⟩ := h'.located m hm
    cases hnl.symm.trans hl
    cases hmk.symm.trans hk
    have := ho.filled a (mem_append_left _ ha)
    have := (pairwise_append.mp ho.behind).2.2 a ha c hc
    simp only [locationOf]
    omega
  nested := forall_mem_append.mpr ⟨h.nested, h'.nested⟩

/-- A node over all the tokens, in front of the nodes in it. -/
theorem node (ho : InOrder ts) (hne : ts ≠ []) (h : Laid file ts ns) (hnodes : n.nodes = n :: ns)
    (hlocation : n.location = (tokenSpan ts).map (locationOf file)) : Laid file ts (n :: ns) := by
  obtain ⟨a, ha, b, hb, hspan, hwithin⟩ := tokenSpan_spec ho hne
  rw [hspan] at hlocation
  have hcontains : ∀ m ∈ n :: ns, Contains n m := by
    refine forall_mem_cons.mpr ⟨fun l hl k hk => ?_, fun m hm l hl k hk => ?_⟩
    · cases hl.symm.trans hk
      exact ⟨Int.le_refl _, Int.le_refl _⟩
    · obtain ⟨c, hc, d, hd, hmk, -⟩ := h.located m hm
      cases hlocation.symm.trans hl
      cases hmk.symm.trans hk
      have := hwithin c hc
      have := hwithin d hd
      simp only [locationOf]
      omega
  refine ⟨forall_mem_cons.mpr ⟨⟨a, ha, b, hb, hlocation, ?_⟩, h.located⟩,
    pairwise_cons.mpr ⟨fun m hm l hl k hk => (hcontains m (.tail _ hm) l hl k hk).1, h.rising⟩,
    forall_mem_cons.mpr ⟨hnodes ▸ hcontains, h.nested⟩⟩
  have := ho.filled a ha
  have := hwithin a ha
  omega

theorem token (ht : t.start.offset < t.stop.offset) {i : Info} {s : Shape} {slots : List Tree}
    (hlocation : i.location = some (tokenLocation file t)) (hslots : contentsIn s.fields slots = []) :
    Laid file [t] (contentsOf [.node i s slots]) := by
  have hnodes : (Tree.node i s slots).nodes = [.node i s slots] := by rw [nodes_eq_cons, hslots]
  have hlaid := node ⟨by simpa using ht, pairwise_singleton ..⟩ nofun nil hnodes hlocation
  simpa [hslots] using hlaid

/-- A node at the place of a name, in front of it. -/
theorem twice (h : Laid file ts [n]) {m : Tree} (hlocation : m.location = n.location)
    (hm : ∀ k ∈ m.nodes, k.location = n.location) : Laid file ts [m, n] := by
  have hsame : ∀ k : Tree, k.location = n.location → Contains m k := by
    intro k hk l hl r hr
    cases (hlocation ▸ hl).symm.trans (hk ▸ hr)
    exact ⟨Int.le_refl _, Int.le_refl _⟩
  refine ⟨forall_mem_cons.mpr ⟨?_, h.located⟩, ?_, forall_mem_cons.mpr ⟨fun k hk => hsame k (hm k hk), h.nested⟩⟩
  · rw [hlocation]
    exact h.located n (.head _)
  · exact pairwise_pair.mpr fun l hl k hk => (hsame n rfl l hl k hk).1

end Laid

/-! ## Derivations -/

theorem name_rules : ∀ p ∈ grammar.productions, p.action = .shorthand ∨ p.action = .forInDeclaration →
    p.body = [.terminal .ident] ∨ p.body = [.nonterminal .varKind, .terminal .ident] := by
  decide +kernel

/-- The last of the trees is an identifier. -/
def EndsInName (trees : List Tree) : Prop := ∃ i slots, trees.getLast? = some (.node i (.known .identifier) slots)

/-- What is named on its own, or behind a word that declares it. -/
theorem endsInName_of_buildAll {p : Rule} (hp : p ∈ grammar.productions)
    (hform : p.action = .shorthand ∨ p.action = .forInDeclaration)
    {ds : List Deriv} (hts : ∀ t ∈ ts, Spells t.terminal t.text)
    (hds : grammar.DerivesAll p.body ds ts) (hparts : buildAll file ds = .ok parts) :
    EndsInName (Built.treesOf parts) := by
  have hmade := buildAll_made file hts hds
  rw [hparts] at hmade
  have hall := holdAll_trees hmade
  rcases name_rules p hp hform with hbody | hbody <;> rw [hbody] at hall
  · obtain ⟨us, _, htrees, ⟨t, rfl, hproper⟩, rfl⟩ := hall
    cases hproper
    exact ⟨_, _, by rw [htrees]; rfl⟩
  · obtain ⟨_, _, htrees, ⟨x, rfl, -⟩, us, _, rfl, ⟨t, rfl, hproper⟩, rfl⟩ := hall
    cases hproper
    exact ⟨_, _, by rw [htrees]; rfl⟩

theorem empty_rules : ∀ p ∈ grammar.productions, p.body = [] →
    p.head = .program ∧ p.action = .program ∨ p.head ≠ .program ∧ (p.action = .inline ∨ p.action = .parameters) := by
  decide +kernel

theorem program_not_mem_body : ∀ p ∈ grammar.productions, .nonterminal .program ∉ p.body := by
  decide +kernel

theorem laid_ofToken (ht : t.start.offset < t.stop.offset) (h : ofToken file t = .ok trees) :
    Laid file [t] (contentsOf trees) := by
  unfold ofToken at h
  split at h
  case h_2 =>
    obtain ⟨v, -, rfl⟩ := map_ok.mp h
    exact .token ht rfl rfl
  all_goals cases h
  all_goals first
    | exact .token ht rfl rfl
    | exact .nil

theorem laid_kids {kids : List Tree} (hkids : Kids form trees kids) (h : Laid file ts (contentsOf trees))
    (hname : form = .shorthand ∨ form = .forInDeclaration → EndsInName trees) : Laid file ts kids := by
  cases hkids with
  | ordered hsub => exact h.sublist hsub
  | shorthand name =>
    obtain ⟨i, slots, hlast⟩ := hname (.inl rfl)
    obtain rfl := Option.some.inj hlast
    have hlaid : Laid file ts [.node i (.known .identifier) slots] := by simpa [Shape.fields, Kind.layout] using h
    simpa [Shape.fields, Kind.layout] using hlaid.twice rfl (by simp [Shape.fields, Kind.layout])
  | declarator kind name =>
    obtain ⟨i, slots, hlast⟩ := hname (.inr rfl)
    obtain rfl := Option.some.inj hlast
    have hlaid : Laid file ts [.node i (.known .identifier) slots] := h.sublist (by simp [Shape.fields, Kind.layout])
    have hnodes : (Tree.mk .variableDeclarator i.location [.node i (.known .identifier) slots, .null]).nodes =
        [.mk .variableDeclarator i.location [.node i (.known .identifier) slots, .null],
          .node i (.known .identifier) slots] := by simp [Tree.mk, Shape.fields, Kind.layout]
    exact hnodes ▸ hlaid.twice rfl (by rw [hnodes]; simp [Tree.mk, location, info])

/-- What a production makes is laid over its tokens if its parts are. -/
theorem laid_assemble (ho : InOrder ts) (hne : ts ≠ [])
    (hparts : Laid file ts (contentsOf (Built.treesOf parts)))
    (h : assemble file form (tokenSpan ts) parts = .ok trees)
    (hname : form = .shorthand ∨ form = .forInDeclaration → EndsInName (Built.treesOf parts)) :
    Laid file ts (contentsOf trees) := by
  obtain ⟨rfl, -⟩ | ⟨i, s, slots, rfl, hlocation, hkids, -⟩ := assemble_cases h
  · exact hparts
  · simpa using (laid_kids hkids hparts hname).node ho hne (nodes_eq_cons i s slots) hlocation

mutual

/-- **What a derivation makes is laid over its tokens**; only a program can have none. -/
theorem laid_of_build {ts : List Token} {s : Sym} {d : Deriv} {b : Built}
    (hts : ∀ t ∈ ts, Spells t.terminal t.text) (ho : InOrder ts) (hs : s = .nonterminal .program → ts ≠ []) :
    grammar.Derives s d ts → build file d = .ok b → Laid file ts (contentsOf b.trees)
  | .leaf t, hb => by
    rw [build] at hb
    obtain ⟨us, hus, hb⟩ := bind_ok.mp hb
    cases hb
    exact laid_ofToken (ho.filled t (.head _)) hus
  | .branch (p := p) hp hds, hb => by
    by_cases hword : p.action = .keyName
    · rw [build_branch_eq, hword] at hb
      obtain ⟨parts, -, hb⟩ := bind_ok.mp hb
      cases hb
      obtain ⟨k, -, hbody⟩ := keyName_rules hp hword
      rw [hbody] at hds
      obtain _ | ⟨hd, _ | _⟩ := hds
      obtain ⟨t, -, rfl, rfl⟩ := derives_terminal hd
      exact .token (ho.filled t (.head _)) rfl rfl
    · obtain ⟨parts, hparts, hassembled⟩ := build_branch_ok hb hword
      by_cases hne : ts = []
      · have hbody := body_eq_nil_of_derivesAll noEmptyStart hp hne hds
        rw [hbody] at hds
        cases hds
        cases hparts
        rcases empty_rules p hp hbody with ⟨hhead, -⟩ | ⟨-, hform | hform⟩
        · exact absurd hne (hs (by rw [hhead]))
        all_goals
          rw [hform] at hassembled
          exact Except.ok.inj hassembled ▸ .nil
      · have hlaid := laid_of_buildAll hts ho (program_not_mem_body p hp) hds hparts
        rw [span_of_buildAll hds hparts] at hassembled
        exact laid_assemble ho hne hlaid hassembled fun hform => endsInName_of_buildAll hp hform hts hds hparts

theorem laid_of_buildAll {ts : List Token} {ss : List Sym} {ds : List Deriv}
    {parts : List Built} (hts : ∀ t ∈ ts, Spells t.terminal t.text) (ho : InOrder ts)
    (hss : .nonterminal .program ∉ ss) :
    grammar.DerivesAll ss ds ts → buildAll file ds = .ok parts → Laid file ts (contentsOf (Built.treesOf parts))
  | .nil, hparts => by
    cases hparts
    exact .nil
  | .cons hd hds, hparts => by
    obtain ⟨hts, hus⟩ := forall_mem_append.mp hts
    rw [buildAll] at hparts
    obtain ⟨b, hb, hparts⟩ := bind_ok.mp hparts
    obtain ⟨bs, hbs, hparts⟩ := bind_ok.mp hparts
    cases hparts
    have hfirst := laid_of_build hts ho.left (fun hs => absurd hs.symm (ne_of_not_mem_cons hss)) hd hb
    have hrest := laid_of_buildAll hus ho.right (not_mem_of_not_mem_cons hss) hds hbs
    simpa [Built.treesOf] using hfirst.append ho hrest

end

/-! ## Scripts -/

section

variable {f : Info → Info}

theorem location_mapInfo (hf : ∀ i, (f i).location = i.location) (t : Tree) :
    (t.mapInfo f).location = t.location := by
  cases t with
  | node i s slots =>
    rw [mapInfo_node]
    exact hf i
  | list items => rw [mapInfo_list]; rfl
  | _ => rfl

theorem laid_map (hf : ∀ i, (f i).location = i.location) :
    Laid file ts (ns.map (mapInfo f)) ↔ Laid file ts ns := by
  have hrises (n m : Tree) : Rises (n.mapInfo f) (m.mapInfo f) ↔ Rises n m := by
    simp only [Rises, location_mapInfo hf]
  have hcontains (n m : Tree) : Contains (n.mapInfo f) (m.mapInfo f) ↔ Contains n m := by
    simp only [Contains, location_mapInfo hf]
  simp only [laid_iff, forall_mem_map, pairwise_map, location_mapInfo hf, nodes_mapInfo, hrises, hcontains]

end

theorem inOrder_lex (source : Text) : InOrder (lex source).tokens :=
  ⟨fun _ => start_lt_stop, (lexes_lex source).pairwise⟩

theorem laid_numbered (t : Tree) : Laid file ts t.numbered.nodes ↔ Laid file ts t.nodes := by
  have hids (u : Tree) : Laid file ts u.unnumbered.nodes ↔ Laid file ts u.nodes := by
    rw [unnumbered, nodes_mapInfo]
    exact laid_map fun _ => rfl
  rw [← hids t.numbered, unnumbered_numbered, hids]

theorem build_of_nil {d : Deriv} {b : Built} (hts : ts = [])
    (hd : grammar.Derives (.nonterminal .program) d ts) (hb : build file d = .ok b) :
    b.trees = [.mk .program none [.list []]] := by
  obtain ⟨p, ds, hp, hhead, rfl, hds⟩ := derives_nonterminal hd
  have hbody := body_eq_nil_of_derivesAll noEmptyStart hp hts hds
  rcases empty_rules p hp hbody with ⟨-, hform⟩ | ⟨hne, -⟩
  · rw [hbody] at hds
    cases hds
    obtain ⟨parts, hparts, hassembled⟩ := build_branch_ok hb (by rw [hform]; nofun)
    cases hparts
    rw [hform] at hassembled
    exact (Except.ok.inj hassembled).symm
  · exact absurd hhead hne

theorem is_program_of_proper {t : Tree} (h : Made.Proper .program t) : t.is .program := by
  cases h
  rfl

theorem laid_of_parse {source : Text} {t : Tree} (h : parse file source = .ok t) :
    t.is .program ∧ ((lex source).tokens ≠ [] → Laid file (lex source).tokens t.nodes) ∧
      ((lex source).tokens = [] → t.nodes = [t] ∧ t.location = none) := by
  have hts : ∀ u ∈ (lex source).tokens, Spells u.terminal u.text := fun u => spells_of_mem_lex
  obtain ⟨d, hd, h⟩ := bind_ok.mp h
  have hderives := (derives_of_derive hd).1
  have hmade := build_made file hts hderives
  cases hb : build file d with
  | error f =>
    rw [hb] at h
    cases h
  | ok b =>
    rw [hb] at h hmade
    cases h
    obtain ⟨u, hu, hproper⟩ := hmade
    rw [hu]
    refine ⟨is_program_of_proper hproper.numbered, fun hne => ?_, fun hnil => ?_⟩
    · have hlaid := laid_of_build hts (inOrder_lex source) (fun _ => hne) hderives hb
      rw [hu] at hlaid
      rw [headD_cons, laid_numbered]
      exact hlaid.sublist (by simpa using nodes_sublist_contents u)
    · obtain rfl := (List.cons.inj (hu.symm.trans (build_of_nil hnil hderives hb))).1
      exact ⟨rfl, rfl⟩

/-- **The nodes of a script have consistent locations**: each is a stretch of the source that is not empty, with the
lines and columns of its ends; what is within a node lies in its stretch, and the nodes come in the order of their
starts. Only the program of a script without tokens has no location. -/
theorem locations_consistent {source : Text} {t : Tree} (h : parse file source = .ok t) : t.is .program ∧
    (∀ n ∈ t.nodes, ∀ l ∈ n.location, (∃ i j : Nat, i < j ∧ j ≤ source.length ∧ l =
        { file, start := i, stop := j, line := source.lineAt i + 1, column := source.columnAt i + 1,
          endLine := source.lineAt j + 1, endColumn := source.columnAt j + 1 }) ∧
      ∀ m ∈ n.nodes, ∀ k ∈ m.location, l.start ≤ k.start ∧ k.stop ≤ l.stop) ∧
    t.nodes.Pairwise (fun n m => ∀ l ∈ n.location, ∀ k ∈ m.location, l.start ≤ k.start) ∧
    ∀ n ∈ t.nodes, n.location = none ↔ n = t ∧ (lex source).tokens = [] := by
  obtain ⟨hprogram, hlaid, hempty⟩ := laid_of_parse h
  by_cases hne : (lex source).tokens = []
  · obtain ⟨hnodes, hnone⟩ := hempty hne
    rw [hnodes]
    simp [hnone, hne, hprogram]
  · have hlaid := hlaid hne
    refine ⟨hprogram, fun n hn l hl => ⟨?_, fun m hm => hlaid.nested n hn m hm l hl⟩, hlaid.rising, fun n hn => ?_⟩
    · obtain ⟨a, ha, b, hb, hlocation, hlt⟩ := hlaid.located n hn
      obtain ⟨hstart, -, -⟩ := place_of_mem_lex ha
      obtain ⟨-, hstop, hle⟩ := place_of_mem_lex hb
      refine ⟨a.start.offset, b.stop.offset, hlt, hle, ?_⟩
      cases hlocation.symm.trans hl
      rw [locationOf, hstart, hstop]
      rfl
    · obtain ⟨a, -, b, -, hlocation, -⟩ := hlaid.located n hn
      simp [hlocation, hne]

/-- A sequence spans the parentheses around its first item, and a short property holds its name twice. -/
theorem locations_consistent_sequence : ∃ t, parse "a.js" "(a),\n\x7bk\x7d;" = .ok t ∧
    t.nodes.map (fun n => n.location.map fun l => (l.start, l.stop)) =
      [(0, 9), (0, 9), (0, 8), (1, 2), (5, 8), (6, 7), (6, 7), (6, 7)].map some ∧
    t.nodes.Pairwise (fun n m => ∀ l ∈ n.location, ∀ k ∈ m.location, l.start ≤ k.start) := by
  have hparse : ∃ t, parse "a.js" "(a),\n\x7bk\x7d;" = .ok t ∧
      t.nodes.map (fun n => n.location.map fun l => (l.start, l.stop)) =
        [(0, 9), (0, 9), (0, 8), (1, 2), (5, 8), (6, 7), (6, 7), (6, 7)].map some :=
    exists_of_map (by decide +kernel)
  obtain ⟨t, ht, hspans⟩ := hparse
  exact ⟨t, ht, hspans, (locations_consistent ht).2.2.1⟩

end Script

end ArrowFree
