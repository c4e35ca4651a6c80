import ArrowFree.Proofs.Analyzable
import ArrowFree.Proofs.Lowered

/-!
# Lowering keeps proper trees proper

A tree that has the form of a part of a program is lowered to a tree of that form (`lowersTo`), with one
case for each constructor of `Formed`. The names that lowering makes are names (`spells_freshName`), and what
an arrow becomes has the form of a function (`lowersTo_arrow`). So a proper program is lowered to a proper
program without arrow functions (`lowerable`).
-/

namespace ArrowFree

open Lowering ArrowFree.Tree Token List

variable {x : Text}

/-- Every kind but arrow functions. -/
def ArrowFreeKind (k : Kind) : Prop := k ≠ .arrowFunctionExpression

/-! ## Generated names -/

namespace Token

theorem isIdentPart_ofNat (n : Nat) : ∀ c ∈ Text.ofNat n, isIdentPart c := by
  intro c hc
  rw [isIdentPart, Text.isAsciiDigit_ofNat n c hc, Bool.or_true]

/-- No reserved word begins with `$`. -/
theorem spells_dollar (h : ∀ c ∈ x, isIdentPart c) : Spells .ident (('$' : CodePoint) :: x) := by
  have table : keywords.all (fun e => e.1.head? ≠ some '$') := by decide
  have hword : wordTerminal (('$' : CodePoint) :: x) = .ident := by
    unfold wordTerminal
    cases hl : keywords.lookup (('$' : CodePoint) :: x) with
    | none => rfl
    | some k => simpa using all_eq_true.mp table _ (mem_keywords hl)
  exact hword ▸ spells_iff_lexeme.mpr (.word (by decide) h)

end Token

namespace Lowering

variable {i : Info} {k : Kind} {b b' : Tree} {slots ps ts us : List Tree} {f : Field} {name : Text}

theorem spells_freshName (taken : List Text) : Spells .ident (freshName baseName taken) := by
  have hbase : ∀ c ∈ baseName.tail, isIdentPart c := all_eq_true.mp (by decide)
  have hleast := freshName_least baseName taken
  generalize freshName baseName taken = x at hleast
  cases hleast with
  | base => exact spells_dollar hbase
  | @numbered k => exact spells_dollar (forall_mem_append.mpr ⟨hbase, isIdentPart_ofNat k⟩)

/-- The names that an analysis gives are names. -/
structure Analysis.Spelled (a : Analysis) : Prop where
  replacement : ∀ id x, a.replacement? id = some x → Spells .ident x
  hoisted : ∀ id x, a.hoistedNames.get? id = some x → Spells .ident x

theorem spelled_of_analyze {root : Tree} {scopes : ScopeTable} {a : Analysis} (hd : root.Distinct)
    (hscopes : ScopeTable.ofTree root = .ok scopes) (ha : analyze scopes root = .ok a) :
    a.Spelled := by
  have hgenerated {id : NodeId} {x : Text} (h : GeneratedFor root id x) : Spells .ident x := by
    obtain ⟨_, -, -, taken, -, rfl⟩ := h
    exact spells_freshName taken
  obtain ⟨hidden, hanalyzed⟩ := analyzed hd hscopes ha
  have hhoisted (id : NodeId) (x : Text) (h : a.hoistedNames.get? id = some x) : Spells .ident x :=
    hgenerated (hanalyzed.recorded.provided.hoisted id x h).2
  refine ⟨fun id x h => ?_, hhoisted⟩
  unfold Analysis.replacement? at h
  split at h
  · exact hhoisted _ x h
  · obtain ⟨_, -, -, s, -, hs⟩ := hanalyzed.recorded.renamed id x h
    exact hgenerated hs

/-! ## Slots and nodes -/

variable {a : Analysis} {p : Part} {t u : Tree}

/-- Lowering makes of a tree a proper part without arrow functions. -/
structure LowersTo (a : Analysis) (p : Part) (t u : Tree) : Prop where
  apply_eq : apply a t = (u, none)
  not_list : ∀ us, t ≠ .list us
  formed : Formed ArrowFreeKind p u

theorem LowersTo.slot (h : LowersTo a p t u) (hf : f.child) : applySlot a f t = (u, none) := by
  unfold applySlot
  rw [if_pos hf]
  split
  · next us => exact absurd rfl (h.not_list us)
  · exact h.apply_eq

theorem slot_attribute (hf : f.child = false) (t : Tree) : applySlot a f t = (t, none) := by
  unfold applySlot
  rw [if_neg (by simp [hf])]

theorem slot_items (hf : f.child) (h : applyItems a ts = (us, none)) :
    applySlot a f (.list ts) = (.list us, none) := by
  unfold applySlot
  rw [if_pos hf]
  simp only [h]

theorem slots_cons {fs : List Field} (h : applySlot a f t = (u, none)) (hs : applySlots a fs ts = (us, none)) :
    applySlots a (f :: fs) (t :: ts) = (u :: us, none) :=
  applySlots_cons_ok.mpr ⟨u, us, rfl, h, hs⟩

theorem lowersTo_items (h : ∀ t ∈ ts, ∃ u, LowersTo a p t u) :
    ∃ us, applyItems a ts = (us, none) ∧ us.length = ts.length ∧
      ∀ u ∈ us, Formed ArrowFreeKind p u := by
  induction ts with
  | nil => exact ⟨[], rfl, rfl, nofun⟩
  | cons t ts ih =>
    obtain ⟨u, hu⟩ := h t (.head _)
    obtain ⟨us, hus, hlen, hform⟩ := ih fun t ht => h t (.tail _ ht)
    exact ⟨u :: us, applyItems_cons_ok.mpr ⟨u, us, rfl, hu.apply_eq, hus⟩, by simp [hlen],
      forall_mem_cons.mpr ⟨hu.formed, hform⟩⟩

theorem leave_plain (hk : k.isFunction = false) :
    leave a (.node i (.known k) slots) = (.node i (.known k) slots, none) := by
  obtain ⟨hordinary, harrow⟩ := Bool.or_eq_false_iff.mp hk
  unfold leave
  rw [if_neg (by simpa [isArrow, kind?] using harrow),
    if_neg (by simpa [isOrdinaryFunction, kind?] using hordinary)]

/-- A node of a kind that lowering has no rule for keeps its place around its lowered slots. -/
theorem apply_plain {slots' : List Tree}
    (hk : k ≠ .identifier ∧ k ≠ .property ∧ k.isFunction = false)
    (hslots : applySlots a k.layout slots = (slots', none)) :
    apply a (.node i (.known k) slots) = (.node i (.known k) slots', none) := by
  refine apply_node_ok.mpr (.inr ⟨?_, slots', hslots, ?_⟩)
  · unfold rename?
    split
    · next heq => cases heq; exact absurd rfl hk.1
    · rfl
  · rw [written_of_ne hk.2.1]
    exact leave_plain hk.2.2

/-- Lowered slots of which a node is made that has a property. -/
def SlotsLowerTo (a : Analysis) (fs : List Field) (ts : List Tree) (P : List Tree → Prop) : Prop :=
  ∃ us, applySlots a fs ts = (us, none) ∧ P us

namespace SlotsLowerTo

variable {f : Field} {fs : List Field} {ts : List Tree} {P : List Tree → Prop}

theorem nil (h : P []) : SlotsLowerTo a [] [] P := ⟨[], rfl, h⟩

theorem kept (hf : f.child = false) (hs : SlotsLowerTo a fs ts fun us => P (t :: us)) :
    SlotsLowerTo a (f :: fs) (t :: ts) P := by
  obtain ⟨us, hus, hP⟩ := hs
  exact ⟨t :: us, slots_cons (slot_attribute hf t) hus, hP⟩

theorem part (hf : f.child) (h : ∃ u, LowersTo a p t u)
    (hs : ∀ {u}, Formed ArrowFreeKind p u → SlotsLowerTo a fs ts fun us => P (u :: us)) :
    SlotsLowerTo a (f :: fs) (t :: ts) P := by
  obtain ⟨u, hu⟩ := h
  obtain ⟨us, hus, hP⟩ := hs hu.formed
  exact ⟨u :: us, slots_cons (hu.slot hf) hus, hP⟩

theorem list (hf : f.child) {items : List Tree} (h : ∀ t ∈ items, ∃ u, LowersTo a p t u)
    (hs : ∀ {us}, (∀ u ∈ us, Formed ArrowFreeKind p u) → us.length = items.length →
      SlotsLowerTo a fs ts fun vs => P (.list us :: vs)) :
    SlotsLowerTo a (f :: fs) (.list items :: ts) P := by
  obtain ⟨us, hus, hlen, hform⟩ := lowersTo_items h
  obtain ⟨vs, hvs, hP⟩ := hs hform hlen
  exact ⟨.list us :: vs, slots_cons (slot_items hf hus) hvs, hP⟩

end SlotsLowerTo

theorem lowersTo_plain (hk : k ≠ .identifier ∧ k ≠ .property ∧ k.isFunction = false)
    (h : SlotsLowerTo a k.layout slots fun us => Formed ArrowFreeKind p (.node i (.known k) us)) :
    ∃ u, LowersTo a p (.node i (.known k) slots) u := by
  obtain ⟨us, hus, hform⟩ := h
  exact ⟨_, apply_plain hk hus, nofun, hform⟩

theorem lowersTo_imp {q : Part} (h : ∃ u, LowersTo a p t u)
    (hpq : ∀ {u}, Formed ArrowFreeKind p u → Formed ArrowFreeKind q u) : ∃ u, LowersTo a q t u := by
  obtain ⟨u, hu⟩ := h
  exact ⟨u, hu.apply_eq, hu.not_list, hpq hu.formed⟩

theorem is_apply (hk : k.isFunction = false) (h : apply a t = (u, none)) (ht : t.is k) :
    u.is k := by
  obtain ⟨i, slots, rfl⟩ := is_iff.mp ht
  rcases apply_node_ok.mp h with hrename | ⟨-, slots', -, hleave⟩
  · obtain ⟨_, _, _, heq, -, rfl⟩ := rename?_eq_some hrename
    cases heq
    rfl
  · rw [leave_plain hk] at hleave
    cases hleave
    exact ht

theorem isTarget_apply (h : apply a t = (u, none)) (ht : IsTarget t) : IsTarget u :=
  ht.imp (is_apply rfl h) (is_apply rfl h)

theorem null_of_apply (h : apply a t = (.null, none)) : t = .null := by
  have hnode : t.isNode = false := (isNode_apply h).symm
  rw [apply_of_not_node hnode] at h
  exact (Prod.mk.inj h).1

/-! ## Identifiers and properties -/

theorem exists_apply_identifier (ha : a.Spelled) (i : Info) (x : Text) :
    ∃ j y, apply a (.node i (.known .identifier) [.text x]) =
        (.node j (.known .identifier) [.text y], none) ∧
      ((rename? a (.node i (.known .identifier) [.text x])).isSome ∧ Spells .ident y ∨
        (rename? a (.node i (.known .identifier) [.text x])).isSome = false ∧ y = x) := by
  cases hname : a.replacement? i.id with
  | some y =>
    have hrename : rename? a (.node i (.known .identifier) [.text x]) =
        some (.node ⟨.renamed i.id, i.location⟩ (.known .identifier) [.text y]) := by
      rw [rename?, hname]
      rfl
    exact ⟨_, y, apply_node_ok.mpr (.inl hrename), .inl ⟨by rw [hrename]; rfl, ha.replacement _ _ hname⟩⟩
  | none =>
    have hrename : rename? a (.node i (.known .identifier) [.text x]) = none := by
      rw [rename?, hname]
      rfl
    have hslots : applySlots a Kind.identifier.layout [.text x] = ([.text x], none) :=
      slots_cons (slot_attribute rfl _) rfl
    exact ⟨i, x, apply_node_ok.mpr (.inr ⟨hrename, _, hslots, leave_plain rfl⟩),
      .inr ⟨by rw [hrename]; rfl, rfl⟩⟩

theorem lowersTo_name (ha : a.Spelled) (i : Info) (hx : Spells .ident x) :
    ∃ u, LowersTo a .name (.node i (.known .identifier) [.text x]) u := by
  obtain ⟨j, y, hy, ⟨-, hspells⟩ | ⟨-, rfl⟩⟩ := exists_apply_identifier ha i x
  · exact ⟨_, hy, nofun, .name nofun hspells⟩
  · exact ⟨_, hy, nofun, .name nofun hx⟩

theorem lowersTo_word (ha : a.Spelled) (i : Info) (hx : SpellsOne propertyWords x) :
    ∃ u, LowersTo a .word (.node i (.known .identifier) [.text x]) u := by
  obtain ⟨j, y, hy, ⟨-, hspells⟩ | ⟨-, rfl⟩⟩ := exists_apply_identifier ha i x
  · exact ⟨_, hy, nofun, .word nofun ⟨.ident, by decide, hspells⟩⟩
  · exact ⟨_, hy, nofun, .word nofun hx⟩

theorem apply_property {key value key' value' : Tree} (hkey : applySlot a (.sub "key") key = (key', none))
    (hvalue : applySlot a (.sub "value") value = (value', none)) {computed kind : Tree} :
    apply a (.node i (.known .property) [key, value, computed, .bool false, kind]) =
      (.node i (.known .property) [key', value', computed, .bool false, kind], none) := by
  have hslots : applySlots a Kind.property.layout [key, value, computed, .bool false, kind] =
      ([key', value', computed, .bool false, kind], none) :=
    slots_cons hkey (slots_cons hvalue (slots_cons (slot_attribute rfl _)
      (slots_cons (slot_attribute rfl _) (slots_cons (slot_attribute rfl _) rfl))))
  exact apply_node_ok.mpr (.inr ⟨rfl, _, hslots, leave_plain rfl⟩)

/-- A property in short form keeps it unless its name is replaced. -/
theorem lowersTo_shorthand (ha : a.Spelled) {j k : Info} (hx : Spells .ident x) :
    ∃ u, LowersTo a .property (.node i (.known .property)
      [.node j (.known .identifier) [.text x], .node k (.known .identifier) [.text x],
       .bool false, .bool true, .text "init"]) u := by
  obtain ⟨j', y, hy, hyx⟩ := exists_apply_identifier ha j x
  obtain ⟨k', z, hz, hzx⟩ := exists_apply_identifier ha k x
  let before : List Tree :=
    [.node j (.known .identifier) [.text x], .node k (.known .identifier) [.text x],
     .bool false, .bool true, .text "init"]
  let after (short : Bool) : List Tree :=
    [.node j' (.known .identifier) [.text y], .node k' (.known .identifier) [.text z],
     .bool false, .bool short, .text "init"]
  have hslots : applySlots a Kind.property.layout before = (after true, none) :=
    slots_cons hy (slots_cons hz (slots_cons (slot_attribute rfl _)
      (slots_cons (slot_attribute rfl _) (slots_cons (slot_attribute rfl _) rfl))))
  have happly (slots : List Tree) (hwritten : writeOut a .property before (after true) = slots) :
      apply a (.node i (.known .property) before) = (.node i (.known .property) slots, none) := by
    refine apply_node_ok.mpr (.inr ⟨rfl, _, hslots, ?_⟩)
    rw [written, hwritten]
    exact leave_plain rfl
  cases hany : (before.take 2).any (holdsRenamed a) with
  | true =>
    have hys : Spells .ident y := hyx.elim And.right fun h => h.2 ▸ hx
    have hzs : Spells .ident z := hzx.elim And.right fun h => h.2 ▸ hx
    have hwritten : writeOut a .property before (after true) = after false :=
      if_pos (by rw [hany]; rfl)
    refine ⟨_, happly _ hwritten, nofun, .property nofun (.wordKey ?_) (.identifier ?_)⟩
    · exact .word nofun ⟨.ident, by decide, hys⟩
    · exact .name nofun hzs
  | false =>
    obtain ⟨hkey, hvalue⟩ := Bool.or_eq_false_iff.mp hany
    have hwritten : writeOut a .property before (after true) = after true :=
      if_neg (by rw [hany]; nofun)
    obtain ⟨h, -⟩ | ⟨-, rfl⟩ := hyx
    · cases hkey.symm.trans h
    obtain ⟨h, -⟩ | ⟨-, rfl⟩ := hzx
    · cases (Bool.or_eq_false_iff.mp hvalue).1.symm.trans h
    exact ⟨_, happly _ hwritten, nofun, .shorthand nofun nofun hx⟩

/-! ## Functions -/

theorem formed_binding (ha : a.Spelled) {id origin : NodeId} (hname : a.hoistedNames.get? id = some name) :
    Formed ArrowFreeKind .statement (bindingDeclaration origin name) := by
  have harguments : Spells .ident argumentsName := by decide
  refine .declarationStatement (.declaration nofun ⟨.var, by decide, by decide⟩ nofun ?_)
  refine forall_mem_singleton.mpr (.declarator nofun (.name nofun (ha.hoisted id name hname)) ?_)
  exact .present (.identifier (.name nofun harguments))

theorem leave_ordinary (ht : t.isOrdinaryFunction) (hname : a.hoistedNames.get? t.id = none) :
    leave a t = (t, none) := by
  have harrow : t.isArrow ≠ true := fun h => by simp [not_ordinary_of_isArrow h] at ht
  unfold leave
  rw [if_neg harrow, if_pos ht, hname]

theorem leave_hoisted (ht : t.isOrdinaryFunction) (hname : a.hoistedNames.get? t.id = some name)
    (hinsert : insertBinding t (bindingDeclaration t.id name) = .ok u) : leave a t = (u, none) := by
  have harrow : t.isArrow ≠ true := fun h => by simp [not_ordinary_of_isArrow h] at ht
  unfold leave
  rw [if_neg harrow, if_pos ht, hname]
  simp only [hinsert]

theorem leave_arrow (ht : t.isArrow) (h : lowerArrow t (a.capturesThis t.id) = .ok u) :
    leave a t = (u, none) := by
  unfold leave
  rw [if_pos ht, h]

theorem forall_mem_insertStatement {P : Tree → Prop} {d : Tree} {ss : List Tree} (hd : P d)
    (hss : ∀ t ∈ ss, P t) : ∀ t ∈ insertStatement d ss, P t := fun t ht => by
  rcases mem_insertStatement.mp ht with rfl | ht
  · exact hd
  · exact hss t ht

theorem apply_function (ha : a.Spelled) (hk : k = .functionDeclaration ∨ k = .functionExpression)
    {f f' : Tree} {ps' : List Tree} (hf : applySlot a (.sub "id") f = (f', none))
    (hps : applyItems a ps = (ps', none)) (hb : LowersTo a .block b b') :
    ∃ c, apply a (.node i (.known k) [f, .list ps, b]) = (.node i (.known k) [f', .list ps', c], none) ∧
      Formed ArrowFreeKind .block c := by
  have hslots : applySlots a k.layout [f, .list ps, b] = ([f', .list ps', b'], none) := by
    rcases hk with rfl | rfl <;> exact slots_cons hf (slots_cons (slot_items rfl hps) (slots_cons (hb.slot rfl) rfl))
  have hordinary (slots : List Tree) : (Tree.node i (.known k) slots).isOrdinaryFunction := by
    rcases hk with rfl | rfl <;> rfl
  have happly {u : Tree} (hleave : leave a (.node i (.known k) [f', .list ps', b']) = (u, none)) :
      apply a (.node i (.known k) [f, .list ps, b]) = (u, none) := by
    refine apply_node_ok.mpr (.inr ⟨?_, _, hslots, ?_⟩)
    · rcases hk with rfl | rfl <;> rfl
    · rw [written_of_ne (by rcases hk with rfl | rfl <;> nofun)]
      exact hleave
  cases hname : a.hoistedNames.get? i.id with
  | none => exact ⟨b', happly (leave_ordinary (hordinary _) hname), hb.formed⟩
  | some name =>
    cases hb.formed with
    | @block j ss _ hss =>
      let c : Tree :=
        .node j (.known .blockStatement) [.list (insertStatement (bindingDeclaration i.id name) ss)]
      have hinsert : insertBinding
          (.node i (.known k) [f', .list ps', .node j (.known .blockStatement) [.list ss]])
          (bindingDeclaration i.id name) = .ok (.node i (.known k) [f', .list ps', c]) := by
        rcases hk with rfl | rfl <;> rfl
      exact ⟨c, happly (leave_hoisted (hordinary _) hname hinsert),
        .block nofun (forall_mem_insertStatement (formed_binding ha hname) hss)⟩

/-! ## Arrows -/

theorem exists_node {K : Kind → Prop} (h : Formed K .block b ∨ Formed K .expression b) :
    ∃ i s slots, b = .node i s slots := by
  rcases h with h | h
  · cases h
    exact ⟨_, _, _, rfl⟩
  · cases h with
    | identifier h =>
      cases h
      exact ⟨_, _, _, rfl⟩
    | _ => exact ⟨_, _, _, rfl⟩

theorem formed_blockFor (origin : NodeId)
    (h : Formed ArrowFreeKind .block b ∨ Formed ArrowFreeKind .expression b) :
    Formed ArrowFreeKind .block (blockFor origin b) := by
  unfold blockFor
  rcases h with h | h
  · cases h with
    | block _ hss => exact .block nofun hss
  · rw [if_neg (by rw [h.not_statement.1]; nofun)]
    exact .block nofun (forall_mem_singleton.mpr (.returnStatement nofun (.present h)))

theorem formed_standIn (hps : ∀ p ∈ ps, Formed ArrowFreeKind .name p)
    (hb : Formed ArrowFreeKind .block b ∨ Formed ArrowFreeKind .expression b) :
    Formed ArrowFreeKind .expression (standIn a i (.list ps) b) := by
  have hfunction : Formed ArrowFreeKind .expression (functionFor i (.list ps) b) :=
    .function nofun .absent hps (formed_blockFor _ hb)
  unfold standIn
  split
  · have hbind : Formed ArrowFreeKind .word
        (made .bindNameOf i.id .identifier none [.text "bind"]) :=
      .word nofun ⟨.ident, by decide, by decide⟩
    exact .call nofun (.member nofun hfunction hbind) (forall_mem_singleton.mpr (.this nofun))
  · exact hfunction

theorem lowersTo_arrow {e : Bool} (hps : ∀ p ∈ ps, ∃ u, LowersTo a .name p u) (hb : LowersTo a p b b')
    (hp : p = .block ∨ p = .expression) :
    ∃ u, LowersTo a .expression
      (.node i (.known .arrowFunctionExpression) [.list ps, b, .bool e]) u := by
  obtain ⟨ps', hps, -, hform⟩ := lowersTo_items hps
  have hslots : applySlots a Kind.arrowFunctionExpression.layout [.list ps, b, .bool e] =
      ([.list ps', b', .bool e], none) :=
    slots_cons (slot_items rfl hps) (slots_cons (hb.slot rfl) (slots_cons (slot_attribute rfl _) rfl))
  have hbody : Formed ArrowFreeKind .block b' ∨ Formed ArrowFreeKind .expression b' := by
    rcases hp with rfl | rfl
    · exact .inl hb.formed
    · exact .inr hb.formed
  have hnormal : normalizeBody i.id b' = .ok (blockFor i.id b') := by
    obtain ⟨j, s, slots, rfl⟩ := exists_node hbody
    unfold normalizeBody blockFor
    split <;> rfl
  refine ⟨standIn a i (.list ps') b', apply_node_ok.mpr (.inr ⟨rfl, _, hslots, leave_arrow rfl ?_⟩),
    nofun, formed_standIn hform hbody⟩
  exact bind_ok.mpr ⟨_, rfl, bind_ok.mpr ⟨_, rfl, bind_ok.mpr ⟨_, hnormal, rfl⟩⟩⟩

end Lowering

namespace Formed

open Lowering

variable {K : Kind → Prop} {p : Part} {t : Tree} {a : Analysis}

theorem lowersTo (ha : a.Spelled) (h : Formed K p t) : ∃ u, LowersTo a p t u := by
  induction h with
  | absent => exact ⟨_, rfl, nofun, .absent⟩
  | present _ ih => exact lowersTo_imp ih .present
  | name _ hx => exact lowersTo_name ha _ hx
  | word _ hx => exact lowersTo_word ha _ hx
  | wordKey _ ih => exact lowersTo_imp ih .wordKey
  | literalKey _ hd => exact lowersTo_plain (by decide) (.kept rfl (.kept rfl (.nil (.literalKey nofun hd))))
  | identifier _ ih => exact lowersTo_imp ih .identifier
  | literal _ hd => exact lowersTo_plain (by decide) (.kept rfl (.kept rfl (.nil (.literal nofun hd))))
  | this _ => exact lowersTo_plain (by decide) (.nil (.this nofun))
  | array _ _ ihs => exact lowersTo_plain (by decide) (.list rfl ihs fun hs _ => .nil (.array nofun hs))
  | object _ _ ihs => exact lowersTo_plain (by decide) (.list rfl ihs fun hs _ => .nil (.object nofun hs))
  | property _ _ _ ihk ihv =>
    obtain ⟨_, hk⟩ := ihk
    obtain ⟨_, hv⟩ := ihv
    exact ⟨_, apply_property (hk.slot rfl) (hv.slot rfl), nofun, .property nofun hk.formed hv.formed⟩
  | shorthand _ _ hx => exact lowersTo_shorthand ha hx
  | function _ _ _ _ ihf ihp ihb =>
    obtain ⟨_, hf⟩ := ihf
    obtain ⟨_, hps, -, hform⟩ := lowersTo_items ihp
    obtain ⟨_, hb⟩ := ihb
    obtain ⟨c, hc, hblock⟩ := apply_function ha (.inr rfl) (hf.slot rfl) hps hb
    exact ⟨_, hc, nofun, .function nofun hf.formed hform hblock⟩
  | arrowBlock _ _ _ ihp ihb =>
    obtain ⟨_, hb⟩ := ihb
    exact lowersTo_arrow ihp hb (.inl rfl)
  | arrow _ _ _ ihp ihb =>
    obtain ⟨_, hb⟩ := ihb
    exact lowersTo_arrow ihp hb (.inr rfl)
  | unary _ hop _ ihe =>
    exact lowersTo_plain (by decide) (.kept rfl (.part rfl ihe fun he => .kept rfl (.nil (.unary nofun hop he))))
  | update _ hop _ ihe =>
    exact lowersTo_plain (by decide) (.kept rfl (.part rfl ihe fun he => .kept rfl (.nil (.update nofun hop he))))
  | binary _ hop _ _ ihl ihr =>
    exact lowersTo_plain (by decide)
      (.kept rfl (.part rfl ihl fun hl => .part rfl ihr fun hr => .nil (.binary nofun hop hl hr)))
  | logical _ hop _ _ ihl ihr =>
    exact lowersTo_plain (by decide)
      (.kept rfl (.part rfl ihl fun hl => .part rfl ihr fun hr => .nil (.logical nofun hop hl hr)))
  | assignment _ hop _ _ ihl ihr =>
    exact lowersTo_plain (by decide)
      (.kept rfl (.part rfl ihl fun hl => .part rfl ihr fun hr => .nil (.assignment nofun hop hl hr)))
  | conditional _ _ _ _ ihc ihx ihy =>
    exact lowersTo_plain (by decide)
      (.part rfl ihc fun hc => .part rfl ihx fun hx => .part rfl ihy fun hy => .nil (.conditional nofun hc hx hy))
  | call _ _ _ ihf ihs =>
    exact lowersTo_plain (by decide) (.part rfl ihf fun hf => .list rfl ihs fun hs _ => .nil (.call nofun hf hs))
  | new _ _ _ ihf ihs =>
    exact lowersTo_plain (by decide) (.part rfl ihf fun hf => .list rfl ihs fun hs _ => .nil (.new nofun hf hs))
  | member _ _ _ iho ihp =>
    exact lowersTo_plain (by decide)
      (.part rfl iho fun ho => .part rfl ihp fun hp => .kept rfl (.nil (.member nofun ho hp)))
  | computed _ _ _ iho ihp =>
    exact lowersTo_plain (by decide)
      (.part rfl iho fun ho => .part rfl ihp fun hp => .kept rfl (.nil (.computed nofun ho hp)))
  | sequence _ h2 _ ihs =>
    exact lowersTo_plain (by decide) (.list rfl ihs fun hs hlen => .nil (.sequence nofun (hlen ▸ h2) hs))
  | target _ htarget ih =>
    obtain ⟨u, hu⟩ := ih
    exact ⟨u, hu.apply_eq, hu.not_list, .target hu.formed (isTarget_apply hu.apply_eq htarget)⟩
  | declarator _ _ _ ihx ihe =>
    exact lowersTo_plain (by decide) (.part rfl ihx fun hx => .part rfl ihe fun he => .nil (.declarator nofun hx he))
  | declaration _ hkind hne _ ihs =>
    refine lowersTo_plain (by decide) (.list rfl ihs fun hs hlen => .kept rfl (.nil (.declaration nofun hkind ?_ hs)))
    rwa [← length_pos_iff, hlen, length_pos_iff]
  | block _ _ ihs => exact lowersTo_plain (by decide) (.list rfl ihs fun hs _ => .nil (.block nofun hs))
  | blockStatement _ ih => exact lowersTo_imp ih .blockStatement
  | declarationStatement _ ih => exact lowersTo_imp ih .declarationStatement
  | functionDeclaration _ _ _ _ ihf ihp ihb =>
    obtain ⟨_, hf⟩ := ihf
    obtain ⟨_, hps, -, hform⟩ := lowersTo_items ihp
    obtain ⟨_, hb⟩ := ihb
    obtain ⟨c, hc, hblock⟩ := apply_function ha (.inl rfl) (hf.slot rfl) hps hb
    exact ⟨_, hc, nofun, .functionDeclaration nofun hf.formed hform hblock⟩
  | emptyStatement _ => exact lowersTo_plain (by decide) (.nil (.emptyStatement nofun))
  | expressionStatement _ _ ihe =>
    exact lowersTo_plain (by decide) (.part rfl ihe fun he => .nil (.expressionStatement nofun he))
  | returnStatement _ _ ihe =>
    exact lowersTo_plain (by decide) (.part rfl ihe fun he => .nil (.returnStatement nofun he))
  | throwStatement _ _ ihe =>
    exact lowersTo_plain (by decide) (.part rfl ihe fun he => .nil (.throwStatement nofun he))
  | breakStatement _ => exact lowersTo_plain (by decide) (.nil (.breakStatement nofun))
  | continueStatement _ => exact lowersTo_plain (by decide) (.nil (.continueStatement nofun))
  | ifStatement _ _ _ _ ihc ihx ihy =>
    exact lowersTo_plain (by decide)
      (.part rfl ihc fun hc => .part rfl ihx fun hx => .part rfl ihy fun hy => .nil (.ifStatement nofun hc hx hy))
  | initialDeclaration _ ih => exact lowersTo_imp ih .initialDeclaration
  | initialExpression _ ih => exact lowersTo_imp ih .initialExpression
  | forStatement _ _ _ _ _ ihi ihc ihu ihb =>
    exact lowersTo_plain (by decide) (.part rfl ihi fun hi => .part rfl ihc fun hc => .part rfl ihu fun hu =>
      .part rfl ihb fun hb => .nil (.forStatement nofun hi hc hu hb))
  | @iteratedDeclaration i j _ _ _ _ hkind _ ihx =>
    obtain ⟨x, hx⟩ := ihx
    have hslots : applySlots a Kind.variableDeclarator.layout [_, .null] = ([x, .null], none) :=
      slots_cons (hx.slot rfl) (slots_cons rfl rfl)
    have hitems : applyItems a [.node j (.known .variableDeclarator) [_, .null]] =
        ([.node j (.known .variableDeclarator) [x, .null]], none) :=
      applyItems_cons_ok.mpr ⟨_, [], rfl, apply_plain (by decide) hslots, rfl⟩
    exact ⟨_, apply_plain (by decide) (slots_cons (slot_items rfl hitems)
      (slots_cons (slot_attribute rfl _) rfl)), nofun, .iteratedDeclaration nofun nofun hkind hx.formed⟩
  | iteratedTarget _ ih => exact lowersTo_imp ih .iteratedTarget
  | forInStatement _ _ _ _ ihl ihr ihb =>
    exact lowersTo_plain (by decide)
      (.part rfl ihl fun hl => .part rfl ihr fun hr => .part rfl ihb fun hb => .nil (.forInStatement nofun hl hr hb))
  | whileStatement _ _ _ ihc ihb =>
    exact lowersTo_plain (by decide)
      (.part rfl ihc fun hc => .part rfl ihb fun hb => .nil (.whileStatement nofun hc hb))
  | doWhileStatement _ _ _ ihb ihc =>
    exact lowersTo_plain (by decide)
      (.part rfl ihb fun hb => .part rfl ihc fun hc => .nil (.doWhileStatement nofun hb hc))
  | handler _ _ _ ihx ihb =>
    exact lowersTo_plain (by decide) (.part rfl ihx fun hx => .part rfl ihb fun hb => .nil (.handler nofun hx hb))
  | tryStatement _ _ _ _ hne ihb ihh ihf =>
    obtain ⟨_, hb⟩ := ihb
    obtain ⟨_, hh⟩ := ihh
    obtain ⟨_, hf⟩ := ihf
    refine ⟨_, apply_plain (by decide) (slots_cons (hb.slot rfl) (slots_cons (hh.slot rfl)
      (slots_cons (hf.slot rfl) rfl))), nofun,
      .tryStatement nofun hb.formed hh.formed hf.formed fun hnull => hne ?_⟩
    exact ⟨null_of_apply (hnull.1 ▸ hh.apply_eq), null_of_apply (hnull.2 ▸ hf.apply_eq)⟩
  | program _ _ ihs => exact lowersTo_plain (by decide) (.list rfl ihs fun hs _ => .nil (.program nofun hs))

/-- A proper program is lowered to a proper program without arrow functions. -/
theorem lowerable (h : Formed K .program t) (hd : t.Distinct) :
    ∃ scopes a u, ScopeTable.ofTree t = .ok scopes ∧ analyze scopes t = .ok a ∧
      apply a t = (u, none) ∧ Formed ArrowFreeKind .program u := by
  obtain ⟨scopes, hscopes⟩ := h.ofTree_ok
  obtain ⟨a, ha⟩ := h.analyze_ok hd hscopes
  obtain ⟨u, hu⟩ := h.lowersTo (spelled_of_analyze hd hscopes ha)
  exact ⟨scopes, a, u, hscopes, ha, hu.apply_eq, hu.formed⟩

end Formed

end ArrowFree
