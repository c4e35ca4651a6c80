import ArrowFree.Proofs.HiddenVariables
import ArrowFree.Proofs.Run

/-!
# Lowering twice

A tree without arrows is left as it is: none of its scopes belongs to an arrow, so that no variable named
`arguments` is hidden (`hiddenBindings_of_noArrow`) and the analysis is empty. Since a lowered tree holds
no arrow and has scopes again, lowering it once more changes nothing.
-/

namespace ArrowFree

open Lowering ArrowFree.Tree List

variable {id : NodeId} {scopes : ScopeTable}

/-! ## Scopes of a tree without arrows -/

namespace ScopeTable

/-- No scope of the table belongs to an arrow. -/
def NoArrow (t : ScopeTable) : Prop := ∀ s ∈ t.scopes, s.kind ≠ .arrow

theorem NoArrow.add {t : ScopeTable} (h : t.NoArrow) (current : Nat) {x : Addition}
    (hx : ∀ id type, x ≠ .scope .arrow id type) : (t.add current x).NoArrow := by
  cases x with
  | scope kind owner nodeType =>
    intro s hs
    obtain ⟨i, hi⟩ := mem_iff_getElem?.mp hs
    rcases getElem?_push_cases hi with ⟨-, rfl⟩ | ⟨s₀, children, hs₀, rfl⟩
    · rintro rfl
      exact hx owner nodeType rfl
    · exact h s₀ (mem_iff_getElem?.mpr ⟨i, hs₀⟩)
  | binding reach name type owner identifier =>
    intro s hs
    obtain ⟨i, hi⟩ := mem_iff_getElem?.mp hs
    rw [ScopeTable.add, getElem?_define] at hi
    obtain ⟨s₀, hs₀, rfl⟩ := Option.map_eq_some_iff.mp hi
    have hkind := h s₀ (mem_iff_getElem?.mpr ⟨i, hs₀⟩)
    split
    · exact hkind
    · exact hkind
  | reference identifier name => exact h

theorem isArrow_of_mem_added {p : Place} (hp : p.additions = .ok p.added) {type : Scalar}
    (h : .scope .arrow id type ∈ p.added) : p.node.isArrow := by
  cases ho : p.opens? with
  | none =>
    rcases Place.additions_leaf ho hp with heq | ⟨x, reach, heq, -, _, _, _, _, rfl⟩ | ⟨heq, -⟩
    · rw [heq] at h
      simp at h
    · rw [heq] at h
      simp at h
    · rw [heq] at h
      simp at h
  | some kind =>
    obtain ⟨outs, ins, heq, houts, hins⟩ := Place.additions_opening ho hp
    rw [heq, mem_append, mem_cons] at h
    rcases h with h | h | h
    · obtain ⟨_, _, _, _, h⟩ := houts _ h
      cases h
    · obtain ⟨rfl, -, -⟩ := Addition.scope.inj h
      rcases opens?_eq_some ho with ⟨harrow, -⟩ | ⟨-, h⟩ | h
      · exact harrow
      · cases h
      · cases h
    · obtain ⟨_, _, _, _, h⟩ := hins _ h
      cases h

theorem NoArrow.addAll {t : ScopeTable} (h : t.NoArrow) (current : Nat) {xs : List Addition}
    (hxs : ∀ id type, .scope .arrow id type ∉ xs) : (t.addAll current xs).NoArrow := by
  induction xs generalizing t with
  | nil => exact h
  | cons x xs ih =>
    refine ih (h.add current fun id type hx => hxs id type (hx ▸ mem_cons_self)) ?_
    exact fun id type hx => hxs id type (mem_cons_of_mem _ hx)

theorem NoArrow.enterAll {t : ScopeTable} (h : t.NoArrow) {ps : List Place}
    (hps : ∀ p ∈ ps, p.additions = .ok p.added ∧ p.node.isArrow = false) :
    (t.enterAll ps).NoArrow := by
  induction ps generalizing t with
  | nil => exact h
  | cons p ps ih =>
    obtain ⟨hadded, harrow⟩ := hps p mem_cons_self
    refine ih (h.addAll _ fun id type hx => ?_) fun q hq => hps q (mem_cons_of_mem _ hq)
    rw [isArrow_of_mem_added hadded hx] at harrow
    cases harrow

theorem noArrow_ofTree {t : Tree} (ht : t.NoArrow) (h : ofTree t = .ok scopes) : scopes.NoArrow := by
  obtain ⟨hadded, rfl⟩ := ofTree_ok.mp h
  refine NoArrow.enterAll ?_ fun p hp => ⟨hadded p hp, ht _ (node_mem_nodes hp)⟩
  intro s hs
  rw [mem_singleton.mp hs]
  nofun

end ScopeTable

namespace Lowering

variable {scopes : ScopeTable}
variable {t : Tree} {a : Analysis} {r : Resolution} {ts : List Tree}

/-! ## An empty analysis -/

theorem arrow_of_resolveFrom (hno : scopes.NoArrow) {i : Nat} (h : resolveFrom scopes i = .ok r) :
    r.arrow = none := by
  obtain ⟨pre, s, post, heq, -, -, -, harrow⟩ := resolveFrom_iff.mp h
  rw [harrow, firstArrow_eq_none]
  intro x hx
  exact hno _ (mem_iff_getElem?.mpr ⟨_, (ScopeTable.scope_of_split heq).2 x hx⟩)

/-- No group of references is marked as hidden. -/
def NoneHidden (groups : NodeMap Group) : Prop := ∀ e ∈ groups.entries, e.2.hidden = false

theorem mem_setEntry {α : Type} {v : α} {es : List (NodeId × α)} {e : NodeId × α}
    (h : e ∈ NodeMap.setEntry id v es) : e.2 = v ∨ e ∈ es := by
  induction es with
  | nil =>
    rw [NodeMap.setEntry, mem_singleton] at h
    exact Or.inl (h ▸ rfl)
  | cons e' es ih =>
    rw [NodeMap.setEntry] at h
    split at h
    · rcases mem_cons.mp h with rfl | h
      · exact Or.inl rfl
      · exact Or.inr (mem_cons_of_mem _ h)
    · rcases mem_cons.mp h with rfl | h
      · exact Or.inr mem_cons_self
      · rcases ih h with h | h
        · exact Or.inl h
        · exact Or.inr (mem_cons_of_mem _ h)

theorem NoneHidden.addReference {groups : NodeMap Group} (h : NoneHidden groups) (hno : scopes.NoArrow)
    (id : NodeId) (hr : r.arrow = none) : NoneHidden (addReference groups scopes id r) := by
  unfold Lowering.addReference
  split
  · rename_i b s hb hs
    split
    · exact h
    · intro e he
      rcases mem_setEntry he with heq | he
      · have hkind : redeclares s b = false := by
          have := hno s (mem_iff_getElem?.mpr ⟨_, hs⟩)
          simp [redeclares, this]
        have hg : ((groups.get? s.node).getD ⟨r.scope, b, [], false⟩).hidden = false := by
          cases hget : groups.get? s.node with
          | none => rfl
          | some g => exact h _ (NodeMap.mem_entries_of_get? hget)
        rw [heq]
        simp [hg, hr, hkind]
      · exact h e he
  · exact h

theorem hiddenBindings_of_noArrow (hr : scopes.Rooted) (hno : scopes.NoArrow) :
    hiddenBindings scopes = .ok [] := by
  have hfold : ∀ (refs : List Reference) (groups : NodeMap Group), NoneHidden groups →
      (∀ ref ∈ refs, ref.scope < scopes.scopes.length) →
      ∃ groups', NoneHidden groups' ∧ refs.foldlM (fun groups ref => do
        return addReference groups scopes ref.identifier (← resolveFrom scopes ref.scope)) groups =
          .ok groups' := by
    intro refs
    induction refs with
    | nil => exact fun groups h _ => ⟨groups, h, rfl⟩
    | cons ref refs ih =>
      intro groups h hrefs
      obtain ⟨r, hres⟩ := exists_resolveFrom hr (hrefs ref mem_cons_self)
      have hstep := h.addReference hno ref.identifier (arrow_of_resolveFrom hno hres)
      obtain ⟨groups', h', heq⟩ := ih _ hstep fun ref' h' => hrefs ref' (mem_cons_of_mem _ h')
      refine ⟨groups', h', ?_⟩
      rw [foldlM_cons, hres]
      exact heq
  obtain ⟨groups, hnone, hgroups⟩ := hfold (scopes.referencesTo argumentsName) {} (by simp [NoneHidden])
    fun ref href => hr.references ref (mem_of_mem_filter href)
  unfold hiddenBindings
  rw [hgroups]
  have hfilter : (groups.entries.filter fun e => e.2.hidden) = [] :=
    filter_eq_nil_iff.mpr fun e he => by simp [hnone e he]
  show Except.ok ((groups.entries.filter fun e => e.2.hidden).map _) = _
  rw [hfilter]
  rfl

theorem analyze_of_noArrow (ht : t.NoArrow) (h : ScopeTable.ofTree t = .ok scopes) : analyze scopes t = .ok {} := by
  have harrows : t.nodes.filter Tree.isArrow = [] :=
    filter_eq_nil_iff.mpr fun n hn => by simp [ht n hn]
  unfold analyze
  rw [harrows, hiddenBindings_of_noArrow (ScopeTable.rooted_ofTree h)
    (ScopeTable.noArrow_ofTree ht h)]
  rfl

/-! ## Lowering by an empty analysis -/

theorem applyItems_of_fixed (h : ∀ t ∈ ts, apply a t = (t, none)) : applyItems a ts = (ts, none) := by
  induction ts with
  | nil => rfl
  | cons t ts ih =>
    exact applyItems_cons_ok.mpr ⟨t, ts, rfl, h t mem_cons_self,
      ih fun u hu => h u (mem_cons_of_mem _ hu)⟩

theorem applySlot_of_fixed {f : Field} (h : ∀ o ∈ occurrencesOf f t, apply a o.tree = (o.tree, none)) :
    applySlot a f t = (t, none) := by
  unfold applySlot
  unfold occurrencesOf at h
  by_cases hf : f.child = true
  · rw [if_pos hf] at h ⊢
    cases t with
    | list items =>
      have hitems : applyItems a items = (items, none) := by
        refine applyItems_of_fixed ?_
        intro t ht
        obtain ⟨k, hk⟩ := exists_mem_itemsFrom f.name 0 ht
        exact h _ hk
      simp only [hitems]
    | scalar x => rfl
    | object fields => rfl
    | node i s slots => exact h _ mem_cons_self
  · rw [if_neg hf]

theorem applySlots_of_fixed {fs : List Field} (h : ∀ o ∈ occurrencesIn fs ts, apply a o.tree = (o.tree, none)) :
    applySlots a fs ts = (ts, none) := by
  induction fs generalizing ts with
  | nil => exact applySlots_nil ts
  | cons f fs ih =>
    cases ts with
    | nil => rfl
    | cons t ts =>
      rw [occurrencesIn_cons] at h
      exact applySlots_cons_ok.mpr ⟨t, ts, rfl,
        applySlot_of_fixed fun o ho => h o (mem_append_left _ ho),
        ih fun o ho => h o (mem_append_right _ ho)⟩

theorem rename?_empty (t : Tree) : rename? {} t = none := by
  unfold rename?
  split
  · rfl
  · rfl

theorem written_empty (s : Shape) (slots : List Tree) : written {} s slots slots = slots := by
  have hholds : ∀ t, holdsRenamed {} t = false := by
    intro t
    unfold holdsRenamed
    split
    · simp [rename?_empty]
    · simp [rename?_empty]
  cases s with
  | other type names => rfl
  | known k =>
    show writeOut {} k slots slots = slots
    unfold writeOut
    split
    · rw [if_neg (by simp [hholds])]
    · rfl

theorem apply_of_noArrow (ht : t.NoArrow) : apply {} t = (t, none) := by
  induction t using occurrence_induction with
  | h t ih =>
    rcases t.eq_node_or_not_node with ⟨i, s, slots, rfl⟩ | hvalue
    · obtain ⟨harrow, hocc⟩ := noArrow_node.mp ht
      refine apply_node_ok.mpr (Or.inr ⟨rename?_empty _, slots,
        applySlots_of_fixed fun o ho => ih o ho (hocc o ho), ?_⟩)
      rw [written_empty]
      unfold leave
      rw [if_neg (by simp [harrow])]
      split
      · rfl
      · rfl
    · exact apply_of_not_node hvalue

end Lowering

variable {t : Tree} {s : Session}

/-- A tree without arrows is lowered to itself. -/
theorem lowerable_of_noArrow (ht : t.NoArrow) (h : ScopeTable.ofTree t = .ok scopes) (strict : Bool) :
    Lowerable strict t scopes {} t where
  scopes_eq := h
  analysis_eq := analyze_of_noArrow ht h
  resolved _ := rfl
  apply_eq := apply_of_noArrow ht

/-- The run goes through, returns the tree as it is and reports nothing. -/
def Session.Leaves (s : Session) (t : Tree) : Prop :=
  (s.transform t).fault = none ∧ (s.transform t).tree = t ∧
    (s.transform t).session.report = s.report

theorem leaves_of_noArrow (ht : t.NoArrow) (hscopes : ∃ scopes, ScopeTable.ofTree t = .ok scopes)
    (hdump : s.dump = true → ∃ text, t.sexpr false true = .ok text) : s.Leaves t := by
  obtain ⟨scopes, h⟩ := hscopes
  exact transform_of_lowerable (fun hd => ⟨hdump hd, hdump hd⟩) (lowerable_of_noArrow ht h s.strict)

theorem sexpr_transform (h : (s.transform t).fault = none) (hdump : s.dump = true) :
    ∃ text, (s.transform t).tree.sexpr false true = .ok text := by
  have hlowered := (fault_transform s t).symm.trans h
  rw [(validated_ok hlowered).2.1]
  exact sexpr_lowered hlowered hdump

theorem scopes_of_transform (h : (s.transform t).fault = none) :
    ∃ scopes, ScopeTable.ofTree (s.transform t).tree = .ok scopes := by
  obtain ⟨scopes, a, hl⟩ := transform_ok h
  refine ⟨_, ScopeTable.ofTree_ok.mpr ⟨?_, rfl⟩⟩
  exact additions_of_apply hl.apply_eq (ScopeTable.ofTree_ok.mp hl.scopes_eq).1

/-- **Lowering twice is lowering once.** The tree that a run returns is left alone by every further
run, strict or not, and so is every tree with scopes and without arrows, whatever it calls
`arguments`. -/
theorem lowering_twice (s s' : Session) (t : Tree) :
    ((s.transform t).fault = none → (s'.dump = true → s.dump = true) →
      s'.Leaves (s.transform t).tree) ∧
    ((∀ n ∈ t.nodes, n.isArrow = false) → (∃ scopes, ScopeTable.ofTree t = .ok scopes) →
      (s'.dump = true → ∃ text, t.sexpr false true = .ok text) → s'.Leaves t) := by
  refine ⟨fun h hdump => ?_, leaves_of_noArrow⟩
  obtain ⟨scopes, a, hl⟩ := transform_ok h
  exact leaves_of_noArrow (noArrow_of_apply hl.apply_eq) (scopes_of_transform h)
    fun hd => sexpr_transform h (hdump hd)

/-- A function whose `arguments` are used by an arrow in it. -/
def argumentsKeeper : Tree :=
  (Tree.mk .functionExpression none [.null, .list [],
    .mk .blockStatement none [.list [.mk .returnStatement none
      [.mk .arrowFunctionExpression none
        [.list [], .identifier "arguments" none, .bool true]]]]]).numbered

/-- A block that declares a variable called `arguments` and uses it. -/
def argumentsBlock : Tree :=
  (Tree.mk .blockStatement none [.list
    [.mk .variableDeclaration none
      [.list [.mk .variableDeclarator none [.identifier "arguments" none, .null]], .text "let"],
     .mk .expressionStatement none [.identifier "arguments" none]]]).numbered

theorem lowering_twice_keeper : (Session.transform {} argumentsKeeper).fault = none ∧
      Session.Leaves { strict := true } (Session.transform {} argumentsKeeper).tree ∧
      (∀ n ∈ argumentsBlock.nodes, n.isArrow = false) ∧
      Session.Leaves { strict := true } argumentsBlock := by
  have hfault : (Session.transform {} argumentsKeeper).fault = none := by decide +kernel
  have hnone : ∀ n ∈ argumentsBlock.nodes, n.isArrow = false := by decide
  have hscopes : ∃ scopes, ScopeTable.ofTree argumentsBlock = .ok scopes := ⟨_, rfl⟩
  exact ⟨hfault, (lowering_twice {} { strict := true } argumentsKeeper).1 hfault nofun, hnone,
    (lowering_twice {} { strict := true } argumentsBlock).2 hnone hscopes nofun⟩

end ArrowFree
