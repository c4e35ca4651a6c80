import ArrowFree.Proofs.Counterparts

/-!
# What counterparts add to the scopes

The counterpart of a place adds what the place adds, with the new names of identifiers and with the
scope of a function in place of that of an arrow (`additions_counterpart`). A lowered tree therefore has
a table of scopes whenever the tree has one (`additions_of_apply`).
-/

namespace ArrowFree.Lowering

open ArrowFree.Tree List

variable {a : Analysis}
variable {t u v owner : Tree} {f : Field} {i : Info} {as : List Addition} {k : Kind} {p p' : Place}
  {ps slots' slots : List Tree} {π π' : Path} {name : Text} {reach : Reach} {type : BindingType}
  {d : Addition} {s : Shape} {kind : ScopeKind}

/-- The identity of an identifier after lowering. -/
def Analysis.newId (a : Analysis) (id : NodeId) : NodeId :=
  if (a.replacement? id).isSome then .renamed id else id

/-- The name of an identifier after lowering. -/
def Analysis.newName (a : Analysis) (id : NodeId) (name : Text) : Text :=
  (a.replacement? id).getD name

/-- An addition as the counterpart of the place makes it. -/
def lowered (a : Analysis) : Addition → Addition
  | .scope .arrow owner _ => .scope .function (.made .functionOf owner) (.text "FunctionExpression")
  | .scope kind owner nodeType => .scope kind owner nodeType
  | .binding reach name type owner identifier =>
    .binding reach (a.newName identifier name) type
      (if type = .parameter then a.newId owner else owner) (a.newId identifier)
  | .reference identifier name =>
    .reference (a.newId identifier) ((a.replacement? identifier).or name)

/-! ## Identifiers -/

theorem is_iff : t.is k ↔ ∃ i slots, t = .node i (.known k) slots := by
  constructor
  · intro h
    cases t with
    | node i s slots =>
      cases s with
      | known j =>
        obtain rfl : j = k := by simpa [Tree.is, kind?] using h
        exact ⟨i, slots, rfl⟩
      | other type names => simp [Tree.is, kind?] at h
    | scalar s | list items | object fields => simp [Tree.is, kind?] at h
  · rintro ⟨i, slots, rfl⟩
    simp [Tree.is, kind?]

theorem apply_identifier (h : apply a (.node i (.known .identifier) slots) = (u, none)) :
    (∃ name, a.replacement? i.id = some name ∧
      u = .node ⟨.renamed i.id, i.location⟩ (.known .identifier) [.text name]) ∨
    (a.replacement? i.id = none ∧ u = .node i (.known .identifier) slots) := by
  cases lowers_of_apply h with
  | value ht => cases ht
  | renamed hname => exact Or.inl ⟨_, hname, rfl⟩
  | hoisted hk => cases hk
  | @kept _ _ _ slots' hname harrow hfun hslots =>
    have hnone : a.replacement? i.id = none := by simpa [rename?] using hname
    refine Or.inr ⟨hnone, ?_⟩
    rw [written_of_ne (by decide)]
    cases slots with
    | nil =>
      cases hslots
      rfl
    | cons t ts =>
      obtain ⟨t', ts', rfl, ht, hts⟩ := applySlots_cons_ok.mp hslots
      obtain ⟨rfl, -⟩ := Prod.mk.inj (ht : (t, none) = _)
      rw [applySlots_nil] at hts
      cases hts
      rfl

theorem is_identifier_apply (h : apply a t = (u, none)) : u.is .identifier = t.is .identifier := by
  cases lowers_of_apply h with
  | value | renamed => rfl
  | @kept i s slots slots' hname harrow hfun hslots => exact is_node i i s _ _ _
  | arrow hparams hbody hnode =>
    unfold standIn
    split <;> rfl
  | @hoisted i ib k => exact is_node i i (.known k) _ _ _

theorem exists_field_of_slot? {fs : List Field} {ts : List Tree} (h : slot? name fs ts = some v) :
    ∃ f ∈ fs, f.name = name := by
  induction fs generalizing ts with
  | nil => simp [slot?] at h
  | cons f fs ih =>
    cases ts with
    | nil => simp [slot?] at h
    | cons t ts =>
      by_cases hf : f.name = name
      · exact ⟨f, mem_cons_self, hf⟩
      · rw [slot?, if_neg hf] at h
        obtain ⟨g, hg, hname⟩ := ih h
        exact ⟨g, mem_cons_of_mem _ hg, hname⟩

theorem declaredName_ok (h : t.declaredName = .ok name) :
    ∃ i rest, t = .node i (.known .identifier) (.text name :: rest) := by
  have honly : ∀ k ∈ Kind.all, ∀ f ∈ k.layout, f.name = "name" → k = .identifier := by
    decide
  unfold Tree.declaredName at h
  obtain ⟨v, hv, hname⟩ := bind_ok.mp h
  obtain ⟨i, k, slots, rfl, hslot⟩ := get_eq_ok hv
  obtain ⟨f, hf, hfname⟩ := exists_field_of_slot? hslot
  obtain rfl := honly k (Kind.mem_all k) f hf hfname
  cases slots with
  | nil => simp [slot?, Kind.layout] at hslot
  | cons t ts =>
    obtain rfl : t = v := Option.some.inj hslot
    refine ⟨i, ts, ?_⟩
    unfold ScopeTable.asName at hname
    split at hname
    · rw [Except.ok.inj hname]
      rfl
    · cases hname

theorem id_apply_identifier (ht : t.is .identifier) (h : apply a t = (u, none)) : u.id = a.newId t.id := by
  obtain ⟨i, slots, rfl⟩ := is_iff.mp ht
  unfold Analysis.newId
  rcases apply_identifier h with ⟨name, hname, rfl⟩ | ⟨hname, rfl⟩
  · show _ = if (a.replacement? i.id).isSome then _ else _
    rw [hname]
    rfl
  · show _ = if (a.replacement? i.id).isSome then _ else _
    rw [hname]
    rfl

theorem declaredName_apply (ht : t.declaredName = .ok name) (h : apply a t = (u, none)) :
    u.declaredName = .ok (a.newName t.id name) := by
  obtain ⟨i, rest, rfl⟩ := declaredName_ok ht
  unfold Analysis.newName
  rcases apply_identifier h with ⟨new, hnew, rfl⟩ | ⟨hnew, rfl⟩
  · show _ = Except.ok ((a.replacement? i.id).getD name)
    rw [hnew]
    rfl
  · show _ = Except.ok ((a.replacement? i.id).getD name)
    rw [hnew]
    rfl

theorem declares_apply {owner' : Tree} (hd : t.declares reach type owner = .ok d) (h : apply a t = (u, none))
    (hid : owner'.id = if type = .parameter then a.newId owner.id else owner.id) :
    u.declares reach type owner' = .ok (lowered a d) := by
  obtain ⟨name, hname, rfl⟩ := map_ok.mp hd
  obtain ⟨i, rest, rfl⟩ := declaredName_ok hname
  have hu := id_apply_identifier (is_iff.mpr ⟨_, _, rfl⟩) h
  unfold Tree.declares
  rw [declaredName_apply hname h, hu, hid]
  rfl

/-! ## Parameters -/

theorem parameterAdditions_items {ps' : List Tree} (h : Place.parameterAdditions ps = .ok as)
    (happly : applyItems a ps = (ps', none)) : Place.parameterAdditions ps' = .ok (as.map (lowered a)) := by
  induction ps generalizing ps' as with
  | nil =>
    cases happly
    cases h
    rfl
  | cons p ps ih =>
    obtain ⟨p', ps', rfl, hp, hps⟩ := applyItems_cons_ok.mp happly
    unfold Place.parameterAdditions at h ⊢
    obtain ⟨here, hhere, h⟩ := bind_ok.mp h
    obtain ⟨rest, hrest, h⟩ := bind_ok.mp h
    cases h
    refine bind_ok.mpr ⟨here.map (lowered a), ?_, bind_ok.mpr ⟨_, ih hrest hps, ?_⟩⟩
    · unfold Place.parameterAddition at hhere ⊢
      rw [is_identifier_apply hp]
      by_cases hident : p.is .identifier
      · rw [if_pos hident] at hhere ⊢
        obtain ⟨d, hd, rfl⟩ := map_ok.mp hhere
        rw [declares_apply hd hp (by rw [if_pos rfl]; exact id_apply_identifier hident hp)]
        rfl
      · rw [if_neg hident] at hhere ⊢
        cases hhere
        rfl
    · rw [map_append]
      rfl

theorem parameterAdditions_texts (h : ∀ p ∈ ps, p.is .identifier = false) : Place.parameterAdditions ps = .ok [] := by
  induction ps with
  | nil => rfl
  | cons p ps ih =>
    unfold Place.parameterAdditions Place.parameterAddition
    rw [if_neg (by simp [h p mem_cons_self]), ih fun q hq => h q (.tail _ hq)]
    rfl

theorem parameterAdditions_slot {v' : Tree} (hf : f.child) (happly : applySlot a f v = (v', none))
    (hiter : v.iterate = .ok ps) (h : Place.parameterAdditions ps = .ok as) :
    ∃ ps', v'.iterate = .ok ps' ∧ Place.parameterAdditions ps' = .ok (as.map (lowered a)) := by
  unfold applySlot at happly
  rw [if_pos hf] at happly
  have htexts : ∀ ts : List Text, ∀ p ∈ ts.map Tree.text, p.is .identifier = false := by
    intro ts p hp
    obtain ⟨t, -, rfl⟩ := mem_map.mp hp
    rfl
  cases v with
  | list items =>
    cases hiter
    obtain ⟨rfl, he⟩ := Prod.mk.inj happly
    exact ⟨_, rfl, parameterAdditions_items h (Prod.ext rfl he)⟩
  | node i s slots => cases hiter
  | object fields =>
    cases happly
    have hps : ps = (fields.map Prod.fst).map Tree.text := by
      rw [map_map]
      exact (Except.ok.inj hiter).symm
    refine ⟨ps, hiter, ?_⟩
    rw [hps, parameterAdditions_texts (htexts _)] at h ⊢
    cases h
    rfl
  | scalar x =>
    cases happly
    refine ⟨ps, hiter, ?_⟩
    cases x with
    | text t =>
      have hps : ps = (t.map ([·])).map Tree.text := by
        rw [map_map]
        exact (Except.ok.inj hiter).symm
      rw [hps, parameterAdditions_texts (htexts _)] at h ⊢
      cases h
      rfl
    | _ => cases hiter

/-! ## Attributes -/

theorem child_of_name (hf : f ∈ k.layout) (h : f.name = "id" ∨ f.name = "params" ∨ f.name = "param") : f.child := by
  have all : ∀ k ∈ Kind.all, ∀ f ∈ k.layout,
      f.name = "id" ∨ f.name = "params" ∨ f.name = "param" → f.child := by decide
  exact all k (Kind.mem_all k) f hf h

theorem not_child_of_name (hf : f ∈ k.layout) (h : f.name = "kind" ∨ f.name = "computed" ∨ f.name = "name") :
    f.child = false := by
  have all : ∀ k ∈ Kind.all, ∀ f ∈ k.layout,
      f.name = "kind" ∨ f.name = "computed" ∨ f.name = "name" → f.child = false := by decide
  exact all k (Kind.mem_all k) f hf h

theorem get_child (hslots : Agrees a k.layout slots slots')
    (hname : name = "id" ∨ name = "params" ∨ name = "param")
    (h : (Tree.node i (.known k) slots).get name = .ok v) :
    ∃ f v', f.child ∧ applySlot a f v = (v', none) ∧
      (Tree.node i (.known k) slots').get name = .ok v' := by
  obtain ⟨i', k', slots₀, heq, hslot⟩ := get_eq_ok h
  cases heq
  have hne : name ≠ "body" ∧ name ≠ "shorthand" := by
    rcases hname with rfl | rfl | rfl <;> exact ⟨by decide, by decide⟩
  have hslotted := hslots name hne.1 hne.2
  rw [hslot] at hslotted
  generalize hv' : slot? name k.layout slots' = w at hslotted
  cases hslotted with
  | @slot f _ v' hf hfname happly =>
    refine ⟨f, v', child_of_name hf (hfname ▸ hname), happly, ?_⟩
    have hattribute : (Tree.node i (.known k) slots').attribute? name = some v' := hv'
    rw [Tree.get, hattribute]

theorem attribute?_agrees (hslots : Agrees a s.fields slots slots')
    (hname : name = "kind" ∨ name = "computed" ∨ name = "name") :
    (Tree.node i s slots').attribute? name = (Tree.node i s slots).attribute? name := by
  cases s with
  | other type names => rfl
  | known k =>
    have hne : name ≠ "body" ∧ name ≠ "shorthand" := by
      rcases hname with rfl | rfl | rfl <;> exact ⟨by decide, by decide⟩
    have hslotted : Slotted a k.layout name _ _ := hslots name hne.1 hne.2
    show slot? name k.layout slots' = slot? name k.layout slots
    unfold Shape.fields at hslotted
    generalize slot? name k.layout slots' = v' at hslotted
    generalize slot? name k.layout slots = v at hslotted
    cases hslotted with
    | missing => rfl
    | slot hf hfname happly =>
      unfold applySlot at happly
      rw [if_neg (by simp [not_child_of_name hf (hfname ▸ hname)])] at happly
      cases happly
      rfl

/-! ## Nodes that declare -/

theorem applySlot_of_isNode (hf : f.child) (ht : t.isNode) : applySlot a f t = apply a t := by
  unfold applySlot
  rw [if_pos hf]
  cases t with
  | node i s slots => rfl
  | scalar | list | object => cases ht

theorem is_identifier_slot (h : applySlot a f t = (u, none)) : u.is .identifier = t.is .identifier := by
  unfold applySlot at h
  split at h
  · cases t with
    | list items => rw [← (Prod.mk.inj h).1]; rfl
    | node i s slots | scalar x | object fields => exact is_identifier_apply h
  · rw [(Prod.mk.inj h).1]

theorem declares_slot (owner' : Tree) (hd : t.declares reach type owner = .ok d) (hf : f.child)
    (h : applySlot a f t = (u, none))
    (hid : owner'.id = if type = .parameter then a.newId owner.id else owner.id) :
    u.declares reach type owner' = .ok (lowered a d) := by
  obtain ⟨name, hname, -⟩ := map_ok.mp hd
  obtain ⟨i, rest, rfl⟩ := declaredName_ok hname
  rw [applySlot_of_isNode hf rfl] at h
  exact declares_apply hd h hid

section Kept

variable {i : Info} {k : Kind} {slots slots' : List Tree} (hslots : Agrees a k.layout slots slots')
variable {as : List Addition}
include hslots

theorem outerName_kept (h : Place.outerName (.node i (.known k) slots) = .ok as) :
    Place.outerName (.node i (.known k) slots') = .ok (as.map (lowered a)) := by
  unfold Place.outerName at h ⊢
  rw [is_node i i _ slots' slots]
  by_cases hk : (Tree.node i (.known k) slots).is .functionDeclaration
  · rw [if_pos hk] at h ⊢
    obtain ⟨id, hid, h⟩ := bind_ok.mp h
    obtain ⟨d, hd, rfl⟩ := map_ok.mp h
    obtain ⟨f, id', hf, happly, hid'⟩ := get_child hslots (Or.inl rfl) hid
    exact bind_ok.mpr ⟨id', hid', map_ok.mpr ⟨_, declares_slot _ hd hf happly rfl, rfl⟩⟩
  · rw [if_neg hk] at h ⊢
    cases h
    rfl

theorem innerName_kept (h : Place.innerName (.node i (.known k) slots) = .ok as) :
    Place.innerName (.node i (.known k) slots') = .ok (as.map (lowered a)) := by
  unfold Place.innerName at h ⊢
  rw [is_node i i _ slots' slots]
  by_cases hk : (Tree.node i (.known k) slots).is .functionExpression
  · rw [if_pos hk] at h ⊢
    obtain ⟨id, hid, h⟩ := bind_ok.mp h
    obtain ⟨f, id', hf, happly, hid'⟩ := get_child hslots (Or.inl rfl) hid
    refine bind_ok.mpr ⟨id', hid', ?_⟩
    by_cases hnull : id.isNull
    · rw [if_pos hnull] at h
      cases h
      have hsame : id' = id := by
        cases id with
        | scalar x =>
          unfold applySlot at happly
          rw [if_pos hf] at happly
          exact (Prod.mk.inj happly).1.symm
        | _ => cases hnull
      rw [hsame, if_pos hnull]
      rfl
    · rw [if_neg hnull] at h
      obtain ⟨d, hd, rfl⟩ := map_ok.mp h
      have hd' := declares_slot (.node i (.known k) slots') hd hf happly rfl
      obtain ⟨name, hname, -⟩ := map_ok.mp hd'
      obtain ⟨i', rest, rfl⟩ := declaredName_ok hname
      rw [if_neg (by simp [isNull])]
      exact map_ok.mpr ⟨_, hd', rfl⟩
  · rw [if_neg hk] at h ⊢
    cases h
    rfl

theorem functionAdditions_kept (hkind : kind ≠ .arrow)
    (h : Place.functionAdditions kind (.node i (.known k) slots) = .ok as) :
    Place.functionAdditions kind (.node i (.known k) slots') = .ok (as.map (lowered a)) := by
  unfold Place.functionAdditions at h ⊢
  obtain ⟨outside, houtside, h⟩ := bind_ok.mp h
  obtain ⟨inside, hinside, h⟩ := bind_ok.mp h
  obtain ⟨v, hv, h⟩ := bind_ok.mp h
  obtain ⟨ps, hps, h⟩ := bind_ok.mp h
  obtain ⟨params, hparams, h⟩ := bind_ok.mp h
  cases h
  obtain ⟨f, v', hf, happly, hv'⟩ := get_child hslots (Or.inr (Or.inl rfl)) hv
  obtain ⟨ps', hps', hparams'⟩ := parameterAdditions_slot hf happly hps hparams
  refine bind_ok.mpr ⟨_, outerName_kept hslots houtside, bind_ok.mpr ⟨_, innerName_kept hslots hinside,
    bind_ok.mpr ⟨_, hv', bind_ok.mpr ⟨_, hps', bind_ok.mpr ⟨_, hparams', ?_⟩⟩⟩⟩⟩
  rw [map_append, map_cons, map_append]
  cases kind with
  | arrow => exact absurd rfl hkind
  | _ => rfl

theorem catchAdditions_kept (h : Place.catchAdditions (.node i (.known k) slots) = .ok as) :
    Place.catchAdditions (.node i (.known k) slots') = .ok (as.map (lowered a)) := by
  unfold Place.catchAdditions at h ⊢
  obtain ⟨param, hparam, h⟩ := bind_ok.mp h
  obtain ⟨f, param', hf, happly, hparam'⟩ := get_child hslots (Or.inr (Or.inr rfl)) hparam
  refine bind_ok.mpr ⟨param', hparam', ?_⟩
  rw [is_identifier_slot happly]
  by_cases hident : param.is .identifier
  · rw [if_pos hident] at h ⊢
    obtain ⟨d, hd, rfl⟩ := map_ok.mp h
    exact map_ok.mpr ⟨_, declares_slot _ hd hf happly rfl, rfl⟩
  · rw [if_neg hident] at h ⊢
    cases h
    rfl

end Kept

theorem functionAdditions_arrow {params body params' body' : Tree} {rest : List Tree}
    (hparams : applySlot a (.sub "params") params = (params', none)) (h : Place.functionAdditions .arrow
      (.node i (.known .arrowFunctionExpression) (params :: body :: rest)) = .ok as) :
    Place.functionAdditions .function (functionFor i params' body') = .ok (as.map (lowered a)) := by
  unfold Place.functionAdditions at h
  obtain ⟨outside, houtside, h⟩ := bind_ok.mp h
  obtain ⟨inside, hinside, h⟩ := bind_ok.mp h
  obtain ⟨v, hv, h⟩ := bind_ok.mp h
  obtain ⟨ps, hps, h⟩ := bind_ok.mp h
  obtain ⟨added, hadded, h⟩ := bind_ok.mp h
  cases h
  cases houtside
  cases hinside
  obtain rfl : params = v := Except.ok.inj hv
  obtain ⟨ps', hps', hadded'⟩ := parameterAdditions_slot rfl hparams hps hadded
  unfold Place.functionAdditions
  exact bind_ok.mpr ⟨[], rfl, bind_ok.mpr ⟨[], rfl, bind_ok.mpr ⟨params', rfl,
    bind_ok.mpr ⟨_, hps', bind_ok.mpr ⟨_, hadded', rfl⟩⟩⟩⟩⟩

/-! ## The slot of a place -/

/-- Whether an identifier is a reference is told by its slot, which lowering keeps. -/
theorem isReference_follows (t t' : Tree) (h : Follows a π π') :
    Place.isReference ⟨t', π'⟩ = Place.isReference ⟨t, π⟩ := by
  cases h with
  | root => rfl
  | @kept i s slots slots' field n n' π π' harrow hslots hbody h =>
    unfold Place.isReference Place.reference Place.parent? Place.field?
    simp only [head?_cons, Option.map_some]
    rw [is_node i i s slots' slots, is_node i i s slots' slots, is_node i i s slots' slots,
      is_node i i s slots' slots, isFunction_node i i s slots' slots,
      attribute?_agrees hslots (Or.inr (Or.inl rfl))]
  | parameter | block | concise => rfl

theorem get_kind_arrow : (Tree.node i (.known .arrowFunctionExpression) slots).get "kind" ≠ .ok v := by
  intro h
  obtain ⟨i', k, slots', heq, hslot⟩ := get_eq_ok h
  obtain rfl := Shape.known.inj (Tree.node.inj heq).2.1
  obtain ⟨f, hf, hname⟩ := exists_field_of_slot? hslot
  have hnone : ∀ f ∈ Kind.arrowFunctionExpression.layout, f.name ≠ "kind" := by decide
  exact hnone f hf hname

/-- The declaration around a declarator tells the scope, and stays. -/
theorem declaratorAdditions_follows {t' name name' : Tree} (h : Follows a π π') (hid : t'.id = t.id) (hf : f.child)
    (happly : applySlot a f name = (name', none)) (hadded : Place.declaratorAdditions ⟨t, π⟩ name = .ok as) :
    Place.declaratorAdditions ⟨t', π'⟩ name' = .ok (as.map (lowered a)) := by
  unfold Place.declaratorAdditions at hadded ⊢
  cases h with
  | root => cases hadded
  | @kept i s slots slots' field n n' π π' harrow hslots hbody h =>
    obtain ⟨kind, hkind, hadded⟩ := bind_ok.mp hadded
    have hkind' : (Tree.node i s slots').get "kind" = .ok kind := by
      rw [← hkind]
      unfold Tree.get
      rw [attribute?_agrees hslots (Or.inl rfl)]
    refine bind_ok.mpr ⟨kind, hkind', ?_⟩
    by_cases hvar : kind = .text "var"
    · rw [if_pos hvar] at hadded ⊢
      obtain ⟨d, hd, rfl⟩ := map_ok.mp hadded
      exact map_ok.mpr ⟨_, declares_slot _ hd hf happly hid, rfl⟩
    · rw [if_neg hvar] at hadded ⊢
      obtain ⟨d, hd, rfl⟩ := map_ok.mp hadded
      exact map_ok.mpr ⟨_, declares_slot _ hd hf happly hid, rfl⟩
  | parameter h | block hblock h | concise hblock h =>
    obtain ⟨kind, hkind, -⟩ := bind_ok.mp hadded
    exact absurd hkind get_kind_arrow

theorem opens?_kept
    (hbody : s = .known .blockStatement →
      Place.isOwnedBody ⟨.node i s slots', π'⟩ = Place.isOwnedBody ⟨.node i s slots, π⟩) :
    Place.opens? ⟨.node i s slots', π'⟩ = Place.opens? ⟨.node i s slots, π⟩ := by
  unfold Place.opens?
  simp only
  rw [isArrow_node i i s slots' slots, isOrdinaryFunction_node i i s slots' slots,
    is_node i i s slots' slots, is_node i i s slots' slots, is_node i i s slots' slots,
    is_node i i s slots' slots]
  by_cases hs : s = .known .blockStatement
  · rw [hbody hs]
  · have hno : (Tree.node i s slots).is .blockStatement = false := by
      cases s with
      | known k => simpa [Tree.is, kind?] using fun h => hs (congrArg Shape.known h)
      | other type names => rfl
    rw [hno, Bool.false_and, Bool.false_and]

/-- What a place opens tells its kind. -/
theorem opens?_eq_some (h : p.opens? = some kind) :
    (p.node.isArrow ∧ kind = .arrow) ∨ (p.node.isOrdinaryFunction ∧ kind = .function) ∨
      kind = .block := by
  unfold Place.opens? at h
  split at h
  · exact Or.inl ⟨by assumption, (Option.some.inj h).symm⟩
  split at h
  · exact Or.inr (Or.inl ⟨by assumption, (Option.some.inj h).symm⟩)
  split at h
  · exact Or.inr (Or.inr (Option.some.inj h).symm)
  split at h
  · exact Or.inr (Or.inr (Option.some.inj h).symm)
  · cases h

theorem opens?_of_ordinary (h : t.isOrdinaryFunction) (π : Path) : Place.opens? ⟨t, π⟩ = some .function := by
  unfold Place.opens?
  rw [if_neg, if_pos h]
  intro harrow
  rw [not_ordinary_of_isArrow harrow] at h
  cases h

theorem additions_identifier (i : Info) (slots : List Tree) (π : Path) :
    Place.additions ⟨.node i (.known .identifier) slots, π⟩ =
      .ok (if Place.isReference ⟨.node i (.known .identifier) slots, π⟩ then
        [.reference i.id (Tree.node i (.known .identifier) slots).name?] else []) := by
  have hid : (Tree.node i (.known .identifier) slots).attribute? "id" = none := by
    cases slots with
    | nil => rfl
    | cons t ts => cases ts <;> rfl
  unfold Place.additions
  rw [show Place.opens? ⟨.node i (.known .identifier) slots, π⟩ = none from rfl]
  simp only [hid]
  cases Place.isReference ⟨.node i (.known .identifier) slots, π⟩ <;> rfl

/-- Identifiers and declarators apart, a place that opens no scope adds nothing. -/
theorem additions_of_not_opens (h : p.opens? = none) (hdeclarator : p.node.is .variableDeclarator = false)
    (hidentifier : p.node.is .identifier = false) : p.additions = .ok [] := by
  unfold Place.additions
  rw [h, hdeclarator, hidentifier]
  simp only [Bool.false_and]
  split <;> rfl

theorem additions_declarator {i : Info} {π : Path} :
    Place.additions ⟨.node i (.known .variableDeclarator) slots, π⟩ =
      match slot? "id" Kind.variableDeclarator.layout slots with
      | some name =>
        if name.is .identifier then
          Place.declaratorAdditions ⟨.node i (.known .variableDeclarator) slots, π⟩ name
        else .ok []
      | none => .ok [] := by
  unfold Place.additions
  rw [show Place.opens? ⟨.node i (.known .variableDeclarator) slots, π⟩ = none from rfl]
  rfl

section Kept

variable {i : Info} {s : Shape} {slots slots' : List Tree} {π π' : Path} {as : List Addition}

theorem additions_opening_kept (harrow : (Tree.node i s slots).isArrow = false)
    (hslots : Agrees a s.fields slots slots') (hopens : Place.opens? ⟨.node i s slots, π⟩ = some kind)
    (hopens' : Place.opens? ⟨.node i s slots', π'⟩ = some kind)
    (hp : Place.additions ⟨.node i s slots, π⟩ = .ok as) :
    Place.additions ⟨.node i s slots', π'⟩ = .ok (as.map (lowered a)) := by
  unfold Place.additions at hp ⊢
  rw [hopens] at hp
  rw [hopens']
  rcases opens?_eq_some hopens with ⟨h, -⟩ | ⟨hfun, rfl⟩ | rfl
  · rw [harrow] at h
    cases h
  · rcases kind_of_isOrdinaryFunction hfun with rfl | rfl
    · exact functionAdditions_kept hslots (by decide) hp
    · exact functionAdditions_kept hslots (by decide) hp
  · simp only at hp ⊢
    rw [is_node i i s slots' slots]
    by_cases hcatch : (Tree.node i s slots).is .catchClause
    · rw [if_pos hcatch] at hp ⊢
      obtain ⟨_, _, heq⟩ := is_iff.mp hcatch
      obtain rfl := (Tree.node.inj heq).2.1
      exact catchAdditions_kept hslots hp
    · rw [if_neg hcatch] at hp ⊢
      rw [← Except.ok.inj hp]
      rfl

theorem additions_declarator_kept
    (hslots : Agrees a Kind.variableDeclarator.layout slots slots') (hf : Follows a π π')
    (hp : Place.additions ⟨.node i (.known .variableDeclarator) slots, π⟩ = .ok as) :
    Place.additions ⟨.node i (.known .variableDeclarator) slots', π'⟩ =
      .ok (as.map (lowered a)) := by
  rw [additions_declarator] at hp ⊢
  have hslotted := hslots "id" (by decide) (by decide)
  generalize slot? "id" Kind.variableDeclarator.layout slots = v at hp hslotted
  generalize slot? "id" Kind.variableDeclarator.layout slots' = v' at hslotted ⊢
  cases hslotted with
  | missing =>
    rw [← Except.ok.inj hp]
    rfl
  | @slot f name name' hmem hname happly =>
    simp only at hp ⊢
    rw [is_identifier_slot happly]
    by_cases hident : name.is .identifier
    · rw [if_pos hident] at hp ⊢
      exact declaratorAdditions_follows hf rfl (child_of_name hmem (Or.inl hname)) happly hp
    · rw [if_neg hident] at hp ⊢
      rw [← Except.ok.inj hp]
      rfl

theorem name?_kept (hslots : Agrees a Kind.identifier.layout slots slots') :
    (Tree.node i (.known .identifier) slots').name? =
      (Tree.node i (.known .identifier) slots).name? := by
  unfold Tree.name?
  rw [attribute?_agrees hslots (Or.inr (Or.inr rfl))]
  rfl

theorem additions_identifier_kept (hname : rename? a (.node i (.known .identifier) slots) = none)
    (hslots : Agrees a Kind.identifier.layout slots slots') (hf : Follows a π π')
    (hp : Place.additions ⟨.node i (.known .identifier) slots, π⟩ = .ok as) :
    Place.additions ⟨.node i (.known .identifier) slots', π'⟩ = .ok (as.map (lowered a)) := by
  have hnone : a.replacement? i.id = none := by simpa [rename?] using hname
  rw [additions_identifier] at hp ⊢
  rw [← Except.ok.inj hp, isReference_follows (.node i (.known .identifier) slots) _ hf,
    name?_kept hslots]
  split
  · simp only [map_cons, map_nil, lowered, Analysis.newId, hnone]
    rfl
  · rfl

end Kept

/-- **Additions of counterparts.** They are those of the places, under the new names. -/
theorem additions_counterpart (h : Counterpart a p p') (hp : p.additions = .ok as) :
    p'.additions = .ok (as.map (lowered a)) := by
  cases h with
  | @renamed i slots name π π' hname hf =>
    rw [additions_identifier] at hp ⊢
    rw [← Except.ok.inj hp, isReference_follows (.node i (.known .identifier) slots) _ hf]
    split
    · simp only [map_cons, map_nil, lowered, Analysis.newId, hname]
      rfl
    · rfl
  | @kept i s slots slots' π π' hname harrow hslots hbody hf =>
    have hopens' := opens?_kept hbody
    cases hopens : Place.opens? ⟨.node i s slots, π⟩ with
    | some kind => exact additions_opening_kept harrow hslots hopens (hopens'.trans hopens) hp
    | none =>
      rw [hopens] at hopens'
      by_cases hdeclarator : (Tree.node i s slots).is .variableDeclarator
      · obtain ⟨_, _, heq⟩ := is_iff.mp hdeclarator
        obtain rfl := (Tree.node.inj heq).2.1
        exact additions_declarator_kept hslots hf hp
      by_cases hidentifier : (Tree.node i s slots).is .identifier
      · obtain ⟨_, _, heq⟩ := is_iff.mp hidentifier
        obtain rfl := (Tree.node.inj heq).2.1
        exact additions_identifier_kept hname hslots hf hp
      rw [Bool.not_eq_true] at hdeclarator hidentifier
      rw [additions_of_not_opens hopens hdeclarator hidentifier] at hp
      rw [is_node i i s slots slots'] at hdeclarator hidentifier
      rw [additions_of_not_opens hopens' hdeclarator hidentifier, ← Except.ok.inj hp]
      rfl
  | @arrow i params body params' body' rest π π' hparams hbody hnode hf =>
    exact functionAdditions_arrow hparams hp

theorem identifier_counterpart (h : Counterpart a p p') (hp : p.node.is .identifier) :
    p'.node.id = a.newId p.node.id ∧
      p'.node.name? = (a.replacement? p.node.id).or p.node.name? := by
  cases h with
  | @renamed i slots name π π' hname hf =>
    show NodeId.renamed i.id = a.newId i.id ∧ some name = (a.replacement? i.id).or _
    unfold Analysis.newId
    rw [hname]
    exact ⟨rfl, rfl⟩
  | @kept i s slots slots' π π' hname harrow hslots hbody hf =>
    obtain ⟨_, _, heq⟩ := is_iff.mp hp
    obtain rfl := (Tree.node.inj heq).2.1
    have hnone : a.replacement? i.id = none := by simpa [rename?] using hname
    show i.id = a.newId i.id ∧ _ = (a.replacement? i.id).or _
    unfold Analysis.newId
    rw [hnone]
    exact ⟨rfl, name?_kept hslots⟩
  | arrow hparams hbody hnode hf => cases hp

/-! ## Lowered trees -/

/-- The declarator in `var name = arguments;` -/
def bindingDeclarator (origin : NodeId) (name : Text) : Tree :=
  made .declaratorOf origin .variableDeclarator none
    [made .bindingNameOf origin .identifier none [.text name],
     made .bindingValueOf origin .identifier none [.text argumentsName]]

/-- The path to that declarator. -/
def declaratorPath (function body : Tree) (n : Nat) (name : Text) (π : Path) : Path :=
  ⟨bindingDeclaration function.id name, "declarations", some 0⟩ :: ⟨body, "body", some n⟩ ::
    ⟨function, "body", none⟩ :: π

/-- A declaration adds its name as a variable and its value as a reference to `arguments`. -/
theorem hoistPlaces_eq (function body : Tree) (n : Nat) (name : Text) (π : Path) :
    ∃ p q r s, hoistPlaces function body n name π = [p, q, r, s] ∧
      p.additions = .ok [] ∧ q.path = declaratorPath function body n name π ∧
      q.additions = .ok [.binding .variable name .variable (.made .declaratorOf function.id)
        (.made .bindingNameOf function.id)] ∧
      r.additions = .ok [] ∧
      s.path = ⟨bindingDeclarator function.id name, "init", none⟩ ::
        declaratorPath function body n name π ∧
      s.additions = .ok [.reference (.made .bindingValueOf function.id) (some argumentsName)] :=
  ⟨_, _, _, _, rfl, rfl, rfl, rfl, rfl, rfl, rfl⟩

theorem additions_of_apply (h : apply a t = (u, none)) (ht : ∀ p ∈ t.places, p.additions = .ok p.added) :
    ∀ p' ∈ u.places, p'.additions = .ok p'.added := by
  intro p' hp'
  have hok : ∃ as, p'.additions = .ok as := by
    obtain ⟨fs, hm, -⟩ := matches_of_apply h
    rcases hm.mem_right hp' with ⟨p, hp, hc⟩ | hinert | ⟨function, body, n, name, π, hmade⟩
    · exact ⟨_, additions_counterpart hc (ht p hp)⟩
    · exact ⟨[], hinert⟩
    · obtain ⟨p, q, r, s, heq, hp, -, hq, hr, -, hs⟩ := hoistPlaces_eq function body n name π
      rw [heq] at hmade
      simp only [mem_cons, not_mem_nil, or_false] at hmade
      rcases hmade with rfl | rfl | rfl | rfl
      · exact ⟨_, hp⟩
      · exact ⟨_, hq⟩
      · exact ⟨_, hr⟩
      · exact ⟨_, hs⟩
  obtain ⟨as, has⟩ := hok
  rw [Place.added, has]
  rfl

end ArrowFree.Lowering
