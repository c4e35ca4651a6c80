import ArrowFree.Proofs.NodesKept

/-!
# One variable for the arguments of a function

A function keeps its arguments in a variable if an arrow carries a reference to them. The declaration stands
behind the directives that the statements of the function begin with, once, and the references that are
carried get the name of the variable (`arguments_kept_once`). Without such a reference the statements are
lowered one by one.
-/

namespace ArrowFree

open ArrowFree.Tree Lowering List

variable {name : Text} {p : Place} {n : Tree}

/-- The statements in the body of a function. -/
def Tree.statements? (function : Tree) : Option (List Tree) :=
  match (function.attribute? "body").bind (·.attribute? "body") with
  | some (.list statements) => some statements
  | _ => none

namespace Lowering

variable {a : Analysis}
variable {t u v m : Tree} {ts us ss slots slots' : List Tree} {f : Field} {i : Info} {k : Kind}

/-! ## Directives -/

theorem applySlots_attributes {fs : List Field} (hfs : ∀ f ∈ fs, f.child = false)
    (h : applySlots a fs ts = (us, none)) : us = ts := by
  induction fs generalizing ts us with
  | nil =>
    rw [applySlots_nil] at h
    exact (Prod.mk.inj h).1.symm
  | cons f fs ih =>
    cases ts with
    | nil => exact (Prod.mk.inj h).1.symm
    | cons t ts =>
      obtain ⟨u, us, rfl, hu, hus⟩ := applySlots_cons_ok.mp h
      unfold applySlot at hu
      rw [if_neg (by simp [hfs f mem_cons_self])] at hu
      rw [(Prod.mk.inj hu).1, ih (fun g hg => hfs g (.tail _ hg)) hus]

/-- A string. -/
def isString : Tree → Bool
  | .node _ (.known .literal) (.scalar (.text _) :: _) => true
  | _ => false

theorem isString_of_not_literal (h : t.is .literal = false) : isString t = false := by
  unfold isString
  split
  · cases h
  · rfl

theorem apply_literal (h : apply a (.node i (.known .literal) slots) = (u, none)) :
    u = .node i (.known .literal) slots := by
  cases lowers_of_apply h with
  | value hvalue => cases hvalue
  | kept hname harrow hfun hslots => rw [written_of_ne (by decide), applySlots_attributes (by decide) hslots]
  | hoisted hk => cases hk

theorem isString_apply (h : apply a t = (u, none)) : isString u = isString t := by
  cases hliteral : t.is .literal with
  | true =>
    obtain ⟨i, slots, rfl⟩ := is_iff.mp hliteral
    rw [apply_literal h]
  | false =>
    have hliteral' := (is_apply_eq h (by decide)).trans hliteral
    rw [isString_of_not_literal hliteral, isString_of_not_literal hliteral']

theorem isString_applySlot (h : applySlot a f t = (u, none)) : isString u = isString t := by
  unfold applySlot at h
  split at h
  · cases t with
    | list items => obtain ⟨rfl, -⟩ := Prod.mk.inj h; rfl
    | _ => exact isString_apply h
  · rw [(Prod.mk.inj h).1]

theorem isDirective_statement (i : Info) (t : Tree) (rest : List Tree) :
    isDirective (.node i (.known .expressionStatement) (t :: rest)) = (rest.isEmpty && isString t) := by
  unfold isDirective
  split
  · rename_i heq
    obtain ⟨rfl, rfl⟩ := cons.inj (Tree.node.inj heq).2.2
    rfl
  · rename_i hno
    cases rest with
    | cons r rest => rfl
    | nil =>
      unfold isString
      split
      · exact absurd rfl (hno _ _ _ _)
      · rfl

theorem isDirective_of_not_statement (h : t.is .expressionStatement = false) : isDirective t = false := by
  unfold isDirective
  split
  · cases h
  · rfl

theorem isDirective_apply (h : apply a t = (u, none)) : isDirective u = isDirective t := by
  cases hstatement : t.is .expressionStatement with
  | false =>
    have hstatement' := (is_apply_eq h (by decide)).trans hstatement
    rw [isDirective_of_not_statement hstatement, isDirective_of_not_statement hstatement']
  | true =>
    obtain ⟨i, slots, rfl⟩ := is_iff.mp hstatement
    cases lowers_of_apply h with
    | value hvalue => cases hvalue
    | kept hname harrow hfun hslots =>
      rw [written_of_ne (by decide)]
      match slots with
      | [] =>
        cases hslots
        rfl
      | e :: rest =>
        obtain ⟨e', _, rfl, he, hrest⟩ := applySlots_cons_ok.mp hslots
        rw [applySlots_nil] at hrest
        cases hrest
        rw [isDirective_statement, isDirective_statement, isString_applySlot he]
    | hoisted hk => cases hk

/-! ## Statements -/

/-- Trees that are lowered one by one. -/
def LoweredEach (a : Analysis) (ts us : List Tree) : Prop :=
  List.Forall₂ (fun t u => apply a t = (u, none)) ts us

theorem loweredEach_of_applyItems (h : applyItems a ts = (us, none)) : LoweredEach a ts us := by
  induction ts generalizing us with
  | nil =>
    cases h
    exact .nil
  | cons t ts ih =>
    obtain ⟨u, us, rfl, hu, hus⟩ := applyItems_cons_ok.mp h
    exact .cons hu (ih hus)

theorem length_directives (h : LoweredEach a ts us) :
    (us.takeWhile isDirective).length = (ts.takeWhile isDirective).length := by
  induction h with
  | nil => rfl
  | @cons t u ts us htu _ ih =>
    rw [takeWhile_cons, takeWhile_cons, isDirective_apply htu]
    split
    · rw [length_cons, length_cons, ih]
    · rfl

/-- The directives to insert a statement behind are those that were there before. -/
theorem insertStatement_lowered (h : LoweredEach a ts us) (d : Tree) :
    insertStatement d us = us.take (ts.takeWhile isDirective).length ++
      d :: us.drop (ts.takeWhile isDirective).length := by
  have htake : (us.takeWhile isDirective ++ us.dropWhile isDirective).take (ts.takeWhile isDirective).length =
      us.takeWhile isDirective := take_left' (length_directives h)
  have hdrop : (us.takeWhile isDirective ++ us.dropWhile isDirective).drop (ts.takeWhile isDirective).length =
      us.dropWhile isDirective := drop_left' (length_directives h)
  rw [takeWhile_append_dropWhile] at htake hdrop
  rw [htake, hdrop, insertStatement]

theorem loweredEach_of_list (hf : f.child) (h : applySlot a f (.list ts) = (u, none)) :
    ∃ us, u = .list us ∧ LoweredEach a ts us := by
  unfold applySlot at h
  rw [if_pos hf] at h
  obtain ⟨rfl, hnone⟩ := Prod.mk.inj h
  exact ⟨_, rfl, loweredEach_of_applyItems (Prod.ext rfl hnone)⟩

theorem loweredEach_to_list (hf : f.child) (h : applySlot a f t = (.list us, none)) :
    ∃ ts, t = .list ts ∧ LoweredEach a ts us := by
  cases t with
  | list ts =>
    obtain ⟨us', heq, heach⟩ := loweredEach_of_list hf h
    cases heq
    exact ⟨ts, rfl, heach⟩
  | node i s slots =>
    unfold applySlot at h
    rw [if_pos hf] at h
    cases isNode_apply h
  | _ =>
    unfold applySlot at h
    rw [if_pos hf] at h
    cases h

theorem isNode_of_attribute? (h : t.attribute? name = some v) : t.isNode := by
  cases t with
  | node => rfl
  | _ => cases h

theorem statements?_eq_some :
    t.statements? = some ss ↔ ∃ b, t.attribute? "body" = some b ∧ b.attribute? "body" = some (.list ss) := by
  unfold statements?
  cases hb : t.attribute? "body" with
  | none => simp
  | some b =>
    cases hss : b.attribute? "body" with
    | none => simp [hss]
    | some v => cases v <;> simp [hss]

theorem attribute?_function (i : Info) (hk : k.isOrdinaryFunction) (id params body : Tree) (rest : List Tree) :
    (Tree.node i (.known k) (id :: params :: body :: rest)).attribute? "body" = some body := by
  show slot? "body" k.layout _ = _
  rw [layout_of_isOrdinaryFunction hk]
  rfl

theorem slotted_body (i : Info) (hslots : applySlots a k.layout slots = (slots', none)) :
    Slotted a k.layout "body" ((Tree.node i (.known k) slots).attribute? "body")
      ((Tree.node i (.known k) (written a (.known k) slots slots')).attribute? "body") := by
  have hwritten : slot? "body" k.layout (written a (.known k) slots slots') = slot? "body" k.layout slots' :=
    slot?_written_of_ne (by decide) (.known k) slots slots'
  show Slotted a k.layout "body" _ (slot? "body" k.layout (written a (.known k) slots slots'))
  rw [hwritten]
  exact slotted_applySlots hslots "body"

theorem applySlot_body {s : Shape} (hslots : applySlots a s.fields slots = (slots', none))
    (h : (Tree.node i s slots).attribute? "body" = some v) :
    ∃ f v', f.child ∧ applySlot a f v = (v', none) ∧
      (Tree.node i s (written a s slots slots')).attribute? "body" = some v' := by
  cases s with
  | other => cases h
  | known k =>
    have hslotted := slotted_body i hslots
    rw [h] at hslotted
    generalize (Tree.node i (.known k) (written a (.known k) slots slots')).attribute? "body" = w at hslotted ⊢
    cases hslotted with
    | @slot f _ v' hf hname happly => exact ⟨f, v', child_of_body hf hname, happly, rfl⟩

theorem loweredEach_body (h : apply a t = (u, none)) (hss : t.attribute? "body" = some (.list ss)) :
    ∃ ss', u.attribute? "body" = some (.list ss') ∧ LoweredEach a ss ss' := by
  cases lowers_of_apply h with
  | value hvalue => cases hvalue.symm.trans (isNode_of_attribute? hss)
  | @renamed i slots name hname => cases slots <;> cases hss
  | kept hname harrow hfun hslots =>
    obtain ⟨f, v', hf, hv', hbody⟩ := applySlot_body hslots hss
    obtain ⟨ss', rfl, heach⟩ := loweredEach_of_list hf hv'
    exact ⟨ss', hbody, heach⟩
  -- the body of an arrow is a node, and so is that of a function with a variable
  | arrow hparams hbody hnode =>
    cases hss
    rw [isNode_apply hbody] at hnode
    cases hnode
  | @hoisted i ib k kb id params id' params' name bslots bslots' rest ss hk =>
    rw [attribute?_function i hk] at hss
    cases hss

section

variable {t u : Tree} (h : apply a t = (u, none)) (hfun : t.isOrdinaryFunction)
include h hfun

theorem statements_kept {ss : List Tree} (hname : a.hoistedNames.get? t.id = none)
    (hss : t.statements? = some ss) : ∃ ss', u.statements? = some ss' ∧ LoweredEach a ss ss' := by
  obtain ⟨b, hb, hitems⟩ := statements?_eq_some.mp hss
  cases lowers_of_apply h with
  | value hvalue => cases hvalue.symm.trans (isNode_of_attribute? hb)
  | renamed => cases hfun
  | kept hname harrow hfun hslots =>
    obtain ⟨f, b', hf, hb', hbody⟩ := applySlot_body hslots hb
    rw [applySlot_of_isNode hf (isNode_of_attribute? hitems)] at hb'
    obtain ⟨ss', hss', heach⟩ := loweredEach_body hb' hitems
    exact ⟨ss', statements?_eq_some.mpr ⟨b', hbody, hss'⟩, heach⟩
  | arrow => cases hfun
  | hoisted hk hname' => cases hname.symm.trans hname'

theorem statements_hoisted (hname : a.hoistedNames.get? t.id = some name) :
    ∃ ss ss', t.statements? = some ss ∧ LoweredEach a ss ss' ∧
      u.statements? = some (insertStatement (bindingDeclaration t.id name) ss') := by
  cases lowers_of_apply h with
  | value hvalue =>
    cases t with
    | node => cases hvalue
    | _ => cases hfun
  | renamed => cases hfun
  | kept _ _ hnone => cases hname.symm.trans (hnone hfun)
  | arrow => cases hfun
  | @hoisted i ib k kb id params id' params' name' bslots bslots' rest ss hk hname' _ _ _ _ _ hslots hss =>
    obtain rfl : name = name' := Option.some.inj (hname.symm.trans hname')
    have hslotted := slotted_body ib hslots
    rw [show (Tree.node ib (.known kb) (written a (.known kb) bslots bslots')).attribute? "body" = _ from hss]
      at hslotted
    generalize hv : (Tree.node ib (.known kb) bslots).attribute? "body" = v at hslotted
    cases hslotted with
    | @slot f v _ hf hfname happly =>
      obtain ⟨ts, rfl, heach⟩ := loweredEach_to_list (child_of_body hf hfname) happly
      exact ⟨ts, ss, statements?_eq_some.mpr ⟨_, attribute?_function i hk .., hv⟩, heach,
        statements?_eq_some.mpr ⟨_, attribute?_function i hk .., slot?_setSlot _ hss⟩⟩

end

/-- A function that has statements after its lowering is not the body of one that gets a variable: the body
would be a list. -/
theorem StandsFor.eq_of_statements {f : Tree} (h : StandsFor a p f) (hu : apply a p.node = (u, none))
    (hss : u.statements? = some ss) : f = u := by
  cases h with
  | lowered h => exact (Prod.mk.inj (h.symm.trans hu)).1
  | @body g π i k slots ss' name hpath hg h hbody hf =>
    obtain ⟨rfl, -⟩ := Prod.mk.inj (hu.symm.trans h)
    obtain ⟨b, hb, hitems⟩ := statements?_eq_some.mp hss
    obtain rfl : b = .list ss' := Option.some.inj (hb.symm.trans hbody)
    cases hitems

theorem mem_nodes_of_body (h : t.attribute? "body" = some v) (hm : m = v ∨ ∃ items, v = .list items ∧ m ∈ items)
    (hnode : m.isNode) : m ∈ t.nodes := by
  cases t with
  | node i s slots =>
    cases s with
    | other => cases h
    | known k =>
      obtain ⟨f, hf, hname, hocc⟩ := occurrences_of_slot? h
      have hchild := child_of_body hf hname
      have hmem : ∃ o ∈ occurrencesOf f v, o.tree = m := by
        rcases hm with rfl | ⟨items, rfl, hm⟩
        · exact ⟨_, occurrencesOf_of_isNode hchild hnode ▸ mem_cons_self, rfl⟩
        · obtain ⟨n, hn⟩ := exists_mem_itemsFrom f.name 0 hm
          exact ⟨_, by rwa [occurrencesOf, if_pos hchild], rfl⟩
      obtain ⟨o, ho, rfl⟩ := hmem
      exact mem_nodes_iff.mpr (.inr ⟨o, hocc o ho, self_mem_nodes hnode⟩)
  | _ => cases h

theorem mem_nodes_of_statements (h : t.statements? = some ss) (hm : m ∈ ss) (hnode : m.isNode) : m ∈ t.nodes := by
  obtain ⟨b, hb, hss⟩ := statements?_eq_some.mp h
  exact nodes_trans (mem_nodes_of_body hb (.inl rfl) (isNode_of_attribute? hss))
    (mem_nodes_of_body hss (.inr ⟨ss, rfl, hm⟩) hnode)

/-! ## References that arrows carry -/

/-- A reference to the arguments of the function at a place, across an arrow. -/
def CarriedFrom (t : ScopeTable) (p : Place) (n : Tree) : Prop :=
  n.name? = some argumentsName ∧ ∃ r, resolve t n = .ok r ∧ r.reachesFunction t = true ∧
    t.ScopeFor p r.scope ∧ r.arrow.isSome

theorem opens_function (h : p.node.isOrdinaryFunction) : p.Opens .function := by
  rw [isOrdinaryFunction_eq, Bool.or_eq_true] at h
  exact .function h

namespace Analyzed

variable {root : Tree} {t : ScopeTable} {hidden : List (Nat × List NodeId)} (h : Analyzed a root t hidden)
  (ha : analyze t root = .ok a) {p : Place} (hfun : p.node.isOrdinaryFunction)
include h ha hfun

theorem carriedFrom_iff (hn : n ∈ root.nodes) :
    CarriedFrom t p n ↔ a.argumentTargets.get? n.id = some p.node.id := by
  rw [h.argumentTargets_iff ha]
  constructor
  · rintro ⟨hname, r, hr, hreach, ⟨s, hs, hnode, hopens⟩, harrow⟩
    obtain ⟨ref, href, hid, hfrom⟩ := resolve_ok hr
    obtain ⟨q, hq, -, -, rfl⟩ := h.outlined.references ref href
    obtain rfl : q.node = n := h.distinct.node_eq (node_mem_nodes hq) hn hid
    have hkind : s.kind = .function := Option.some.inj
      ((Place.opens?_iff.mpr hopens).symm.trans (Place.opens?_iff.mpr (opens_function hfun)))
    exact ⟨_, rfl, href, hname, r, s, hfrom, hreach, hs, hkind, hnode, harrow⟩
  · rintro ⟨ref, hid, href, hname, r, s, hr, hreach, hs, hkind, hnode, harrow⟩
    obtain ⟨q, hq, -, -, rfl, hresolve⟩ := resolve_reference h.outlined h.distinct href
    obtain rfl : q.node = n := h.distinct.node_eq (node_mem_nodes hq) hn hid
    have hopens : p.Opens s.kind := hkind ▸ opens_function hfun
    exact ⟨hname, r, hresolve.trans hr, hreach, ⟨s, hs, hnode, hopens⟩, harrow⟩

theorem isHoistTarget_iff : a.isHoistTarget p.node.id ↔ ∃ n ∈ root.nodes, CarriedFrom t p n := by
  constructor
  · intro htarget
    obtain ⟨name, hname⟩ := Option.isSome_iff_exists.mp htarget
    obtain ⟨⟨ref, hprovided⟩, -⟩ := h.recorded.provided.hoisted _ _ hname
    obtain ⟨q, hq, -, -, hid⟩ := h.outlined.references ref hprovided.1
    have hcarried := (h.argumentTargets_iff ha).mpr ⟨ref, congrArg Reference.identifier hid, hprovided⟩
    exact ⟨q.node, node_mem_nodes hq, (h.carriedFrom_iff ha hfun (node_mem_nodes hq)).mpr hcarried⟩
  · rintro ⟨n, hn, hcarried⟩
    obtain ⟨ref, -, -, hname⟩ := h.recorded.provided.targets _ _ ((h.carriedFrom_iff ha hfun hn).mp hcarried)
    exact hname

end Analyzed

/-! ## What lowering makes of them -/

/-- The identifier that stands for one with a new name. -/
def renamedTo (n : Tree) (name : Text) : Tree :=
  .node ⟨.renamed n.id, n.location⟩ (.known .identifier) [.text name]

theorem eq_of_frame (h : m.frame = renamedTo n name) : m = renamedTo n name := by
  cases m with
  | node i s slots =>
    obtain ⟨rfl, rfl, hslots⟩ := Tree.node.inj h
    cases slots with
    | nil => cases hslots
    | cons v rest => exact congrArg (Tree.node _ _) hslots
  | _ => cases h

theorem isHoistTarget_of_role (h : .declarationOf ∈ rolesFor a t) : a.isHoistTarget t.id := by
  unfold rolesFor at h
  split at h
  · cases hconcise : isConcise t <;> cases hcaptures : a.capturesThis t.id <;>
      simp [hconcise, hcaptures, blockRoles, bindRoles] at h
  · split at h
    · rename_i htarget
      exact (Bool.and_eq_true_iff.mp htarget).2
    · cases h

section

variable {t u : Tree} (hd : t.Distinct) (h : apply a t = (u, none))
include hd h

theorem renamedTo_mem (hn : n ∈ t.nodes) (hident : n.is .identifier) (hname : a.replacement? n.id = some name) :
    renamedTo n name ∈ u.nodes := by
  obtain ⟨cs, hwoven, -⟩ := woven_of_distinct hd h
  have hframe : frameAfter a n = renamedTo n name := by
    unfold frameAfter newName?
    rw [if_pos hident, hname]
    rfl
  have hmem : renamedTo n name ∈ (u.nodes.filter fun m => ! m.id.isMade).map frame := by
    rw [hwoven.frames_eq, ← hframe]
    refine mem_map_of_mem (mem_filter.mpr ⟨hn, ?_⟩)
    obtain ⟨i, slots, rfl⟩ := is_iff.mp hident
    rfl
  obtain ⟨m, hm, hframe⟩ := mem_map.mp hmem
  rw [← eq_of_frame hframe]
  exact (mem_filter.mp hm).1

/-- A declaration is made for those functions only that get a variable. -/
theorem isHoistTarget_of_declaration {d : Tree} (hdecl : d ∈ u.nodes) (hn : n ∈ t.nodes)
    (hid : d.id = .made .declarationOf n.id) : a.isHoistTarget n.id := by
  obtain ⟨cs, hwoven, hperm⟩ := woven_of_distinct hd h
  have hmem : d.id ∈ t.nodes.flatMap (creations a) := by
    refine hperm.mem_iff.mp ?_
    rw [← hwoven.made_eq]
    exact mem_map_of_mem (mem_filter.mpr ⟨hdecl, by rw [hid]; rfl⟩)
  obtain ⟨m, hm, hmem⟩ := mem_flatMap.mp hmem
  obtain ⟨role, hrole, heq⟩ := mem_map.mp hmem
  obtain ⟨rfl, hsame⟩ := NodeId.made.inj (heq.trans hid)
  obtain rfl : m = n := hd.node_eq hm hn hsame
  exact isHoistTarget_of_role hrole

end

end Lowering

/-- What lowering does with a function whose arguments are carried: the variable has one declaration, it stands
behind the directives, the other statements are lowered in their order, and the references get its name. -/
structure KeptArguments (t u : Tree) (scopes : ScopeTable) (a : Analysis) (p : Place) (f : Tree) (name : Text) :
    Prop where
  declared : u.nodes.filter (fun d => d.id = .made .declarationOf p.node.id) =
    [bindingDeclaration p.node.id name]
  statements : ∃ ss ss', p.node.statements? = some ss ∧ LoweredEach a ss ss' ∧
    f.statements? = some (ss'.take (ss.takeWhile isDirective).length ++
      bindingDeclaration p.node.id name :: ss'.drop (ss.takeWhile isDirective).length)
  renamed : ∀ n ∈ t.nodes, CarriedFrom scopes p n →
    u.nodes.filter (fun m => m.id = .renamed n.id) = [renamedTo n name]

theorem is_identifier_of_name? (h : n.name? = some name) : n.is .identifier := by
  unfold name? at h
  split at h
  · assumption
  · cases h

theorem keptArguments {t u : Tree} {scopes : ScopeTable} {a : Analysis} {hidden : List (Nat × List NodeId)}
    (h : Analyzed a t scopes hidden) (ha : analyze scopes t = .ok a) (happly : apply a t = (u, none))
    (hfun : p.node.isOrdinaryFunction) {f : Tree} (hf : f ∈ u.nodes) (hstands : StandsFor a p f)
    (hname : a.hoistedNames.get? p.node.id = some name) : KeptArguments t u scopes a p f name := by
  obtain ⟨v, hv⟩ := hstands.apply_ok
  obtain ⟨ss, ss', hss, heach, hss'⟩ := statements_hoisted hv hfun hname
  -- the function has statements, so what stands for it is its own lowering
  obtain rfl : f = v := hstands.eq_of_statements hv hss'
  refine ⟨?_, ⟨ss, ss', hss, heach, ?_⟩, fun n hn hcarried => ?_⟩
  · have hmem := mem_nodes_of_statements hss' (mem_insertStatement.mpr (.inl rfl)) rfl
    exact filter_id_eq h.distinct happly (nodes_trans hf hmem) rfl
  · rw [hss', insertStatement_lowered heach]
  · have htarget := (h.carriedFrom_iff ha hfun hn).mp hcarried
    have hreplaced : a.replacement? n.id = some name := by
      unfold Analysis.replacement?
      rw [htarget]
      exact hname
    exact filter_id_eq h.distinct happly
      (renamedTo_mem h.distinct happly hn (is_identifier_of_name? hcarried.1) hreplaced) rfl

/-- **One variable for the arguments of a function.** A function gets a declaration exactly if an arrow carries a
reference to its arguments. Then there is one, and all carried references have its name; else the statements
of the function are lowered one by one. -/
theorem arguments_kept_once {t u : Tree} {strict : Bool} (h : t.numbered.withoutArrows strict = .ok u) :
    ∃ scopes a, Lowerable strict t.numbered scopes a u ∧
      ∀ p ∈ t.numbered.places, p.node.isOrdinaryFunction →
        ∃ f, u.nodes.filter (fun n => n.id = p.node.id) = [f] ∧
          ((∃ d ∈ u.nodes, d.id = .made .declarationOf p.node.id) ↔
            ∃ n ∈ t.numbered.nodes, CarriedFrom scopes p n) ∧
          ((∃ n ∈ t.numbered.nodes, CarriedFrom scopes p n) →
            ∃ name, KeptArguments t.numbered u scopes a p f name) ∧
          ((¬ ∃ n ∈ t.numbered.nodes, CarriedFrom scopes p n) → ∀ ss, p.node.statements? = some ss →
            ∃ ss', f.statements? = some ss' ∧ LoweredEach a ss ss') := by
  obtain ⟨hfault, htree⟩ := Tree.withoutArrows_ok h
  obtain ⟨scopes, a, hl⟩ := transform_ok hfault
  rw [htree] at hl
  have hd := distinct_numbered t
  obtain ⟨hidden, hanalyzed⟩ := analyzed hd hl.scopes_eq hl.analysis_eq
  refine ⟨scopes, a, hl, fun p hp hfun => ?_⟩
  obtain ⟨f, hf, hstands⟩ := found_of_apply _ _ hl.apply_eq p hp hfun
  obtain ⟨v, hv⟩ := hstands.apply_ok
  have htarget := hanalyzed.isHoistTarget_iff hl.analysis_eq hfun
  have hkept (hcarried : ∃ n ∈ t.numbered.nodes, CarriedFrom scopes p n) :
      ∃ name, KeptArguments t.numbered u scopes a p f name := by
    obtain ⟨name, hname⟩ := Option.isSome_iff_exists.mp (htarget.mpr hcarried)
    exact ⟨name, keptArguments hanalyzed hl.analysis_eq hl.apply_eq hfun hf hstands hname⟩
  refine ⟨f, filter_id_eq hd hl.apply_eq hf (hstands.id_eq hfun), ⟨?_, ?_⟩, hkept, ?_⟩
  · rintro ⟨d, hdecl, hid⟩
    exact htarget.mp (isHoistTarget_of_declaration hd hl.apply_eq hdecl (node_mem_nodes hp) hid)
  · intro hcarried
    obtain ⟨name, hkept⟩ := hkept hcarried
    have hmem : bindingDeclaration p.node.id name ∈ _ := hkept.declared ▸ List.mem_singleton_self _
    exact ⟨_, (List.mem_filter.mp hmem).1, rfl⟩
  · intro hnone ss hss
    have hname : a.hoistedNames.get? p.node.id = none := by
      rw [← Option.not_isSome_iff_eq_none]
      exact fun hsome => hnone (htarget.mp hsome)
    obtain ⟨ss', hss', heach⟩ := statements_kept hv hfun hname hss
    obtain rfl : f = v := hstands.eq_of_statements hv hss'
    exact ⟨ss', hss', heach⟩

/-- `function () { "d"; () => arguments; () => () => arguments; }` -/
def carriedTwice : Tree :=
  let arrow (body : Tree) : Tree := .mk .arrowFunctionExpression none [.list [], body, .bool true]
  let statement (e : Tree) : Tree := .mk .expressionStatement none [e]
  .mk .functionExpression none [.null, .list [], .mk .blockStatement none [.list
    [statement (.mk .literal none [.text "d", .null]),
     statement (arrow (.identifier "arguments" none)),
     statement (arrow (arrow (.identifier "arguments" none)))]]]

/-- The declaration stands behind the directive, and both references have the name of the variable. -/
theorem arguments_kept_once_carriedTwice :
    ∃ u scopes a f name, carriedTwice.numbered.withoutArrows = .ok u ∧
      Lowerable false carriedTwice.numbered scopes a u ∧
      u.nodes.filter (fun n => n.id = carriedTwice.numbered.id) = [f] ∧
      KeptArguments carriedTwice.numbered u scopes a ⟨carriedTwice.numbered, []⟩ f name ∧
      (f.statements?.map fun ss => ss.map kind?) = some [some .expressionStatement, some .variableDeclaration,
        some .expressionStatement, some .expressionStatement] ∧
      (u.nodes.filter fun n => n.name? = some baseName).map Tree.id =
        [.made .bindingNameOf (.numbered 0), .renamed (.numbered 6), .renamed (.numbered 10)] := by
  have hu := Tree.withoutArrows_eq carriedTwice.numbered false (by decide +kernel)
  obtain ⟨scopes, a, hl, hall⟩ := arguments_kept_once hu
  obtain ⟨f, hf, hdeclared, hkept, -⟩ := hall ⟨carriedTwice.numbered, []⟩ (mem_places_nil.mpr ⟨rfl, rfl⟩) rfl
  obtain ⟨name, hkept⟩ := hkept (hdeclared.mp (by decide +kernel))
  have hkinds : ((Session.transform { strict := false } carriedTwice.numbered).tree.nodes.filter
      fun n => n.id = carriedTwice.numbered.id).map (fun f => f.statements?.map fun ss => ss.map kind?) =
      [some [some .expressionStatement, some .variableDeclaration, some .expressionStatement,
        some .expressionStatement]] := by decide +kernel
  refine ⟨_, scopes, a, f, name, hu, hl, hf, hkept, ?_, by decide +kernel⟩
  dsimp only at hf
  rw [hf] at hkinds
  exact (List.cons.inj hkinds).1

end ArrowFree
