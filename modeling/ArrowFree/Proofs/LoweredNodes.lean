import ArrowFree.Proofs.Frames
import ArrowFree.Proofs.Numbering

/-!
# The nodes of a lowered tree

In pre-order the nodes of a lowered tree are those of the tree without its arrows, with nodes that lowering
made in between (`Woven`). The nodes that stay have the frames that `frameAfter` tells. What was made is told
by the arrows and by the functions that keep their arguments (`creations`). So no identity is used twice
(`nodup_ids`).
-/

namespace ArrowFree

open ArrowFree.Tree Lowering List

namespace Lowering

variable {a : Analysis}
variable {t body u body' n params params' : Tree} {role : Role} {origin : NodeId} {i : Info}
  {rest : List Tree}

/-! ## What lowering makes -/

/-- An arrow whose body is no block. -/
def isConcise (t : Tree) : Bool := (t.attribute? "body").any fun body => ! body.is .blockStatement

/-- The kind of node that is made for a role. -/
def kindFor : Role → Kind
  | .functionOf => .functionExpression
  | .blockOf => .blockStatement
  | .returnOf => .returnStatement
  | .callOf => .callExpression
  | .memberOf => .memberExpression
  | .boundThisOf => .thisExpression
  | .declarationOf => .variableDeclaration
  | .declaratorOf => .variableDeclarator
  | .bindNameOf | .bindingNameOf | .bindingValueOf => .identifier

/-- The block and the statement around a concise body. -/
def blockRoles : List Role := [.blockOf, .returnOf]

/-- What is around a function that is bound. -/
def bindRoles : List Role := [.callOf, .memberOf, .bindNameOf, .boundThisOf]

/-- The declaration of a variable for the arguments of a function. -/
def bindingRoles : List Role := [.declarationOf, .declaratorOf, .bindingNameOf, .bindingValueOf]

/-- What lowering makes for a node. -/
def rolesFor (a : Analysis) (t : Tree) : List Role :=
  if t.isArrow then
    .functionOf :: ((if isConcise t then blockRoles else []) ++ if a.capturesThis t.id then bindRoles else [])
  else if t.isOrdinaryFunction && a.isHoistTarget t.id then bindingRoles
  else []

def creations (a : Analysis) (t : Tree) : List NodeId := (rolesFor a t).map (.made · t.id)

/-- The nodes of a tree and those of the lowered one, both in pre-order: arrows are gone, made nodes are in
between, and the rest stand for each other. What was made is listed. -/
inductive Woven (a : Analysis) : List Tree → List Tree → List NodeId → Prop
  | nil : Woven a [] [] []
  | stays {n n' : Tree} {ns ns' : List Tree} {cs : List NodeId} (harrow : n.isArrow = false)
      (hmade : n'.id.isMade = false) (hframe : n'.frame = frameAfter a n) (h : Woven a ns ns' cs) :
      Woven a (n :: ns) (n' :: ns') cs
  | gone {n : Tree} {ns ns' : List Tree} {cs : List NodeId} (harrow : n.isArrow) (h : Woven a ns ns' cs) :
      Woven a (n :: ns) ns' cs
  | made {n' : Tree} {role : Role} {origin : NodeId} {ns ns' : List Tree} {cs : List NodeId}
      (hid : n'.id = .made role origin) (hk : n'.kind? = some (kindFor role))
      (hplace : kindFor role = .identifier → n'.location = none) (h : Woven a ns ns' cs) :
      Woven a ns (n' :: ns') (.made role origin :: cs)

namespace Woven

variable {ns ns' ms ms' : List Tree} {cs ds : List NodeId}

theorem append (h : Woven a ns ns' cs) (h' : Woven a ms ms' ds) :
    Woven a (ns ++ ms) (ns' ++ ms') (cs ++ ds) := by
  induction h with
  | nil => exact h'
  | stays harrow hmade hframe _ ih => exact .stays harrow hmade hframe ih
  | gone harrow _ ih => exact .gone harrow ih
  | made hid hk hplace _ ih => exact .made hid hk hplace ih

/-- Without what was made and without the arrows, the frames are the same but for new names and short
forms. -/
theorem frames_eq (h : Woven a ns ns' cs) :
    (ns'.filter fun n => ! n.id.isMade).map frame = (ns.filter fun n => ! n.isArrow).map (frameAfter a) := by
  induction h with
  | nil => rfl
  | stays harrow hmade hframe _ ih =>
    rw [filter_cons_of_pos (by simp [hmade]), filter_cons_of_pos (by simp [harrow]), map_cons,
      map_cons, hframe, ih]
  | gone harrow _ ih => rw [filter_cons_of_neg (by simp [harrow]), ih]
  | made hid _ _ _ ih => rw [filter_cons_of_neg (by simp [hid, NodeId.isMade]), ih]

theorem made_eq (h : Woven a ns ns' cs) : (ns'.filter fun n => n.id.isMade).map Tree.id = cs := by
  induction h with
  | nil => rfl
  | stays harrow hmade hframe _ ih => rw [filter_cons_of_neg (by simp [hmade]), ih]
  | gone harrow _ ih => exact ih
  | made hid hk _ _ ih => rw [filter_cons_of_pos (by simp [hid, NodeId.isMade]), map_cons, ih, hid]

/-- A node that is made has the kind of its role, and an identifier that is made has no location. -/
theorem of_made (h : Woven a ns ns' cs) (hn : n ∈ ns') (hid : n.id = .made role origin) :
    n.kind? = some (kindFor role) ∧ (kindFor role = .identifier → n.location = none) := by
  induction h with
  | nil => cases hn
  | stays harrow hmade hframe _ ih =>
    rcases mem_cons.mp hn with rfl | hn
    · rw [hid] at hmade
      cases hmade
    · exact ih hn
  | gone harrow _ ih => exact ih hn
  | made hid' hk hplace _ ih =>
    rcases mem_cons.mp hn with rfl | hn
    · obtain ⟨rfl, -⟩ := NodeId.made.inj (hid.symm.trans hid')
      exact ⟨hk, hplace⟩
    · exact ih hn

theorem kind_of_made (h : Woven a ns ns' cs) (hn : n ∈ ns') (hid : n.id = .made role origin) :
    n.kind? = some (kindFor role) :=
  (h.of_made hn hid).1

end Woven

/-- The nodes of two trees are woven, and what was made is `es` and what the nodes of the first ask for. -/
def WovenTrees (a : Analysis) (ns ns' : List Tree) (es : List NodeId) : Prop :=
  ∃ cs, Woven a ns ns' cs ∧ cs.Perm (es ++ ns.flatMap (creations a))

namespace WovenTrees

variable {n n' : Tree} {ns ns' ms ms' : List Tree} {es fs : List NodeId}

theorem nil : WovenTrees a [] [] [] := ⟨[], .nil, .nil⟩

theorem append (h : WovenTrees a ns ns' es) (h' : WovenTrees a ms ms' fs) :
    WovenTrees a (ns ++ ms) (ns' ++ ms') (es ++ fs) := by
  obtain ⟨cs, hw, hperm⟩ := h
  obtain ⟨ds, hw', hperm'⟩ := h'
  refine ⟨cs ++ ds, hw.append hw', (hperm.append hperm').trans ?_⟩
  rw [flatMap_append, append_assoc, append_assoc]
  exact (perm_append_comm_assoc _ _ _).append_left es

theorem perm (h : WovenTrees a ns ns' es) (hperm : es.Perm fs) : WovenTrees a ns ns' fs := by
  obtain ⟨cs, hw, hcs⟩ := h
  exact ⟨cs, hw, hcs.trans (hperm.append_right _)⟩

theorem made (hid : n'.id = .made role origin) (hk : n'.kind? = some (kindFor role))
    (hplace : kindFor role = .identifier → n'.location = none) (h : WovenTrees a ns ns' es) :
    WovenTrees a ns (n' :: ns') (.made role origin :: es) := by
  obtain ⟨cs, hw, hperm⟩ := h
  exact ⟨_, .made hid hk hplace hw, hperm.cons _⟩

/-- A node that stays accounts for what it asks for. -/
theorem stays (harrow : n.isArrow = false) (hmade : n'.id.isMade = false) (hframe : n'.frame = frameAfter a n)
    (h : WovenTrees a ns ns' (es ++ creations a n)) : WovenTrees a (n :: ns) (n' :: ns') es := by
  obtain ⟨cs, hw, hperm⟩ := h
  exact ⟨cs, .stays harrow hmade hframe hw, by rwa [flatMap_cons, ← append_assoc]⟩

theorem gone (harrow : n.isArrow) (h : WovenTrees a ns ns' (es ++ creations a n)) :
    WovenTrees a (n :: ns) ns' es := by
  obtain ⟨cs, hw, hperm⟩ := h
  exact ⟨cs, .gone harrow hw, by rwa [flatMap_cons, ← append_assoc]⟩

end WovenTrees

/-- No node of the tree was made. -/
def Unmade (t : Tree) : Prop := ∀ n ∈ t.nodes, n.id.isMade = false

theorem Unmade.id (h : Unmade t) : t.id.isMade = false := by
  cases t with
  | node i s slots => exact h _ (self_mem_nodes rfl)
  | _ => rfl

theorem Unmade.occurrence (h : Unmade t) {o : Occurrence} (ho : o ∈ t.occurrences) : Unmade o.tree :=
  fun n hn => h n (mem_nodes_iff.mpr (.inr ⟨o, ho, hn⟩))

/-- The tree is woven with every tree that stands for it. -/
def IsWoven (a : Analysis) (t : Tree) : Prop :=
  ∀ {u : Tree}, apply a t = (u, none) → WovenTrees a t.nodes u.nodes []

theorem wovenTrees_moved {os os' : List Occurrence} (hmoved : Forall₂ (Moved a) os os')
    (ih : ∀ o ∈ os, IsWoven a o.tree) :
    WovenTrees a (os.flatMap fun o => o.tree.nodes) (os'.flatMap fun o => o.tree.nodes) [] := by
  induction hmoved with
  | nil => exact .nil
  | cons hc _ ih' =>
    rw [forall_mem_cons] at ih
    exact (ih.1 hc.tree).append (ih' ih.2)

theorem wovenTrees_slot {f : Field} (h : applySlot a f t = (u, none))
    (ih : ∀ o ∈ occurrencesOf f t, IsWoven a o.tree) :
    WovenTrees a ((occurrencesOf f t).flatMap fun o => o.tree.nodes)
      ((occurrencesOf f u).flatMap fun o => o.tree.nodes) [] :=
  wovenTrees_moved (moved_of_carried (carried_slot h)) ih

theorem creations_of_not_function (harrow : t.isArrow = false)
    (hfun : t.isOrdinaryFunction → a.hoistedNames.get? t.id = none) : creations a t = [] := by
  unfold creations rolesFor
  rw [harrow, if_neg Bool.false_ne_true]
  cases hk : t.isOrdinaryFunction with
  | false => rfl
  | true =>
    rw [not_isHoistTarget (hfun hk)]
    rfl

/-! ## Arrows -/

theorem nodes_of_isNode (h : t.isNode) : t.nodes = t :: t.occurrences.flatMap fun o => o.tree.nodes := by
  cases t with
  | node i s slots => exact nodes_node i s slots
  | _ => cases h

theorem nodes_blockFor (origin : NodeId) (h : body.isNode) : (blockFor origin body).nodes =
      if body.is .blockStatement then body.nodes
      else returning origin body :: returnFor origin body :: body.nodes := by
  unfold blockFor
  split
  · rfl
  · rw [nodes_of_isNode rfl, occurrences_returning, flatMap_singleton,
      nodes_of_isNode (t := returnFor origin body) rfl, occurrences_returnFor h, flatMap_singleton]

theorem nodes_functionFor (i : Info) (params : Tree) (h : body.isNode) :
    (functionFor i params body).nodes = functionFor i params body ::
      (((occurrencesOf (.sub "params") params).flatMap fun o => o.tree.nodes) ++
        (blockFor i.id body).nodes) := by
  rw [nodes_of_isNode rfl, occurrences_functionFor h, flatMap_cons, flatMap_append,
    flatMap_singleton, nodes_of_not_node rfl, nil_append]

/-- The name `bind` of the member of a function. -/
def bindName (origin : NodeId) : Tree := made .bindNameOf origin .identifier none [.text "bind"]

theorem nodes_bound (origin : NodeId) (location : Option Location) {function : Tree} (h : function.isNode) :
    (bound origin location function).nodes = bound origin location function ::
      bindMember origin location function :: (function.nodes ++ [bindName origin, boundThis origin]) := by
  rw [nodes_of_isNode rfl, occurrences_bound, flatMap_cons, flatMap_singleton,
    nodes_of_isNode (t := bindMember origin location function) rfl, occurrences_bindMember _ _ h,
    flatMap_cons, flatMap_singleton, cons_append, append_assoc]
  rfl

theorem woven_blockFor (origin : NodeId) (hbody : apply a body = (body', none)) (hnode : body'.isNode)
    (h : WovenTrees a body.nodes body'.nodes []) :
    WovenTrees a body.nodes (blockFor origin body').nodes
      ((if body.is .blockStatement then [] else blockRoles).map (.made · origin)) := by
  rw [nodes_blockFor origin hnode, is_apply_eq hbody (by decide)]
  split
  · exact h
  · exact .made rfl rfl nofun (.made rfl rfl nofun h)

theorem creations_arrow (i : Info) (params body : Tree) (rest : List Tree) :
    creations a (.node i (.known .arrowFunctionExpression) (params :: body :: rest)) =
      .made .functionOf i.id :: ((if body.is .blockStatement then [] else blockRoles).map (.made · i.id) ++
        (if a.capturesThis i.id then bindRoles else []).map (.made · i.id)) := by
  have hconcise : isConcise (.node i (.known .arrowFunctionExpression) (params :: body :: rest)) =
      ! body.is .blockStatement := rfl
  unfold creations rolesFor
  rw [if_pos (by rfl), hconcise, map_cons, map_append]
  cases body.is .blockStatement <;> rfl

theorem woven_arrow (hparams : applySlot a (.sub "params") params = (params', none))
    (hbody : apply a body = (body', none)) (hnode : body'.isNode)
    (ih : ∀ o ∈ (Tree.node i (.known .arrowFunctionExpression) (params :: body :: rest)).occurrences,
      IsWoven a o.tree) :
    WovenTrees a (Tree.node i (.known .arrowFunctionExpression) (params :: body :: rest)).nodes
      (standIn a i params' body').nodes [] := by
  have hocc := occurrences_arrow i params rest ((isNode_apply hbody).symm.trans hnode)
  rw [hocc, forall_mem_append] at ih
  have hwoven : WovenTrees a body.nodes body'.nodes [] := ih.2 _ mem_cons_self hbody
  have hfunction : WovenTrees a
      (((occurrencesOf (.sub "params") params).flatMap fun o => o.tree.nodes) ++ body.nodes)
      (functionFor i params' body').nodes (.made .functionOf i.id ::
        (if body.is .blockStatement then [] else blockRoles).map (.made · i.id)) := by
    rw [nodes_functionFor i params' hnode]
    exact .made rfl rfl nofun ((wovenTrees_slot hparams ih.1).append (woven_blockFor i.id hbody hnode hwoven))
  rw [nodes_of_isNode rfl, hocc, flatMap_append, flatMap_singleton]
  refine .gone rfl ?_
  rw [creations_arrow, nil_append]
  unfold standIn
  split
  · -- the call and the member come before the function, `bind` and `this` behind it
    rw [nodes_bound i.id i.location rfl]
    have hbehind : WovenTrees a [] [bindName i.id, boundThis i.id] ((bindRoles.drop 2).map (.made · i.id)) :=
      .made rfl rfl (fun _ => rfl) (.made rfl rfl nofun .nil)
    have haround := hfunction.append hbehind
    rw [append_nil] at haround
    exact .perm (.made rfl rfl nofun (.made rfl rfl nofun haround))
      (perm_append_comm_assoc [NodeId.made .callOf i.id, .made .memberOf i.id]
        (.made .functionOf i.id :: (if body.is .blockStatement then [] else blockRoles).map (.made · i.id))
        ((bindRoles.drop 2).map (.made · i.id)))
  · rwa [map_nil, append_nil]

/-! ## Functions that keep their arguments -/

theorem woven_bindingDeclaration (origin : NodeId) (name : Text) :
    WovenTrees a [] (bindingDeclaration origin name).nodes (bindingRoles.map (.made · origin)) := by
  have hnodes : (bindingDeclaration origin name).nodes = [bindingDeclaration origin name,
       made .declaratorOf origin .variableDeclarator none
        [made .bindingNameOf origin .identifier none [.text name],
         made .bindingValueOf origin .identifier none [.text argumentsName]],
       made .bindingNameOf origin .identifier none [.text name],
       made .bindingValueOf origin .identifier none [.text argumentsName]] := rfl
  rw [hnodes]
  exact .made rfl rfl nofun (.made rfl rfl nofun (.made rfl rfl (fun _ => rfl)
    (.made rfl rfl (fun _ => rfl) .nil)))

theorem woven_hoistedBody {ib : Info} {kb : Kind} {bslots bslots' ss : List Tree} (origin : NodeId)
    (name : Text) (hbname : rename? a (.node ib (.known kb) bslots) = none)
    (harrow : (Tree.node ib (.known kb) bslots).isArrow = false)
    (hbfun : (Tree.node ib (.known kb) bslots).isOrdinaryFunction → a.hoistedNames.get? ib.id = none)
    (hslots : applySlots a kb.layout bslots = (bslots', none))
    (hss : slot? "body" kb.layout (written a (.known kb) bslots bslots') = some (.list ss))
    (hunmade : Unmade (.node ib (.known kb) bslots))
    (ih : ∀ o ∈ (Tree.node ib (.known kb) bslots).occurrences, IsWoven a o.tree) :
    WovenTrees a (Tree.node ib (.known kb) bslots).nodes
      (Tree.node ib (.known kb) (setSlot "body" (.list (insertStatement (bindingDeclaration origin name) ss))
        kb.layout (written a (.known kb) bslots bslots'))).nodes (bindingRoles.map (.made · origin)) := by
  have hframe : (Tree.node ib (.known kb) (setSlot "body"
      (.list (insertStatement (bindingDeclaration origin name) ss)) kb.layout
        (written a (.known kb) bslots bslots'))).frame = frameAfter a (.node ib (.known kb) bslots) := by
    rw [← frame_kept hbname hslots fun o ho => (hunmade.occurrence ho).id]
    exact congrArg (Tree.node ib _)
      (hollowSlots_setSlot (fun f hf => child_of_body hf) hss (hollow_insertStatement rfl ss))
  have hmade : ib.id.isMade = false := hunmade.id
  obtain ⟨n, os₁, os₂, os₁', os₂', hos, hos', hmoved₁, hmoved₂⟩ :=
    moved_statements (bindingDeclaration origin name) hslots hss
  rw [occurrences_node, Shape.fields, hos, forall_mem_append] at ih
  rw [nodes_node, nodes_node, Shape.fields, hos, hos', flatMap_append, flatMap_append,
    flatMap_cons]
  refine .stays harrow hmade hframe ?_
  rw [creations_of_not_function harrow hbfun, append_nil]
  have haround := (wovenTrees_moved hmoved₁ ih.1).append
    ((woven_bindingDeclaration origin name).append (wovenTrees_moved hmoved₂ ih.2))
  rwa [nil_append, nil_append, append_nil] at haround

theorem woven_hoisted {k : Kind} {id id' : Tree} {name : Text} (hk : k.isOrdinaryFunction)
    (hname : a.hoistedNames.get? i.id = some name) (hid : applySlot a (.sub "id") id = (id', none))
    (hparams : applySlot a (.sub "params") params = (params', none)) (hnode : body.isNode)
    (hnode' : body'.isNode) (hunmade : Unmade (.node i (.known k) (id :: params :: body :: rest)))
    (ih : ∀ o ∈ (Tree.node i (.known k) (id :: params :: body :: rest)).occurrences, IsWoven a o.tree)
    (hbody : WovenTrees a body.nodes body'.nodes (bindingRoles.map (.made · i.id))) :
    WovenTrees a (Tree.node i (.known k) (id :: params :: body :: rest)).nodes
      (Tree.node i (.known k) (id' :: params' :: body' :: rest)).nodes [] := by
  have hmade : i.id.isMade = false := hunmade.id
  have hocc := occurrences_function i hk id params rest hnode
  have hmadeBelow : ∀ o ∈ (Tree.node i (.known k) (id :: params :: body :: rest)).occurrences,
      o.tree.id.isMade = false := fun o ho => (hunmade.occurrence ho).id
  rw [hocc, forall_mem_append, forall_mem_append] at ih hmadeBelow
  have harrow : (Tree.node i (.known k) (id :: params :: body :: rest)).isArrow = false := by
    cases k <;> first | rfl | cases hk
  have hframe : (Tree.node i (.known k) (id' :: params' :: body' :: rest)).frame =
      frameAfter a (.node i (.known k) (id :: params :: body :: rest)) := by
    rw [frameAfter_of_not_property (newName?_of_not_identifier (by cases k <;> first | rfl | cases hk))
      (by cases k <;> first | rfl | cases hk)]
    refine congrArg (Tree.node i _) ?_
    rw [Shape.fields, layout_of_isOrdinaryFunction hk]
    show id'.hollow :: params'.hollow :: body'.hollow :: rest =
      id.hollow :: params.hollow :: body.hollow :: rest
    rw [hollow_applySlot rfl hid hmadeBelow.1, hollow_applySlot rfl hparams hmadeBelow.2.1,
      hollow_of_isNode hnode, hollow_of_isNode hnode']
  have hcreations : creations a (.node i (.known k) (id :: params :: body :: rest)) =
      bindingRoles.map (.made · i.id) := by
    unfold creations rolesFor
    rw [harrow, if_neg Bool.false_ne_true, if_pos]
    · rfl
    · exact Bool.and_eq_true_iff.mpr ⟨hk, isHoistTarget_of_get? hname⟩
  rw [nodes_of_isNode rfl, nodes_of_isNode rfl, hocc, occurrences_function i hk id' params' rest hnode']
  simp only [flatMap_append, flatMap_singleton]
  refine .stays harrow hmade hframe ?_
  rw [hcreations]
  exact (wovenTrees_slot hid ih.1).append ((wovenTrees_slot hparams ih.2.1).append hbody)

/-- The nodes of a tree are woven with those of the lowered one. -/
theorem woven_of_apply (t : Tree) (hunmade : Unmade t) : IsWoven a t := by
  -- A function with a variable has the new statement two levels down, so the induction is a deep one.
  induction t using deep_induction with
  | h t ih ih' =>
    intro u h
    have below : ∀ o ∈ t.occurrences, IsWoven a o.tree := fun o ho => ih o ho (hunmade.occurrence ho)
    cases lowers_of_apply h with
    | value hvalue =>
      rw [nodes_of_not_node hvalue]
      exact .nil
    | @renamed i slots name hname =>
      have hframe : frameAfter a (.node i (.known .identifier) slots) =
          .node ⟨.renamed i.id, i.location⟩ (.known .identifier) [.text name] := by
        unfold frameAfter
        rw [show newName? a (.node i (.known .identifier) slots) = some name from hname]
        rfl
      rw [nodes_identifier, nodes_identifier]
      exact .stays rfl rfl hframe.symm .nil
    | @kept i s slots slots' hname harrow hfun hslots =>
      have hmade : i.id.isMade = false := hunmade.id
      have hframe := frame_kept hname hslots fun o ho => (hunmade.occurrence ho).id
      rw [nodes_node, nodes_node, occurrencesIn_written]
      refine .stays harrow hmade hframe ?_
      rw [creations_of_not_function harrow hfun]
      exact wovenTrees_moved (moved_of_carried (carried_slots hslots)) below
    | arrow hparams hbody hnode => exact woven_arrow hparams hbody hnode below
    | @hoisted i ib k kb id params id' params' name bslots bslots' rest ss hk hname hid hparams hbname hbarrow
        hbfun hslots hss =>
      have hnode : (Tree.node ib (.known kb) bslots).isNode := rfl
      have hocc := occurrences_function i hk id params rest hnode
      have hmem : (⟨"body", none, .node ib (.known kb) bslots⟩ : Occurrence) ∈ Tree.occurrences _ :=
        hocc ▸ mem_append_right _ (mem_append_right _ mem_cons_self)
      have hbody := hunmade.occurrence hmem
      exact woven_hoisted hk hname hid hparams hnode rfl hunmade below
        (woven_hoistedBody i.id name hbname hbarrow hbfun hslots hss hbody
          fun o ho => ih' _ hmem o ho (hbody.occurrence ho))

theorem woven_of_distinct (hd : t.Distinct) (h : apply a t = (u, none)) : WovenTrees a t.nodes u.nodes [] := by
  refine woven_of_apply t (fun n hn => ?_) h
  obtain ⟨k, hk⟩ := hd.numbered n hn
  rw [hk]
  rfl

/-! ## Identities -/

/-- The identity of the node that a node stands for. -/
def source : NodeId → NodeId
  | .renamed of => of
  | other => other

theorem id_frame (t : Tree) : t.frame.id = t.id := by
  cases t <;> rfl

theorem id_set (t : Tree) (name : Text) (v : Tree) : (t.set name v).id = t.id := by
  cases t <;> rfl

theorem source_frameAfter (h : ∃ k, n.id = .numbered k) : source (frameAfter a n).id = n.id := by
  obtain ⟨k, hk⟩ := h
  have hkept : source n.id = n.id := by rw [hk]; rfl
  unfold frameAfter
  split
  · rfl
  · split
    · rw [id_set, id_frame, hkept]
    · rw [id_frame, hkept]

theorem nodup_stays (hd : t.Distinct) :
    ((t.nodes.filter fun n => ! n.isArrow).map fun n => (frameAfter a n).id).Nodup := by
  refine List.Nodup.of_map source ?_
  have hsource : ((t.nodes.filter fun n => ! n.isArrow).map fun n => (frameAfter a n).id).map source =
      (t.nodes.filter fun n => ! n.isArrow).map Tree.id := by
    rw [map_map]
    exact map_congr_left fun n hn => source_frameAfter (hd.numbered n (mem_filter.mp hn).1)
  rw [hsource]
  exact hd.nodup.sublist (filter_sublist.map _)

theorem nodup_rolesFor (t : Tree) : (rolesFor a t).Nodup := by
  unfold rolesFor
  cases t.isArrow <;> cases isConcise t <;> cases a.capturesThis t.id <;>
    cases t.isOrdinaryFunction && a.isHoistTarget t.id <;> decide

theorem nodup_made (hd : t.Distinct) : (t.nodes.flatMap (creations a)).Nodup := by
  rw [nodup_flatMap]
  constructor
  · intro n _
    exact (nodup_rolesFor n).map fun role role' h => (NodeId.made.inj h).1
  · refine (pairwise_map.mp hd.nodup).imp fun hne id hid hid' => hne ?_
    obtain ⟨role, -, rfl⟩ := mem_map.mp hid
    obtain ⟨role', -, heq⟩ := mem_map.mp hid'
    exact (NodeId.made.inj heq).2.symm

/-- **No identity is used twice** in a lowered tree. -/
theorem nodup_ids (hd : t.Distinct) (h : apply a t = (u, none)) : (u.nodes.map Tree.id).Nodup := by
  obtain ⟨cs, hwoven, hperm⟩ := woven_of_distinct hd h
  have hstays : ((u.nodes.filter fun n => ! n.id.isMade).map Tree.id).Nodup := by
    have hframes := congrArg (map Tree.id) hwoven.frames_eq
    rw [map_map, map_map, (funext id_frame : Tree.id ∘ frame = Tree.id)] at hframes
    rw [hframes]
    exact nodup_stays hd
  have hmade : ((u.nodes.filter fun n => n.id.isMade).map Tree.id).Nodup := by
    rw [hwoven.made_eq]
    exact hperm.nodup_iff.mpr (nodup_made hd)
  -- what was made and what stays have identities of different forms
  have hsplit := (filter_append_perm (fun n : Tree => n.id.isMade) u.nodes).map Tree.id
  rw [← hsplit.nodup_iff, map_append, nodup_append]
  refine ⟨hmade, hstays, ?_⟩
  intro id hid id' hid' heq
  obtain ⟨n, hn, rfl⟩ := mem_map.mp hid
  obtain ⟨n', hn', rfl⟩ := mem_map.mp hid'
  have hkept := (mem_filter.mp hn').2
  rw [← heq, (mem_filter.mp hn).2] at hkept
  cases hkept

theorem filter_id_eq (hd : t.Distinct) (h : apply a t = (u, none)) {f : Tree} (hf : f ∈ u.nodes) {id : NodeId}
    (hid : f.id = id) : u.nodes.filter (fun m => m.id = id) = [f] := by
  subst hid
  exact filter_eq_of_nodup_map (nodup_ids hd h) hf

end Lowering

end ArrowFree
