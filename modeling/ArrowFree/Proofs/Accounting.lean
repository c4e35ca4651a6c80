import ArrowFree.Proofs.DeclarationOrder

/-!
# Every identifier is accounted for

By its position an identifier is a reference, a declaration or a plain key, and the table has it exactly
once or, if it is a key, not at all (`identifiers_accounted`). References are recorded in pre-order. The
identifiers of a binding are in pre-order but for one case: parameters are declared when their function is
entered, so that a parameter comes before what is declared within the parameters in front of it.
-/

namespace ArrowFree

open ArrowFree.Tree Lowering List

variable {b : Binding}

/-! ## The bindings of a scope -/

namespace Declaration

theorem names_into (bs : List Binding) (d : Declaration) : (into bs d).map Binding.name = bs.map Binding.name ∨
    d.name ∉ bs.map Binding.name ∧ (into bs d).map Binding.name = bs.map Binding.name ++ [d.name] := by
  unfold into
  induction bs with
  | nil => exact .inr ⟨not_mem_nil, rfl⟩
  | cons b bs ih =>
    unfold Scope.declare
    by_cases hb : b.name = d.name
    · rw [if_pos hb]
      simp [hb]
    · rw [if_neg hb, map_cons, map_cons]
      rcases ih with heq | ⟨hnew, heq⟩
      · exact .inl (congrArg _ heq)
      · exact .inr ⟨by simpa [Ne.symm hb] using hnew, congrArg _ heq⟩

theorem nodup_names (ds : List Declaration) : ((ds.foldl into []).map Binding.name).Nodup := by
  induction ds using List.reverseRecOn with
  | nil => exact nodup_nil
  | append_singleton ds d ih =>
    rw [foldl_append]
    show ((into (ds.foldl into []) d).map Binding.name).Nodup
    rcases names_into (ds.foldl into []) d with heq | ⟨hnew, heq⟩
    · rwa [heq]
    · rw [heq, ← concat_eq_append]
      exact ih.concat hnew

end Declaration

namespace Scope

variable {s : Scope} {ds : List Declaration} (h : s.Holds ds)
include h

theorem Holds.binding?_of_mem (hb : b ∈ s.bindings) : s.binding? b.name = some b := by
  have hnodup := Declaration.nodup_names ds
  rw [← h] at hnodup
  cases hf : s.binding? b.name with
  | none => exact absurd (find?_eq_none.mp hf b hb) (by simp)
  | some c =>
    have hname : c.name = b.name := by simpa using find?_some hf
    rw [inj_on_of_nodup_map hnodup (mem_of_find?_eq_some hf) hb hname]

theorem Holds.identifiers (hb : b ∈ s.bindings) :
    b.identifiers = (ds.filter fun d => d.name = b.name).map Declaration.identifier :=
  Declaration.identifiers_merged ((h.binding? b.name).symm.trans (h.binding?_of_mem hb))

theorem Holds.binding_of_declaration {d : Declaration} (hd : d ∈ ds) :
    ∃ b ∈ s.bindings, b.name = d.name ∧ d.identifier ∈ b.identifiers := by
  have hmem : d ∈ ds.filter fun e => e.name = d.name := mem_filter.mpr ⟨hd, by simp⟩
  cases hb : s.binding? d.name with
  | none =>
    rw [h.binding?] at hb
    cases hf : ds.filter fun e => e.name = d.name with
    | nil => rw [hf] at hmem; cases hmem
    | cons e es => rw [hf] at hb; cases hb
  | some b =>
    have hname : b.name = d.name := by simpa using find?_some hb
    refine ⟨b, mem_of_find?_eq_some hb, hname, ?_⟩
    rw [h.identifiers (mem_of_find?_eq_some hb), hname]
    exact mem_map_of_mem hmem

end Scope

/-! ## References -/

namespace ScopeTable

variable {t : ScopeTable} {p : Place} {i : Nat}

/-- The places of the identifiers that are recorded. -/
def referring (ps : List Place) : List Place := ps.filter fun p => p.node.is .identifier && p.isReference

theorem filterMap_reference?_bindsTo {reach : Reach} {xs : List Addition}
    (h : ∀ x ∈ xs, x.BindsTo reach) (current : Nat) :
    xs.filterMap (Addition.reference? current) = [] := by
  refine filterMap_eq_nil_iff.mpr fun x hx => ?_
  obtain ⟨_, _, _, _, rfl⟩ := h x hx
  rfl

theorem filterMap_reference? (hp : p.additions = .ok p.added) (current : Nat) :
    p.added.filterMap (Addition.reference? current) =
      (referring [p]).map fun p => ⟨p.node.id, p.node.name?, current⟩ := by
  unfold referring
  cases href : p.node.is .identifier && p.isReference with
  | true =>
    rw [filter_cons_of_pos (by exact href), added_of_reference (Bool.and_eq_true_iff.mp href).1
      (Bool.and_eq_true_iff.mp href).2]
    rfl
  | false =>
    rw [filter_cons_of_neg (by simp [href])]
    cases ho : p.opens? with
    | some kind =>
      obtain ⟨outs, ins, heq, houts, hins⟩ := Place.additions_opening ho hp
      rw [heq, filterMap_append, filterMap_reference?_bindsTo houts, filterMap_cons_none rfl,
        filterMap_reference?_bindsTo hins]
      rfl
    | none =>
      rcases Place.additions_leaf ho hp with heq | ⟨x, reach, heq, -, _, _, _, _, rfl⟩ | ⟨-, hid, hyes⟩
      · rw [heq]
        rfl
      · rw [heq]
        rfl
      · rw [hid, hyes] at href
        cases href

/-- What is recorded along some places, in their order. -/
theorem recorded_enterAll {ps : List Place} (hps : ∀ p ∈ ps, p.additions = .ok p.added) :
    (t.enterAll ps).references.map (fun r => (r.identifier, r.name)) =
      t.references.map (fun r => (r.identifier, r.name)) ++
        (referring ps).map fun p => (p.node.id, p.node.name?) := by
  induction ps generalizing t with
  | nil => exact (append_nil _).symm
  | cons p ps ih =>
    obtain ⟨hp, hps⟩ := forall_mem_cons.mp hps
    show ((t.entered p).enterAll ps).references.map _ = _
    have hsplit : referring (p :: ps) = referring [p] ++ referring ps := filter_append [p] ps
    rw [ih hps, entered, references_addAll, filterMap_reference? hp, hsplit]
    simp

theorem recorded_ofTree {root : Tree} (h : ofTree root = .ok t) :
    t.references.map (fun r => (r.identifier, r.name)) =
      (referring root.places).map fun p => (p.node.id, p.node.name?) := by
  obtain ⟨hadded, rfl⟩ := ofTree_ok.mp h
  exact recorded_enterAll hadded

/-! ## The account of an identifier -/

/-- Where the table lists an identity as a declaration: the scopes and bindings, in their order. -/
def listings (t : ScopeTable) (id : NodeId) : List (Nat × Binding) :=
  ((List.range t.scopes.length).zip t.scopes).flatMap fun x =>
    (x.2.bindings.filter fun b => id ∈ b.identifiers).map fun b => (x.1, b)

/-- What the table has for the identifier at a place. -/
inductive Account (t : ScopeTable) (p : Place) : Prop where
  /-- It is recorded once as a reference. -/
  | reference (hrecorded : (t.references.map Reference.identifier).count p.node.id = 1)
      (hlisted : t.listings p.node.id = []) (hkey : ¬ p.IsKey)
  /-- It is listed once, in one binding of its name, in the scope that its form asks for. -/
  | declaration (hrecorded : p.node.id ∉ t.references.map Reference.identifier) (i : Nat) (b : Binding)
      (hlisted : t.listings p.node.id = [(i, b)]) (honce : b.identifiers.count p.node.id = 1)
      (hname : p.node.name? = some b.name) (hscope : t.DeclaredIn p i) (hkey : ¬ p.IsKey)
  /-- It is a name of a member or a key of an object. -/
  | key (hrecorded : p.node.id ∉ t.references.map Reference.identifier)
      (hlisted : t.listings p.node.id = []) (hkey : p.IsKey)

theorem mem_listings {id : NodeId} :
    (i, b) ∈ t.listings id ↔ ∃ s, t.scopes[i]? = some s ∧ b ∈ s.bindings ∧ id ∈ b.identifiers := by
  unfold listings
  rw [mem_flatMap]
  constructor
  · rintro ⟨⟨j, s⟩, hs, hb⟩
    obtain ⟨b', hb', heq⟩ := mem_map.mp hb
    obtain ⟨rfl, rfl⟩ := Prod.mk.inj heq
    obtain ⟨hb', hid⟩ := mem_filter.mp hb'
    exact ⟨s, mem_zip_range.mp hs, hb', of_decide_eq_true hid⟩
  · rintro ⟨s, hs, hb, hid⟩
    exact ⟨(i, s), mem_zip_range.mpr hs, mem_map_of_mem (mem_filter.mpr ⟨hb, decide_eq_true hid⟩)⟩

theorem Rooted.home_lt (h : t.Rooted) (p : Place) : t.home p < t.scopes.length := by
  unfold home
  split
  · exact h.length_pos
  · exact h.target_lt _ _

section

variable {root : Tree} {t : ScopeTable} {name : Text}

theorem identifiers_recorded (h : ofTree root = .ok t) :
    t.references.map Reference.identifier = (referring root.places).map fun p => p.node.id := by
  have hfst := congrArg (List.map Prod.fst) (recorded_ofTree h)
  rwa [map_map, map_map] at hfst

variable (hd : root.Distinct) (h : ofTree root = .ok t)
include hd h

theorem nodup_recorded : (t.references.map Reference.identifier).Nodup := by
  rw [identifiers_recorded h]
  have hnodup := hd.nodup
  rw [nodes, map_map] at hnodup
  exact hnodup.sublist (filter_sublist.map _)

theorem recorded_iff (hp : p ∈ root.places) (hid : p.node.is .identifier) :
    p.node.id ∈ t.references.map Reference.identifier ↔ p.isReference := by
  rw [identifiers_recorded h, mem_map]
  constructor
  · rintro ⟨q, hq, hsame⟩
    obtain ⟨hq, href⟩ := mem_filter.mp hq
    rw [← hd.place_eq hq hp hsame]
    exact (Bool.and_eq_true_iff.mp href).2
  · exact fun href => ⟨p, mem_filter.mpr ⟨hp, Bool.and_eq_true_iff.mpr ⟨hid, href⟩⟩, rfl⟩

theorem declares_of_listed (hp : p ∈ root.places) (hb : (i, b) ∈ t.listings p.node.id) :
    (∃ type, p.declares? = some type) ∧ p.node.name? = some b.name ∧ t.home p = i := by
  obtain ⟨s, hs, hb, hid⟩ := mem_listings.mp hb
  have ho := outlined_ofTree hd h
  rw [(ho.declared i s hs).identifiers hb] at hid
  obtain ⟨d, hmem, hsame⟩ := mem_map.mp hid
  obtain ⟨hmem, hname⟩ := mem_filter.mp hmem
  obtain ⟨q, hq, hdecl, hqname, hqid, hhome⟩ := (mem_declarationsIn_iff (ofTree_ok.mp h).1).mp
    ⟨d, hmem, of_decide_eq_true hname, hsame⟩
  obtain rfl := hd.place_eq hq hp hqid
  exact ⟨hdecl, hqname, hhome⟩

theorem listed_of_declares (hp : p ∈ root.places) (hdecl : ∃ type, p.declares? = some type)
    (hname : p.node.name? = some name) : ∃ b, b.name = name ∧ (t.home p, b) ∈ t.listings p.node.id := by
  have ho := outlined_ofTree hd h
  obtain ⟨d, hmem, rfl, hid⟩ := (mem_declarationsIn_iff (t := t) (ofTree_ok.mp h).1).mpr
    ⟨p, hp, hdecl, hname, rfl, rfl⟩
  obtain ⟨s, hs⟩ : ∃ s, t.scopes[t.home p]? = some s :=
    ⟨_, getElem?_eq_getElem (ho.rooted.home_lt p)⟩
  obtain ⟨b, hb, hbname, hlists⟩ := (ho.declared _ s hs).binding_of_declaration hmem
  exact ⟨b, hbname, mem_listings.mpr ⟨s, hs, hb, hid ▸ hlists⟩⟩

theorem nodup_listings (id : NodeId) : (t.listings id).Nodup := by
  have ho := outlined_ofTree hd h
  refine nodup_flatMap.mpr ⟨fun x hx => ?_, ?_⟩
  · have hnodup : x.2.bindings.Nodup := by
      have hnames := Declaration.nodup_names (t.declarationsIn root.places x.1)
      rw [← ho.declared x.1 x.2 (mem_zip_range.mp hx)] at hnames
      exact hnames.of_map _
    exact (hnodup.sublist filter_sublist).map fun b c hbc => (Prod.mk.inj hbc).2
  · have hfst : (((List.range t.scopes.length).zip t.scopes).map Prod.fst).Nodup := by
      rw [map_fst_zip (by simp)]
      exact nodup_range
    refine (pairwise_map.mp hfst).imp fun {x y} hne z hz hz' => ?_
    obtain ⟨b, -, rfl⟩ := mem_map.mp hz
    obtain ⟨c, -, heq⟩ := mem_map.mp hz'
    exact hne (Prod.mk.inj heq).1.symm

theorem listings_of_declares (hp : p ∈ root.places) (hdecl : ∃ type, p.declares? = some type)
    (hname : p.node.name? = some name) : ∃ b, b.name = name ∧ t.listings p.node.id = [(t.home p, b)] := by
  obtain ⟨b, hbname, hb⟩ := listed_of_declares hd h hp hdecl hname
  refine ⟨b, hbname, perm_singleton.mp ((perm_ext_iff_of_nodup (nodup_listings hd h _)
    (nodup_singleton _)).mpr fun ⟨j, c⟩ => ⟨fun hc => ?_, fun hc => mem_singleton.mp hc ▸ hb⟩)⟩
  obtain ⟨-, hcname, rfl⟩ := declares_of_listed hd h hp hc
  obtain ⟨s, hs, hb, -⟩ := mem_listings.mp hb
  obtain ⟨s', hs', hc, -⟩ := mem_listings.mp hc
  obtain rfl := Option.some.inj (hs.symm.trans hs')
  have hholds := (outlined_ofTree hd h).declared _ s hs
  have hsame : c.name = b.name := Option.some.inj (hcname.symm.trans (hname.trans (congrArg some hbname.symm)))
  have hfound := hholds.binding?_of_mem hc
  rw [hsame, hholds.binding?_of_mem hb] at hfound
  rw [Option.some.inj hfound]
  exact mem_singleton_self _

/-- The bindings of a scope list what they declare in the order of declarations. -/
theorem identifiers_pairwise {s : Scope} (hs : t.scopes[i]? = some s) (hb : b ∈ s.bindings) :
    b.identifiers.Pairwise fun x y => x ≠ y ∧ root.DeclaredBefore x y := by
  rw [((outlined_ofTree hd h).declared i s hs).identifiers hb]
  exact (declarations_pairwise hd (ofTree_ok.mp h).1 t i).sublist (filter_sublist.map _)

theorem identifiers_referencesTo (name : Text) : (t.referencesTo name).map Reference.identifier =
      (root.nodes.filter fun n =>
        n.name? = some name && n.id ∈ t.references.map Reference.identifier).map Tree.id := by
  have hpairs : (t.referencesTo name).map Reference.identifier =
      ((t.references.map fun r => (r.identifier, r.name)).filter fun x => x.2 = some name).map Prod.fst := by
    rw [filter_map, map_map]
    rfl
  rw [hpairs, recorded_ofTree h, filter_map, map_map, nodes, filter_map, map_map,
    referring, filter_filter]
  refine congrArg (List.map _) (filter_congr fun p hp => ?_)
  cases hid : p.node.is .identifier with
  | true =>
    have hrecorded : decide (p.node.id ∈ t.references.map Reference.identifier) = p.isReference := by
      rw [Bool.eq_iff_iff, decide_eq_true_iff]
      exact recorded_iff hd h hp hid
    simp only [Function.comp, Bool.true_and]
    rw [hrecorded]
  | false =>
    have hname : p.node.name? = none := by
      rw [name?, if_neg (by simp [hid])]
    simp [hname]

end

/-- **Every identifier is accounted for.** The identifiers of a binding are in the order of declarations, and
the references to a name in pre-order. -/
theorem identifiers_accounted (tree : Tree) (t : ScopeTable) (hsingle : tree.numbered.SingleFields)
    (h : ofTree tree.numbered = .ok t) :
    (∀ p ∈ tree.numbered.places, p.node.is .identifier → t.Account p) ∧
      (∀ (i : Nat) (s : Scope), t.scopes[i]? = some s → ∀ b ∈ s.bindings,
        b.identifiers.Pairwise tree.numbered.DeclaredBefore) ∧
      ∀ name, (t.referencesTo name).map Reference.identifier =
        (tree.numbered.nodes.filter fun n =>
          n.name? = some name && n.id ∈ t.references.map Reference.identifier).map Tree.id := by
  have hd := distinct_numbered tree
  have ho := outlined_ofTree hd h
  have hadd := (ofTree_ok.mp h).1
  refine ⟨fun p hp hid => ?_, fun i s hs b hb => (identifiers_pairwise hd h hs hb).imp And.right,
    identifiers_referencesTo hd h⟩
  have hrecorded := recorded_iff hd h hp hid
  have hunlisted (hno : ∀ type, p.declares? ≠ some type) : t.listings p.node.id = [] := by
    refine List.eq_nil_iff_forall_not_mem.mpr fun ⟨i, b⟩ hb => ?_
    obtain ⟨⟨type, htype⟩, -⟩ := declares_of_listed hd h hp hb
    exact hno type htype
  rcases position_cases hsingle hadd hp hid with href | hkey | ⟨⟨type, htype⟩, name, hname⟩
  · refine .reference (List.count_eq_one_of_mem (nodup_recorded hd h) (hrecorded.mpr href))
      (hunlisted fun type htype => ?_) fun hkey => ?_
    · rw [Place.not_reference_of_declares htype] at href
      cases href
    · rw [hkey.not_reference] at href
      cases href
  · refine .key (fun hmem => ?_) (hunlisted fun type htype => Place.not_key_of_declares htype hkey) hkey
    rw [hrecorded, hkey.not_reference] at hmem
    cases hmem
  · obtain ⟨b, rfl, hlistings⟩ := listings_of_declares hd h hp ⟨type, htype⟩ hname
    have hmem : (t.home p, b) ∈ t.listings p.node.id := hlistings ▸ List.mem_singleton_self _
    obtain ⟨s, hs, hb, hlists⟩ := mem_listings.mp hmem
    have hnodup : b.identifiers.Nodup := (identifiers_pairwise hd h hs hb).imp And.left
    refine .declaration (fun hmem => ?_) (t.home p) b hlistings (List.count_eq_one_of_mem hnodup hlists) hname
      (ho.declaredIn_home hp htype) (Place.not_key_of_declares htype)
    rw [hrecorded, Place.not_reference_of_declares htype] at hmem
    cases hmem

/-- A function whose first parameter has a default in which a variable is declared, and whose second
parameter has the name of that variable. -/
def declaredInDefault : Tree :=
  let name (text : Text) : Tree := .mk .identifier none [.text text]
  let other (type : Text) (fields : List Text) (slots : List Tree) : Tree :=
    .node {} (.other (.text type) fields) slots
  let declaration : Tree := .mk .variableDeclaration none
    [.list [.mk .variableDeclarator none [name "b", .null]], .text "var"]
  .mk .functionExpression none [.null, .list [other "AssignmentPattern" ["left", "right"] [name "a",
      other "ClassExpression" ["body"] [other "ClassBody" ["body"] [.list [other "StaticBlock" ["body"]
        [.list [declaration]]]]]], name "b"], .mk .blockStatement none [.list []]]

/-- The parameter comes first in the binding and last in the tree. -/
theorem identifiers_not_in_preorder :
    declaredInDefault.numbered.SingleFields ∧ ∃ t s b, ofTree declaredInDefault.numbered = .ok t ∧
      s ∈ t.scopes ∧ b ∈ s.bindings ∧
      ¬ b.identifiers.Sublist (declaredInDefault.numbered.nodes.map Tree.id) := by
  have hrun : (do
      let t ← ofTree declaredInDefault.numbered
      return decide (∃ s ∈ t.scopes, ∃ b ∈ s.bindings,
        ¬ b.identifiers.Sublist (declaredInDefault.numbered.nodes.map Tree.id))) = Except.ok true := by decide
  obtain ⟨t, ht, hrun⟩ := bind_ok.mp hrun
  obtain ⟨s, hs, b, hb, hnot⟩ := of_decide_eq_true (Except.ok.inj hrun)
  exact ⟨by decide, t, s, b, ht, hs, hb, hnot⟩

/-- There too the identifiers are accounted for. -/
theorem identifiers_accounted_declaredInDefault :
    declaredInDefault.numbered.SingleFields ∧ ∃ t, ofTree declaredInDefault.numbered = .ok t ∧
      (∀ p ∈ declaredInDefault.numbered.places, p.node.is .identifier → t.Account p) ∧
      t.scopes.map (fun s => s.bindings.map Binding.identifiers) = [[], [[.numbered 9, .numbered 8]]] ∧
      t.references.map Reference.identifier = [.numbered 2] := by
  have hsingle : declaredInDefault.numbered.SingleFields := by decide
  have hrun : (do
      let t ← ofTree declaredInDefault.numbered
      return decide (t.scopes.map (fun s => s.bindings.map Binding.identifiers) =
          [[], [[.numbered 9, .numbered 8]]] ∧ t.references.map Reference.identifier = [.numbered 2])) =
            Except.ok true := by decide
  obtain ⟨t, ht, hrun⟩ := bind_ok.mp hrun
  obtain ⟨hscopes, hreferences⟩ := of_decide_eq_true (Except.ok.inj hrun)
  exact ⟨hsingle, t, ht, (identifiers_accounted declaredInDefault t hsingle ht).1, hscopes, hreferences⟩

end ScopeTable

end ArrowFree
