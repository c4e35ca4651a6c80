import ArrowFree.Proofs.CounterpartAdditions
import ArrowFree.Proofs.Numbering

/-!
# The identifiers that declare

Every declaration of a place is made by an identifier in one of its child fields (`declaring`). The
field says for which scope the declaration is, and the identifier is no reference there. In a tree with
distinct nodes an identifier therefore declares for one scope, and is no reference if it declares.
-/

namespace ArrowFree

open ArrowFree.Tree Lowering List

variable {v t : Tree} {o : Occurrence} {name : Text} {fs : List Field} {ts ps : List Tree}

/-- The scope that an identifier in a field of the place declares for. -/
def Place.reachFrom (p : Place) (field : Text) : Reach :=
  if p.node.is .functionDeclaration && field = "id" then .variable
  else if p.node.is .variableDeclarator then
    if (p.parent?.bind fun parent => parent.attribute? "kind") = some (.text "var") then .variable
    else .innermost
  else .own

/-- An identifier in a field of the place that declares a name. -/
structure Declaring (p : Place) (reach : Reach) (name : Text) (type : BindingType)
    (owner identifier : NodeId) (o : Occurrence) : Prop where
  occurs : o ∈ p.node.occurrences
  isNode : o.tree.isNode
  name_eq : o.tree.name? = some name
  id_eq : o.tree.id = identifier
  not_reference : Place.isReference ⟨o.tree, o.step p.node :: p.path⟩ = false
  reach_eq : p.reachFrom o.field = reach
  parameter : type = .parameter → owner = identifier

/-! ## Fields -/

theorem occurrences_of_slot? (h : slot? name fs ts = some v) :
    ∃ f ∈ fs, f.name = name ∧ ∀ o ∈ occurrencesOf f v, o ∈ occurrencesIn fs ts := by
  induction fs generalizing ts with
  | nil => simp [slot?] at h
  | cons f fs ih =>
    cases ts with
    | nil => simp [slot?] at h
    | cons t ts =>
      simp only [slot?] at h
      rw [occurrencesIn_cons]
      by_cases hf : f.name = name
      · rw [if_pos hf] at h
        cases h
        exact ⟨f, mem_cons_self, hf, fun o ho => mem_append_left _ ho⟩
      · rw [if_neg hf] at h
        obtain ⟨g, hg, hname, hin⟩ := ih h
        exact ⟨g, mem_cons_of_mem _ hg, hname, fun o ho => mem_append_right _ (hin o ho)⟩

theorem occurrencesOf_get (h : t.get name = .ok v) (hname : name = "id" ∨ name = "params" ∨ name = "param") :
    ∃ f : Field, f.child ∧ f.name = name ∧ ∀ o ∈ occurrencesOf f v, o ∈ t.occurrences := by
  obtain ⟨i, k, slots, rfl, hslot⟩ := get_eq_ok h
  obtain ⟨f, hf, hfname, hin⟩ := occurrences_of_slot? hslot
  exact ⟨f, child_of_name hf (hfname ▸ hname), hfname, hin⟩

theorem slot?_of_occurrence (hnodup : (fs.map (·.name)).Nodup) (h : o ∈ occurrencesIn fs ts) :
    ∃ f v, slot? o.field fs ts = some v ∧ o ∈ occurrencesOf f v := by
  induction fs generalizing ts with
  | nil => simp at h
  | cons f fs ih =>
    cases ts with
    | nil => simp at h
    | cons t ts =>
      rw [map_cons, nodup_cons] at hnodup
      rw [occurrencesIn_cons, mem_append] at h
      rw [slot?]
      rcases h with h | h
      · rw [if_pos (field_of_mem_occurrencesOf h).symm]
        exact ⟨f, t, rfl, h⟩
      · obtain ⟨g, hg, hfield⟩ := field_of_mem_occurrencesIn h
        have hne : f.name ≠ o.field := by
          rw [hfield]
          exact fun heq => hnodup.1 (mem_map.mpr ⟨g, hg, heq.symm⟩)
        rw [if_neg hne]
        exact ih hnodup.2 h

theorem attribute?_of_occurrence {k : Kind} (hk : t.kind? = some k) (h : o ∈ t.occurrences) :
    ∃ f v, t.attribute? o.field = some v ∧ o ∈ occurrencesOf f v := by
  obtain ⟨i, slots, rfl⟩ := is_iff.mp (decide_eq_true hk : t.is k = true)
  exact slot?_of_occurrence k.names_layout h

theorem occurrencesOf_cases {f : Field} (h : o ∈ occurrencesOf f v) :
    (o.index = none ∧ v = o.tree) ∨
      ∃ items, v = .list items ∧ o.index.isSome ∧ o.tree ∈ items ∧ o ∈ itemsFrom f.name 0 items := by
  unfold occurrencesOf at h
  split at h
  · split at h
    · obtain ⟨-, ⟨n, hn⟩, htree⟩ := mem_itemsFrom h
      exact .inr ⟨_, rfl, by rw [hn]; rfl, htree, h⟩
    · rw [mem_singleton.mp h]
      exact .inl ⟨rfl, rfl⟩
  · cases h

theorem occurs_of_get (h : t.get name = .ok v) (hname : name = "id" ∨ name = "params" ∨ name = "param")
    (hv : v.isNode) : ⟨name, none, v⟩ ∈ t.occurrences := by
  obtain ⟨f, hchild, rfl, hin⟩ := occurrencesOf_get h hname
  exact hin _ (by rw [occurrencesOf_of_isNode hchild hv]; exact mem_singleton_self _)

theorem occurs_of_params {p : Tree} (h : t.get "params" = .ok v) (hiter : v.iterate = .ok ps) (hp : p ∈ ps)
    (hnode : p.isNode) : ∃ n, ⟨"params", some n, p⟩ ∈ t.occurrences := by
  obtain ⟨f, hchild, hname, hin⟩ := occurrencesOf_get h (Or.inr (Or.inl rfl))
  cases v with
  | list items =>
    obtain rfl := Except.ok.inj hiter
    obtain ⟨n, hn⟩ := exists_mem_itemsFrom f.name 0 hp
    refine ⟨n, hin _ ?_⟩
    unfold occurrencesOf
    rw [if_pos hchild, ← hname]
    exact hn
  | node i s slots => cases hiter
  | object fields =>
    obtain rfl := Except.ok.inj hiter
    obtain ⟨_, -, rfl⟩ := mem_map.mp hp
    cases hnode
  | scalar x =>
    cases x with
    | text t =>
      obtain rfl := Except.ok.inj hiter
      obtain ⟨_, -, rfl⟩ := mem_map.mp hp
      cases hnode
    | _ => cases hiter

theorem declares_ok {owner : Tree} {reach : Reach} {type : BindingType} {d : Addition}
    (h : t.declares reach type owner = .ok d) :
    ∃ name, d = .binding reach name type owner.id t.id ∧ t.name? = some name ∧ t.isNode := by
  obtain ⟨name, hname, rfl⟩ := map_ok.mp h
  obtain ⟨i, rest, rfl⟩ := declaredName_ok hname
  exact ⟨name, rfl, rfl, rfl⟩

/-! ## Places -/

section

variable {p : Place} {as : List Addition} {reach : Reach} {name : Text} {type : BindingType}
  {owner identifier : NodeId}

theorem isFunction_eq (t : Tree) : t.isFunction = (t.isOrdinaryFunction || t.isArrow) := by
  unfold Tree.isFunction Tree.isOrdinaryFunction Tree.isArrow
  cases t.kind? with
  | none => rfl
  | some k => rfl

theorem declaring_of_declares {declarer : Tree} {r : Reach} {ty : BindingType} {o : Occurrence}
    (h : (t.declares r ty declarer).map ([·]) = .ok as) (hx : .binding reach name type owner identifier ∈ as)
    (htree : o.tree = t) (hocc : t.isNode → o ∈ p.node.occurrences)
    (href : t.isNode → Place.isReference ⟨t, o.step p.node :: p.path⟩ = false)
    (hreach : p.reachFrom o.field = r) (hparameter : ty = .parameter → declarer = t) :
    Declaring p reach name type owner identifier o := by
  obtain ⟨d, hd, rfl⟩ := map_ok.mp h
  obtain ⟨name', rfl, hname, hnode⟩ := declares_ok hd
  cases mem_singleton.mp hx
  subst htree
  exact ⟨hocc hnode, hnode, hname, rfl, href hnode, hreach, fun ht => congrArg Tree.id (hparameter ht)⟩

theorem not_reference_of_function {n : Tree} {i : Option Nat} {field : Text} {π : Path} (ht : t.isFunction)
    (hfield : field = "id" ∨ field = "params") : Place.isReference ⟨n, ⟨t, field, i⟩ :: π⟩ = false := by
  unfold Place.isReference Place.reference Place.parent? Place.field?
  simp only [head?_cons, Option.map_some]
  rcases hfield with rfl | rfl
  · rw [if_neg (by simp +decide), if_pos (by simp [ht])]
    rfl
  · rw [if_neg (by simp +decide), if_pos (by simp [ht])]
    rfl

theorem declaring_outer (h : Place.outerName p.node = .ok as)
    (hx : .binding reach name type owner identifier ∈ as) :
    ∃ o, Declaring p reach name type owner identifier o := by
  unfold Place.outerName at h
  split at h
  · rename_i hk
    obtain ⟨v, hv, h⟩ := bind_ok.mp h
    obtain ⟨i, slots, hnode⟩ := is_iff.mp hk
    have hfun : p.node.isFunction := by rw [hnode]; rfl
    refine ⟨⟨"id", none, v⟩, declaring_of_declares h hx rfl (occurs_of_get hv (Or.inl rfl))
      (fun _ => not_reference_of_function hfun (Or.inl rfl)) ?_ nofun⟩
    unfold Place.reachFrom
    rw [if_pos (by simp [hk])]
  · cases h
    simp at hx

theorem declaring_inner (h : Place.innerName p.node = .ok as)
    (hx : .binding reach name type owner identifier ∈ as) :
    ∃ o, Declaring p reach name type owner identifier o := by
  unfold Place.innerName at h
  split at h
  · rename_i hk
    obtain ⟨v, hv, h⟩ := bind_ok.mp h
    obtain ⟨i, slots, hnode⟩ := is_iff.mp hk
    have hfun : p.node.isFunction := by rw [hnode]; rfl
    split at h
    · cases h
      simp at hx
    · refine ⟨⟨"id", none, v⟩, declaring_of_declares h hx rfl (occurs_of_get hv (Or.inl rfl))
        (fun _ => not_reference_of_function hfun (Or.inl rfl)) ?_ nofun⟩
      unfold Place.reachFrom
      rw [hnode]
      rfl
  · cases h
    simp at hx

theorem reachFrom_of_function (h : p.node.isFunction) : p.reachFrom "params" = .own := by
  have hdeclarator : p.node.is .variableDeclarator = false := by
    cases hd : p.node.is .variableDeclarator with
    | false => rfl
    | true =>
      obtain ⟨i, slots, hnode⟩ := is_iff.mp hd
      rw [hnode] at h
      cases h
  unfold Place.reachFrom
  rw [if_neg (by simp +decide), hdeclarator]
  rfl

theorem declaring_parameter (hfun : p.node.isFunction) (hv : p.node.get "params" = .ok v)
    (hiter : v.iterate = .ok ps) {qs : List Tree} (hqs : qs ⊆ ps) (h : Place.parameterAdditions qs = .ok as)
    (hx : .binding reach name type owner identifier ∈ as) :
    ∃ o, Declaring p reach name type owner identifier o := by
  induction qs generalizing as with
  | nil =>
    cases h
    simp at hx
  | cons q qs ih =>
    obtain ⟨here, hhere, h⟩ := bind_ok.mp h
    obtain ⟨rest, hrest, h⟩ := bind_ok.mp h
    cases h
    rcases mem_append.mp hx with hx | hx
    · unfold Place.parameterAddition at hhere
      split at hhere
      · rename_i hid
        have hnode : q.isNode := by
          obtain ⟨i, slots, rfl⟩ := is_iff.mp hid
          rfl
        obtain ⟨n, hn⟩ := occurs_of_params hv hiter (hqs mem_cons_self) hnode
        exact ⟨⟨"params", some n, q⟩, declaring_of_declares hhere hx rfl (fun _ => hn)
          (fun _ => not_reference_of_function hfun (Or.inr rfl)) (reachFrom_of_function hfun)
          fun _ => rfl⟩
      · cases hhere
        simp at hx
    · exact ih (fun _ hq => hqs (mem_cons_of_mem _ hq)) hrest hx

theorem declaring_function {kind : ScopeKind} (hfun : p.node.isFunction)
    (h : Place.functionAdditions kind p.node = .ok as)
    (hx : .binding reach name type owner identifier ∈ as) :
    ∃ o, Declaring p reach name type owner identifier o := by
  obtain ⟨outside, houtside, h⟩ := bind_ok.mp h
  obtain ⟨inside, hinside, h⟩ := bind_ok.mp h
  obtain ⟨v, hv, h⟩ := bind_ok.mp h
  obtain ⟨ps, hps, h⟩ := bind_ok.mp h
  obtain ⟨params, hparams, h⟩ := bind_ok.mp h
  cases h
  rcases mem_append.mp hx with hx | hx
  · exact declaring_outer houtside hx
  · rcases mem_cons.mp hx with hx | hx
    · cases hx
    · rcases mem_append.mp hx with hx | hx
      · exact declaring_inner hinside hx
      · exact declaring_parameter hfun hv hps (List.Subset.refl _) hparams hx

theorem declaring_catch (hk : p.node.is .catchClause) (h : Place.catchAdditions p.node = .ok as)
    (hx : .binding reach name type owner identifier ∈ as) :
    ∃ o, Declaring p reach name type owner identifier o := by
  obtain ⟨v, hv, h⟩ := bind_ok.mp h
  obtain ⟨i, slots, hnode⟩ := is_iff.mp hk
  split at h
  · obtain ⟨d, hd, rfl⟩ := map_ok.mp h
    rcases mem_cons.mp hx with hx | hx
    · cases hx
    · refine ⟨⟨"param", none, v⟩, declaring_of_declares (map_ok.mpr ⟨d, hd, rfl⟩) hx rfl
        (occurs_of_get hv (Or.inr (Or.inr rfl))) (fun _ => ?_) ?_ nofun⟩
      · rw [hnode]
        rfl
      · unfold Place.reachFrom
        rw [hnode]
        rfl
  · cases h
    simp at hx

theorem declaring_declarator (hk : p.node.is .variableDeclarator) (hv : p.node.attribute? "id" = some v)
    (h : p.declaratorAdditions v = .ok as) (hx : .binding reach name type owner identifier ∈ as) :
    ∃ o, Declaring p reach name type owner identifier o := by
  obtain ⟨i, slots, hnode⟩ := is_iff.mp hk
  have hget : p.node.get "id" = .ok v := by rw [Tree.get, hv]
  have href : Place.isReference ⟨v, ⟨p.node, "id", none⟩ :: p.path⟩ = false := by
    rw [hnode]
    rfl
  unfold Place.declaratorAdditions at h
  cases hparent : p.parent? with
  | none =>
    rw [hparent] at h
    cases h
  | some parent =>
    rw [hparent] at h
    obtain ⟨kind, hkind, h⟩ := bind_ok.mp h
    have hattribute : parent.attribute? "kind" = some kind := by
      unfold Tree.get at hkind
      split at hkind
      · cases hkind
        assumption
      · cases hkind
    have hreach : p.reachFrom "id" = if kind = .text "var" then .variable else .innermost := by
      unfold Place.reachFrom
      rw [hparent, Option.bind_some, hattribute, hk, hnode]
      simp only [Option.some.injEq]
      rfl
    split at h
    · rename_i hvar
      rw [if_pos hvar] at hreach
      exact ⟨⟨"id", none, v⟩, declaring_of_declares h hx rfl (occurs_of_get hget (Or.inl rfl))
        (fun _ => href) hreach (by simp)⟩
    · rename_i hvar
      rw [if_neg hvar] at hreach
      exact ⟨⟨"id", none, v⟩, declaring_of_declares h hx rfl (occurs_of_get hget (Or.inl rfl))
        (fun _ => href) hreach (by simp)⟩

/-- **Declarations are made by identifiers.** -/
theorem declaring (hp : p.additions = .ok p.added)
    (hx : .binding reach name type owner identifier ∈ p.added) :
    ∃ o, Declaring p reach name type owner identifier o := by
  have hfun : ∀ {kind}, p.opens? = some kind → kind ≠ .block → p.node.isFunction := by
    intro kind ho hkind
    rw [isFunction_eq]
    rcases opens?_eq_some ho with ⟨harrow, -⟩ | ⟨hordinary, -⟩ | hblock
    · rw [harrow, Bool.or_true]
    · rw [hordinary, Bool.true_or]
    · exact absurd hblock hkind
  unfold Place.additions at hp
  cases ho : p.opens? with
  | none =>
    rw [ho] at hp
    simp only at hp
    split at hp
    · rename_i v hv
      split at hp
      · rename_i hk
        rw [Bool.and_eq_true] at hk
        exact declaring_declarator hk.1 hv hp hx
      · rw [← Except.ok.inj hp] at hx
        simp at hx
    · split at hp
      · rw [← Except.ok.inj hp] at hx
        simp at hx
      · rw [← Except.ok.inj hp] at hx
        simp at hx
  | some kind =>
    rw [ho] at hp
    cases kind with
    | block =>
      simp only at hp
      split at hp
      · rename_i hk
        exact declaring_catch hk hp hx
      · rw [← Except.ok.inj hp] at hx
        simp at hx
    | program | function | arrow => exact declaring_function (hfun ho nofun) hp hx

end

end ArrowFree
