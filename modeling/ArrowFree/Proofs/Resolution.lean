import ArrowFree.Lowering.Analysis
import ArrowFree.Proofs.Contents

/-!
# How `arguments` is resolved

A walk outwards passes blocks and arrows that declare no `arguments` and stops at the first other scope
(`resolveFrom_iff`). Seen from a place, the scopes that it passes are those of the nodes around the
place, so that an arrow on the way is an arrow around the place with no ordinary function in between
(`arrow_of_resolution`), and a reference that such an arrow collects is resolved to the function that owns
the arrow (`target_of_collected`).
-/

namespace ArrowFree

open List

/-- The variable `arguments` that a scope declares. The name of a function expression is none. -/
def Scope.ownArguments? (s : Scope) : Option Binding :=
  (s.binding? Lowering.argumentsName).filter fun b => b.type ≠ .functionName

/-- A scope that a walk for `arguments` passes. -/
def Scope.Passes (s : Scope) : Prop := s.isTransparent = true ∧ s.ownArguments? = none

namespace Lowering

open ArrowFree.Tree ScopeTable

variable {ss : List (Nat × Scope)} {n : Tree} {refs : List Tree} {p : Place}
  {target : Option NodeId}

/-! ## The walk -/

variable {scopes : ScopeTable} {r : Resolution} {i : Nat} {arrow : Tree}

theorem resolveAlong_cons (arrow : Option NodeId) (i : Nat) (s : Scope) (rest : List (Nat × Scope)) :
    resolveAlong arrow ((i, s) :: rest) =
      match s.ownArguments? with
      | some b => some ⟨i, some b, arrow⟩
      | none =>
        if s.isTransparent then resolveAlong (arrow.or (if s.kind = .arrow then some s.node else none)) rest
        else some ⟨i, none, arrow⟩ := by
  rw [resolveAlong]
  show (match s.ownArguments? with | some b => _ | none => _) = _
  cases s.ownArguments? with
  | some b => rfl
  | none =>
    cases s.isTransparent with
    | false => rfl
    | true => cases arrow <;> rfl

/-- The first arrow among some scopes. -/
def firstArrow (ss : List (Nat × Scope)) : Option NodeId :=
  (ss.find? fun x => x.2.kind = .arrow).map fun x => x.2.node

theorem firstArrow_cons (x : Nat × Scope) (ss : List (Nat × Scope)) : firstArrow (x :: ss) =
      (if x.2.kind = .arrow then some x.2.node else none).or (firstArrow ss) := by
  unfold firstArrow
  by_cases h : x.2.kind = .arrow
  · rw [find?_cons_of_pos (by simpa using h), if_pos h]
    rfl
  · rw [find?_cons_of_neg (by simpa using h), if_neg h]
    rfl

theorem firstArrow_eq_none : firstArrow ss = none ↔ ∀ x ∈ ss, x.2.kind ≠ .arrow := by
  simp [firstArrow]

/-- **The walk for `arguments`.** -/
theorem resolveAlong_iff {arrow : Option NodeId} :
    resolveAlong arrow ss = some r ↔
      ∃ pre s post, ss = pre ++ (r.scope, s) :: post ∧ (∀ x ∈ pre, x.2.Passes) ∧ ¬ s.Passes ∧
        r.binding = s.ownArguments? ∧ r.arrow = arrow.or (firstArrow pre) := by
  induction ss generalizing arrow with
  | nil =>
    constructor
    · nofun
    · rintro ⟨pre, s, post, heq, -⟩
      simp at heq
  | cons x rest ih =>
    obtain ⟨i, s⟩ := x
    rw [resolveAlong_cons]
    by_cases hpass : s.Passes
    · rw [hpass.2]
      simp only
      rw [if_pos hpass.1, ih]
      constructor
      · rintro ⟨pre, s', post, rfl, hpre, hs', hb, harrow⟩
        refine ⟨(i, s) :: pre, s', post, rfl, forall_mem_cons.mpr ⟨hpass, hpre⟩, hs', hb, ?_⟩
        rw [harrow, firstArrow_cons, Option.or_assoc]
      · rintro ⟨pre, s', post, heq, hpre, hs', hb, harrow⟩
        cases pre with
        | nil =>
          obtain ⟨hx, -⟩ := cons.inj heq
          exact absurd ((Prod.mk.inj hx).2 ▸ hpass) hs'
        | cons y pre =>
          cases heq
          refine ⟨pre, s', post, rfl, (forall_mem_cons.mp hpre).2, hs', hb, ?_⟩
          rw [harrow, firstArrow_cons, Option.or_assoc]
    · have hstop : (match s.ownArguments? with
          | some b => some ⟨i, some b, arrow⟩
          | none =>
            if s.isTransparent then
              resolveAlong (arrow.or (if s.kind = .arrow then some s.node else none)) rest
            else some ⟨i, none, arrow⟩) = some (⟨i, s.ownArguments?, arrow⟩ : Resolution) := by
        cases hown : s.ownArguments? with
        | some b => rfl
        | none => exact if_neg fun htransparent => hpass ⟨htransparent, hown⟩
      rw [hstop]
      constructor
      · rintro ⟨⟩
        exact ⟨[], s, rest, rfl, by simp, hpass, rfl, by simp [firstArrow]⟩
      · rintro ⟨pre, s', post, heq, hpre, hs', hb, harrow⟩
        cases pre with
        | nil =>
          cases heq
          rw [← hb]
          simp only [firstArrow, find?_nil, Option.map_none, Option.or_none] at harrow
          rw [← harrow]
        | cons y pre =>
          cases heq
          exact absurd (hpre _ mem_cons_self) hpass

theorem resolveFrom_ok : resolveFrom scopes i = .ok r ↔ resolveAlong none (scopes.scopesOn i) = some r := by
  unfold resolveFrom
  cases resolveAlong none (scopes.scopesOn i) with
  | none => exact ⟨nofun, nofun⟩
  | some r' => exact ⟨fun h => congrArg some (Except.ok.inj h), fun h => congrArg _ (Option.some.inj h)⟩

theorem resolveFrom_iff : resolveFrom scopes i = .ok r ↔
      ∃ pre s post, scopes.scopesOn i = pre ++ (r.scope, s) :: post ∧ (∀ x ∈ pre, x.2.Passes) ∧
        ¬ s.Passes ∧ r.binding = s.ownArguments? ∧ r.arrow = firstArrow pre := by
  rw [resolveFrom_ok, resolveAlong_iff]
  simp only [Option.none_or]

/-- Every walk ends, at the program if not before. -/
theorem exists_resolveFrom (h : scopes.Rooted) (hi : i < scopes.scopes.length) :
    ∃ r, resolveFrom scopes i = .ok r := by
  have halong : ∀ arrow, ∃ r, resolveAlong arrow (scopes.scopesOn i) = some r := by
    refine h.induction (P := fun i => ∀ arrow, ∃ r, resolveAlong arrow (scopes.scopesOn i) = some r)
      ?_ ?_ hi
    · intro arrow
      obtain ⟨s, -, hkind, hon⟩ := h.scopesOn_zero
      rw [hon, resolveAlong]
      split
      · exact ⟨_, rfl⟩
      · rw [if_pos (by simp [Scope.isTransparent, hkind])]
        exact ⟨_, rfl⟩
    · intro i p s hs hp ih arrow
      rw [h.scopesOn_succ hs hp, resolveAlong]
      split
      · exact ⟨_, rfl⟩
      · split
        · exact ⟨_, rfl⟩
        · exact ih _
  obtain ⟨r, hr⟩ := halong none
  exact ⟨r, by rw [resolveFrom, hr]⟩

/-- What does not come from a scope of its own comes from a function or from the program. -/
theorem reaches_of_none (h : resolveFrom scopes i = .ok r) (hnone : r.binding = none) : r.reachesFunction scopes := by
  obtain ⟨pre, s, post, heq, -, hstop, hb, -⟩ := resolveFrom_iff.mp h
  have hs : scopes.scopes[r.scope]? = some s := (scope_of_split heq).1
  have htransparent : s.isTransparent = false := by
    rw [← Bool.not_eq_true]
    exact fun ht => hstop ⟨ht, hb.symm.trans hnone⟩
  unfold Resolution.reachesFunction
  rw [hs]
  simp only
  rw [if_neg (by simp [htransparent]), hnone]
  cases s.kind <;> rfl

/-- What comes from a function or from the program comes from the owner of the scope. -/
theorem owner?_of_reaches (h : resolveFrom scopes i = .ok r) (hreach : r.reachesFunction scopes) :
    scopes.owner? i = some r.scope := by
  obtain ⟨pre, s, post, heq, hpre, -, -, -⟩ := resolveFrom_iff.mp h
  have hs : scopes.scopes[r.scope]? = some s := (scope_of_split heq).1
  have htransparent : s.isTransparent = false := by
    unfold Resolution.reachesFunction at hreach
    rw [hs] at hreach
    simp only at hreach
    split at hreach
    · cases hreach
    · simpa using ‹¬s.isTransparent = true›
  unfold owner?
  rw [heq, find?_append, find?_eq_none.mpr fun x hx => by simp [(hpre x hx).1],
    Option.none_or, find?_cons_of_pos (by simp [htransparent])]
  rfl

/-! ## Arrows around a place -/

section

variable {t : ScopeTable} {known : List Place} (h : t.Outlined known)
variable {s : Step} {π q ρ : Path}
include h

/-- Only an ordinary function has an `arguments` of its own. -/
theorem owner?_step (hs : ⟨s.owner, π⟩ ∈ known) (hno : s.owner.isOrdinaryFunction = false) :
    t.owner? (t.enclosing (s :: π)) = t.owner? (t.enclosing π) := by
  cases ho : Place.opens? ⟨s.owner, π⟩ with
  | none => rw [enclosing_of_not_opens ho]
  | some kind =>
    obtain ⟨sc, -, hkind, -, hon⟩ := h.scopesOn_opens hs ho
    have htransparent : sc.isTransparent := by
      unfold Scope.isTransparent
      rw [hkind]
      rcases opens?_eq_some ho with ⟨-, rfl⟩ | ⟨hordinary, -⟩ | rfl
      · rfl
      · rw [hno] at hordinary
        cases hordinary
      · rfl
    unfold owner?
    rw [hon, find?_cons_of_neg (by simp [htransparent])]

theorem owner?_path (hk : Path.Known known (q ++ π)) (hno : ∀ s ∈ q, s.owner.isOrdinaryFunction = false) :
    t.owner? (t.enclosing (q ++ π)) = t.owner? (t.enclosing π) := by
  induction q with
  | nil => rfl
  | cons s q ih =>
    refine (owner?_step h (π := q ++ π) hk.1 (hno s mem_cons_self)).trans ?_
    exact ih hk.2 fun s' hs' => hno s' (mem_cons_of_mem _ hs')

/-- The scopes up to an arrow around a place, with no ordinary function in between. -/
theorem scopesOn_arrow (hk : Path.Known known (q ++ s :: ρ)) (hs : s.owner.isArrow)
    (hno : ∀ s' ∈ q, s'.owner.isOrdinaryFunction = false) :
    ∃ inner sa, t.scopesOn (t.enclosing (q ++ s :: ρ)) =
        inner ++ (t.number s.owner.id, sa) :: t.scopesOn (t.enclosing ρ) ∧
      sa.kind = .arrow ∧ ∀ x ∈ inner, x.2.isTransparent := by
  induction q with
  | nil =>
    obtain ⟨sa, -, hkind, -, hon⟩ := h.scopesOn_opens hk.1 (if_pos hs)
    exact ⟨[], sa, hon, hkind, nofun⟩
  | cons s' q ih =>
    obtain ⟨inner, sa, hon, hkind, hinner⟩ := ih hk.2 fun s hs => hno s (.tail _ hs)
    rw [cons_append]
    cases ho : Place.opens? ⟨s'.owner, q ++ s :: ρ⟩ with
    | none =>
      rw [enclosing_of_not_opens ho]
      exact ⟨inner, sa, hon, hkind, hinner⟩
    | some kind =>
      obtain ⟨sc, -, rfl, -, hon'⟩ := h.scopesOn_opens (π := q ++ s :: ρ) hk.1 ho
      refine ⟨(t.number s'.owner.id, sc) :: inner, sa, by rw [hon', hon]; rfl, hkind, fun x hx => ?_⟩
      rcases mem_cons.mp hx with rfl | hx
      · rcases opens?_eq_some ho with ⟨-, hsc⟩ | ⟨hordinary, -⟩ | hsc
        · simp [Scope.isTransparent, hsc]
        · rw [hno s' mem_cons_self] at hordinary
          cases hordinary
        · simp [Scope.isTransparent, hsc]
      · exact hinner x hx

/-- A walk out of an arrow to a function or to the program passes an arrow. -/
theorem passes_arrow (hk : Path.Known known (q ++ s :: ρ)) (hs : s.owner.isArrow)
    (hno : ∀ s' ∈ q, s'.owner.isOrdinaryFunction = false)
    (hr : resolveFrom t (t.enclosing (q ++ s :: ρ)) = .ok r) (hreach : r.reachesFunction t) :
    r.arrow.isSome := by
  obtain ⟨pre, sc, post, heq, -, -, -, hfirst⟩ := resolveFrom_iff.mp hr
  obtain ⟨inner, sa, hon, hkind, hinner⟩ := scopesOn_arrow h hk hs hno
  have hopaque : sc.isTransparent = false := by
    unfold Resolution.reachesFunction at hreach
    rw [(scope_of_split heq).1] at hreach
    cases htransparent : sc.isTransparent with
    | false => rfl
    | true => simp [htransparent] at hreach
  have hpassed : (t.number s.owner.id, sa) ∈ pre := by
    rw [hon] at heq
    rcases append_eq_append_iff.mp heq with ⟨c, rfl, hc⟩ | ⟨c, rfl, hc⟩
    · cases c with
      | nil =>
        obtain ⟨-, rfl⟩ := Prod.mk.inj (cons.inj hc).1
        simp [Scope.isTransparent, hkind] at hopaque
      | cons x c =>
        rw [(cons.inj hc).1]
        simp
    · cases c with
      | nil =>
        obtain ⟨-, rfl⟩ := Prod.mk.inj (cons.inj hc).1
        simp [Scope.isTransparent, hkind] at hopaque
      | cons x c =>
        have := hinner x (by simp)
        rw [← (cons.inj hc).1, hopaque] at this
        cases this
  rw [hfirst, ← Option.ne_none_iff_isSome]
  exact fun hnone => firstArrow_eq_none.mp hnone _ hpassed hkind

/-- An arrow that a walk passes is around the place, with no ordinary function in between. -/
theorem arrow_of_resolution (hk : π.Known known) {arrow : NodeId}
    (hr : resolveAlong none (t.scopesOn (t.enclosing π)) = some r) (harrow : r.arrow = some arrow) :
    ∃ q s ρ, π = q ++ s :: ρ ∧ s.owner.isArrow ∧ ∀ s' ∈ q, s'.owner.isOrdinaryFunction = false := by
  induction π with
  | nil =>
    obtain ⟨s, -, hkind, hon⟩ := h.rooted.scopesOn_zero
    change resolveAlong none (t.scopesOn 0) = some r at hr
    rw [hon, resolveAlong_cons] at hr
    split at hr
    · cases hr
      cases harrow
    · rw [if_neg (by simp [Scope.isTransparent, hkind])] at hr
      cases hr
      cases harrow
  | cons s π ih =>
    have hfurther : resolveAlong none (t.scopesOn (t.enclosing π)) = some r →
        s.owner.isOrdinaryFunction = false → ∃ q s' ρ, s :: π = q ++ s' :: ρ ∧ s'.owner.isArrow ∧
          ∀ s'' ∈ q, s''.owner.isOrdinaryFunction = false := by
      intro hr hno
      obtain ⟨q, s', ρ, rfl, hs', hq⟩ := ih hk.2 hr
      exact ⟨s :: q, s', ρ, rfl, hs', forall_mem_cons.mpr ⟨hno, hq⟩⟩
    have hno : ∀ {o}, Place.opens? ⟨s.owner, π⟩ = o → o ≠ some .function →
        s.owner.isOrdinaryFunction = false := by
      intro o ho hne
      rw [← Bool.not_eq_true]
      exact fun hordinary => hne (ho.symm.trans (opens?_of_ordinary hordinary π))
    cases ho : Place.opens? ⟨s.owner, π⟩ with
    | none =>
      rw [enclosing_of_not_opens ho] at hr
      exact hfurther hr (hno ho (by decide))
    | some kind =>
      obtain ⟨sc, -, hkind, -, hon⟩ := h.scopesOn_opens hk.1 ho
      rw [hon, resolveAlong_cons] at hr
      split at hr
      · cases hr
        cases harrow
      · split at hr
        · rcases opens?_eq_some ho with ⟨hs, -⟩ | ⟨-, rfl⟩ | rfl
          · exact ⟨[], s, π, rfl, hs, by simp⟩
          · rename_i htransparent
            simp [Scope.isTransparent, hkind] at htransparent
          · rw [if_neg (by simp [hkind])] at hr
            exact hfurther hr (hno ho (by decide))
        · cases hr
          cases harrow

end

/-! ## Collected references -/

theorem resolve_ok (h : resolve scopes n = .ok r) :
    ∃ ref ∈ scopes.references, ref.identifier = n.id ∧ resolveFrom scopes ref.scope = .ok r := by
  unfold resolve referenceScope at h
  obtain ⟨i, hi, h⟩ := bind_ok.mp h
  cases hf : scopes.reference? n.id with
  | none =>
    rw [hf] at hi
    simp only at hi
    obtain ⟨name, -, hi⟩ := bind_ok.mp hi
    cases hi
  | some ref =>
    rw [hf] at hi
    cases hi
    exact ⟨ref, mem_of_find?_eq_some hf, by simpa using find?_some hf, h⟩

theorem mem_collected (h : collectReferences scopes arrow = .ok refs) (hn : n ∈ refs) :
    ∃ p ∈ ownPlaces arrow, p.node = n ∧ n.name? = some argumentsName ∧
      ∃ r, resolve scopes n = .ok r ∧ r.reachesFunction scopes := by
  obtain ⟨p, hp, hf⟩ := (filterMapM_ok h).2 n hn
  split at hf
  · rename_i hname
    simp only [Bool.and_eq_true, decide_eq_true_eq] at hname
    obtain ⟨r, hr, hf⟩ := bind_ok.mp hf
    have hf := Except.ok.inj hf
    split at hf
    · rename_i hreach
      cases hf
      exact ⟨p, hp, rfl, hname.1, r, hr, hreach⟩
    · cases hf
  · cases hf

theorem collected_of_place (h : collectReferences scopes arrow = .ok refs) (hp : p ∈ ownPlaces arrow)
    (hname : p.node.name? = some argumentsName) (href : p.isReference) :
    ∃ r, resolve scopes p.node = .ok r ∧ (r.reachesFunction scopes → p.node ∈ refs) := by
  obtain ⟨o, ho, hin⟩ := (filterMapM_ok h).1 p hp
  rw [if_pos (by simp [hname, href])] at ho
  obtain ⟨r, hr, ho⟩ := bind_ok.mp ho
  refine ⟨r, hr, fun hreach => hin _ ?_⟩
  rw [← Except.ok.inj ho, if_pos hreach]

/-- The function that an arrow takes `arguments` from is the one that owns its scope. -/
theorem owner?_of_hoistTarget (h : hoistTarget scopes arrow = .ok target) :
    ∃ i s, scopes.owner? (scopes.number arrow.id) = some i ∧ scopes.scopes[i]? = some s ∧
      target = if s.kind = .program then none else some s.node := by
  obtain ⟨i, hi, h⟩ := bind_ok.mp h
  have hnumber : scopes.number arrow.id = i := by
    unfold scopeOf at hi
    unfold number
    split at hi
    · rename_i heq
      rw [heq, ← Except.ok.inj hi]
      rfl
    · cases hi
  split at h
  · rename_i owner heq
    obtain ⟨j, hj, hs⟩ := Option.bind_eq_some_iff.mp heq
    exact ⟨j, owner, hnumber ▸ hj, hs, (Except.ok.inj h).symm⟩
  · cases h

section

variable {root : Tree} {t : ScopeTable} (hd : root.Distinct) (h : t.Outlined root.places)
variable {arrow : Tree} {π : Path}
include hd h

omit h in
theorem under_of_ownPlaces (harrow : ⟨arrow, π⟩ ∈ root.places) (hisArrow : arrow.isArrow)
    (hp : p ∈ ownPlaces arrow) :
    p.under π ∈ root.places ∧ ∀ s ∈ p.path, s.owner.isOrdinaryFunction = false := by
  obtain ⟨hplace, hskip⟩ := mem_placesAt_skip.mp hp
  have hunder := under_mem_places harrow hplace
  refine ⟨hunder, fun s hs => ?_⟩
  obtain ⟨q, ρ, hpath⟩ := append_of_mem hs
  by_cases hid : s.owner.id = arrow.id
  · have howner : ⟨s.owner, ρ ++ π⟩ ∈ root.places := by
      refine owner_mem_places (n := p.node) (q := q) ?_
      have heq : p.under π = ⟨p.node, q ++ s :: (ρ ++ π)⟩ := by
        rw [Place.under, hpath, append_assoc]
        rfl
      exact heq ▸ hunder
    have hsame : s.owner = arrow := hd.node_eq (node_mem_nodes howner) (node_mem_nodes harrow) hid
    rw [hsame]
    exact not_ordinary_of_isArrow hisArrow
  · simpa [hid] using hskip s hs

omit hd in
theorem owner?_number (harrow : ⟨arrow, π⟩ ∈ root.places) (hisArrow : arrow.isArrow) :
    t.owner? (t.number arrow.id) = t.owner? (t.enclosing π) := by
  have hopens : Place.opens? ⟨arrow, π⟩ = some .arrow := if_pos hisArrow
  have hstep := owner?_step h (s := ⟨arrow, [], none⟩) harrow (not_ordinary_of_isArrow hisArrow)
  rwa [enclosing_cons, hopens, Option.isSome_some, if_pos rfl] at hstep

/-- The function that owns an arrow owns the scopes inside of it, those of functions apart. -/
theorem owner?_arrow (harrow : ⟨arrow, π⟩ ∈ root.places) (hisArrow : arrow.isArrow) (hp : p ∈ ownPlaces arrow) :
    t.owner? (t.enclosing (p.under π).path) = t.owner? (t.number arrow.id) := by
  obtain ⟨hunder, hno⟩ := under_of_ownPlaces hd harrow hisArrow hp
  rw [owner?_number h harrow hisArrow]
  exact owner?_path h (h.closed _ hunder) hno

/-- **Collected references** are resolved to the function that owns the arrow, or to the program. -/
theorem target_of_collected (hmem : arrow ∈ root.nodes) (hisArrow : arrow.isArrow)
    (hrefs : collectReferences t arrow = .ok refs) (htarget : hoistTarget t arrow = .ok target)
    (hn : n ∈ refs) :
    ∃ ref ∈ t.references, ref.identifier = n.id ∧ ref.name = some argumentsName ∧
      ∃ r s, resolveFrom t ref.scope = .ok r ∧ r.reachesFunction t ∧ t.scopes[r.scope]? = some s ∧
        (target = if s.kind = .program then none else some s.node) ∧ r.arrow.isSome := by
  obtain ⟨p, hp, rfl, hname, r, hresolve, hreach⟩ := mem_collected hrefs hn
  obtain ⟨ref, href, hid, hr⟩ := resolve_ok hresolve
  obtain ⟨π, harrow⟩ : ∃ π, ⟨arrow, π⟩ ∈ root.places := by
    obtain ⟨q, hq, rfl⟩ := mem_map.mp hmem
    exact ⟨q.path, hq⟩
  obtain ⟨hunder, hno⟩ := under_of_ownPlaces hd harrow hisArrow hp
  obtain ⟨q, hq, -, -, rfl⟩ := h.references ref href
  obtain rfl : q = p.under π := hd.place_eq hq hunder hid
  have hpassed : r.arrow.isSome := by
    rcases mem_places_iff.mp (mem_placesAt_skip.mp hp).1 with ⟨-, rfl⟩ | ⟨o, -, q, -, rfl⟩
    · -- the arrow is no identifier
      change (if arrow.is .identifier then _ else none) = _ at hname
      split at hname
      · rename_i hident
        rw [isArrow, of_decide_eq_true hident] at hisArrow
        cases hisArrow
      · cases hname
    · have hpath : ((q.under [o.step arrow]).under π).path = q.path ++ o.step arrow :: π :=
        append_assoc ..
      rw [hpath] at hr
      refine passes_arrow h (hpath ▸ h.closed _ hunder) hisArrow (fun s hs => hno s ?_) hr hreach
      exact mem_append_left _ hs
  have howner := owner?_of_reaches hr hreach
  rw [owner?_arrow hd h harrow hisArrow hp] at howner
  obtain ⟨i, s, hi, hs, rfl⟩ := owner?_of_hoistTarget htarget
  obtain rfl : i = r.scope := Option.some.inj (hi.symm.trans howner)
  exact ⟨_, href, rfl, hname, r, s, hr, hreach, hs, rfl, hpassed⟩

/-- A reference that is carried past an arrow is collected by one. -/
theorem collected_of_reference {ref : Reference} (href : ref ∈ t.references)
    (hname : ref.name = some argumentsName) {arrow : NodeId} (hr : resolveFrom t ref.scope = .ok r)
    (harrow : r.arrow = some arrow) (hreach : r.reachesFunction t) :
    ∃ a ∈ root.nodes, a.isArrow ∧ ∀ refs, collectReferences t a = .ok refs →
      ref.identifier ∈ refs.map Tree.id := by
  obtain ⟨p, hp, -, hisRef, rfl⟩ := h.references ref href
  obtain ⟨q, s, ρ, hpath, hs, hq⟩ :=
    arrow_of_resolution h (h.closed p hp) (resolveFrom_ok.mp hr) harrow
  have hplace : ⟨p.node, q ++ s :: ρ⟩ ∈ root.places := hpath ▸ hp
  have howner := owner_mem_places hplace
  refine ⟨s.owner, node_mem_nodes howner, hs, fun refs hrefs => ?_⟩
  have hown : ⟨p.node, q ++ [s]⟩ ∈ ownPlaces s.owner := by
    refine mem_placesAt_skip.mpr ⟨mem_owner_places hplace, fun s' hs' => ?_⟩
    rcases mem_append.mp hs' with hs' | hs'
    · simp [hq s' hs']
    · simp [mem_singleton.mp hs']
  have hhead : Place.isReference ⟨p.node, q ++ [s]⟩ = p.isReference := by
    obtain ⟨n, π⟩ := p
    obtain rfl : π = q ++ s :: ρ := hpath
    cases q with
    | nil | cons => rfl
  obtain ⟨r', hresolve, hin⟩ := collected_of_place hrefs hown hname (hhead ▸ hisRef)
  obtain ⟨ref', href', hid, hr'⟩ := resolve_ok hresolve
  obtain rfl := h.reference_eq hd href' href hid
  obtain rfl : r' = r := Except.ok.inj (hr'.symm.trans hr)
  exact mem_map.mpr ⟨_, hin hreach, rfl⟩

end

end Lowering

end ArrowFree
