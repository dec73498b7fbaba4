import FrontEnd.Proofs.Typing.Structs
import FrontEnd.Proofs.Typing.TypingFaults

/-!
The overload that a call gets: among those in sight that fit exactly, or else among those that fit
after widening, the first with the most parameters.
-/

namespace FrontEnd

/-! ### Types that fit -/

namespace TypeTable

variable {t : TypeTable} {a b : TypeId}

/-- One type, or two of one canonical text. -/
def Equal (t : TypeTable) (a b : TypeId) : Prop :=
  a = b ∨ ∃ d e, t.desc a = .ok d ∧ t.desc b = .ok e ∧ d.text = e.text

/-- Both are numeric, and the second has no less room. -/
def Widens (t : TypeTable) (a b : TypeId) : Prop :=
  ∃ i j, t.rank? a = .ok (some i) ∧ t.rank? b = .ok (some j) ∧ i ≤ j

/-- What goes where another type is wanted: an equal type, a narrower one, and anything where one of
the two is invalid. -/
def Compatible (t : TypeTable) (actual expected : TypeId) : Prop :=
  t.Equal actual expected ∨ t.Live actual ∧ t.Live expected ∧
    (actual = .invalid ∨ expected = .invalid ∨ t.Widens actual expected)

theorem live_of_not_equal (h : t.equal a b = .ok false) : t.Live a ∧ t.Live b := by
  unfold TypeTable.equal at h
  split at h
  · cases h
  · obtain ⟨d, hd, h⟩ := bind_ok h
    obtain ⟨e, he, -⟩ := bind_ok h
    exact ⟨⟨d, hd⟩, e, he⟩

theorem Live.rank? (ha : t.Live a) : ∃ rank, t.rank? a = .ok rank := by
  obtain ⟨d, hd⟩ := ha
  exact ⟨d.kind.rank?, by rw [TypeTable.rank?, kind_of_desc hd]; rfl⟩

/-- Types of which neither is invalid fit, if they are not equal, by their places among the numeric
types. -/
theorem compatible_of_rank? {i j : Option Nat} (he : t.equal a b = .ok false)
    (hinv : ¬(a = .invalid ∨ b = .invalid)) (hi : t.rank? a = .ok i) (hj : t.rank? b = .ok j) :
    t.compatible a b = .ok true ↔ t.Widens a b := by
  have hdef : t.compatible a b = .ok (i.any fun i => j.any fun j => decide (i ≤ j)) := by
    simp only [compatible, he, hi, hj, hinv, Bind.bind, Except.bind, Bool.false_eq_true, if_false]
    cases i <;> cases j <;> rfl
  rw [hdef, Widens, hi, hj]
  cases i <;> cases j <;> simp

theorem compatible_eq_true : t.compatible a b = .ok true ↔ t.Compatible a b := by
  unfold Compatible Equal
  rw [← equal_eq_true]
  cases he : t.equal a b with
  | error f =>
    refine ⟨fun h => ?_, fun h => ?_⟩
    · rw [compatible, he] at h
      cases h
    · obtain ⟨ha, hb, -⟩ := h.resolve_left nofun
      obtain ⟨same, hsame⟩ := exists_equal ha hb
      cases he.symm.trans hsame
  | ok same =>
    cases same with
    | true => exact ⟨fun _ => .inl rfl, fun _ => compatible_of_equal he⟩
    | false =>
      obtain ⟨ha, hb⟩ := live_of_not_equal he
      obtain ⟨i, hi⟩ := ha.rank?
      obtain ⟨j, hj⟩ := hb.rank?
      by_cases hinv : a = .invalid ∨ b = .invalid
      · refine ⟨fun _ => .inr ⟨ha, hb, or_assoc.1 (.inl hinv)⟩, fun _ => ?_⟩
        simp only [compatible, he, hinv, Bind.bind, Except.bind, Bool.false_eq_true, if_false,
          if_true]
        rfl
      · rw [compatible_of_rank? he hinv hi hj]
        refine ⟨fun h => .inr ⟨ha, hb, .inr (.inr h)⟩, fun h => ?_⟩
        obtain ⟨-, -, h⟩ := h.resolve_left nofun
        exact (or_assoc.2 h).resolve_left hinv

end TypeTable

/-! ### Overloads that fit -/

namespace Overload

variable {o : Overload} {types : TypeTable} {exact : Bool} {args : List TypeId}

/-- The number of arguments is right, and each argument that has a parameter fits it. -/
def Admits (o : Overload) (fits : TypeId → TypeId → Prop) (args : List TypeId) : Prop :=
  (if o.variadic then o.params.length ≤ args.length else o.params.length = args.length) ∧
    ∀ (i : Nat) (declared actual : TypeId), o.params[i]? = some declared →
      args[i]? = some actual → fits actual declared

theorem Admits.imp {fits fits' : TypeId → TypeId → Prop} (h : o.Admits fits args)
    (hf : ∀ actual declared, fits actual declared → fits' actual declared) : o.Admits fits' args :=
  ⟨h.1, fun i declared actual hd ha => hf _ _ (h.2 i declared actual hd ha)⟩

theorem fitsArity_eq_true : o.fitsArity args = true ↔
    if o.variadic then o.params.length ≤ args.length else o.params.length = args.length := by
  unfold fitsArity
  split <;> simp

theorem accepts_eq_true : o.accepts types exact args = .ok true ↔
    o.Admits (if exact then types.Equal else types.Compatible) args := by
  have hfits (actual declared : TypeId) :
      (if exact then types.equal actual declared else types.compatible actual declared) =
        .ok true ↔ (if exact then types.Equal else types.Compatible) actual declared := by
    cases exact with
    | true => exact TypeTable.equal_eq_true
    | false => exact TypeTable.compatible_eq_true
  unfold accepts Admits
  rw [← fitsArity_eq_true]
  split
  next harity =>
    rw [allM_eq_true]
    refine ⟨fun h => ⟨harity, fun i declared actual hd ha => ?_⟩, fun h v hv => ?_⟩
    · have hmem : (declared, actual) ∈ o.params.zip args :=
        List.mem_iff_getElem?.2 ⟨i, List.getElem?_zip_eq_some.2 ⟨hd, ha⟩⟩
      exact (hfits actual declared).1 (h _ hmem)
    · obtain ⟨i, hi⟩ := List.mem_iff_getElem?.1 hv
      obtain ⟨hd, ha⟩ := List.getElem?_zip_eq_some.1 hi
      exact (hfits v.2 v.1).2 (h.2 i v.1 v.2 hd ha)
  next harity => exact ⟨nofun, fun h => absurd h.1 harity⟩

end Overload

/-! ### Where overloads stand -/

/-- The place of an overload in sight of a call. -/
structure Place where
  /-- 0 for the bare name, `i + 1` for the name as a member of the namespace number `i`. -/
  candidate : Nat
  depth : Nat
  /-- Among the overloads of one key. -/
  index : Nat

/-- From the bare name on, then outward from the current depth, then as declared. -/
def Place.Before (p q : Place) : Prop :=
  p.candidate < q.candidate ∨ p.candidate = q.candidate ∧
    (q.depth < p.depth ∨ p.depth = q.depth ∧ p.index < q.index)

/-- What a call that chose the overload at a place goes by. -/
def Place.resolved (p : Place) (o : Overload) : Resolved :=
  ⟨o.mangled, o.ret, o.params.length, p.depth⟩

theorem filterMap_range_bind {α β : Type} (f : α → Option β) (l : List α) :
    (List.range l.length).filterMap (fun i => l[i]?.bind f) = l.filterMap f := by
  induction l with
  | nil => rfl
  | cons a l ih =>
    rw [List.length_cons, List.range_succ_eq_map, List.filterMap_cons, List.filterMap_map,
      List.filterMap_cons, ← ih]
    rfl

namespace Env

variable {env : Env} {name : Name} {args : List TypeId} {exact : Bool} {p q : Place}
  {o : Overload} {best : Option Resolved}

/-- What a name is looked up as: itself, and then a member of each namespace that is searched, if
that member ever got a name. -/
def candidateAt? (env : Env) (name : Name) : Nat → Option Name
  | 0 => some name
  | i + 1 => env.scope.contexts[i]?.bind fun c => Qualified.find? env.names env.scratch c.name name

/-- The overload that a place holds. -/
def StandsAt (env : Env) (name : Name) (p : Place) (o : Overload) : Prop :=
  ∃ candidate, env.candidateAt? name p.candidate = some candidate ∧ p.depth ≤ env.scope.depth ∧
    (FuncTable.overloads env.symbols.funcs ⟨candidate, p.depth⟩)[p.index]? = some o

/-- The places under one key, with their overloads. -/
def placesAt (env : Env) (i : Nat) (candidate : Name) (depth : Nat) : List (Place × Overload) :=
  (FuncTable.overloads env.symbols.funcs ⟨candidate, depth⟩).zipIdx.map fun v =>
    (⟨i, depth, v.2⟩, v.1)

/-- All places with their overloads, one after the other. -/
def places (env : Env) (name : Name) : List (Place × Overload) :=
  (List.range (env.scope.contexts.length + 1)).flatMap fun i =>
    (env.candidateAt? name i).toList.flatMap fun candidate =>
      env.scope.depths.flatMap (env.placesAt i candidate)

theorem mem_depths {scope : Scope} {depth : Nat} : depth ∈ scope.depths ↔ depth ≤ scope.depth := by
  simp [Scope.depths]

theorem mem_placesAt {i depth : Nat} {candidate : Name} :
    (p, o) ∈ env.placesAt i candidate depth ↔ p.candidate = i ∧ p.depth = depth ∧
      (FuncTable.overloads env.symbols.funcs ⟨candidate, depth⟩)[p.index]? = some o := by
  rw [placesAt, List.mem_map]
  constructor
  · rintro ⟨v, hv, he⟩
    obtain ⟨rfl, rfl⟩ := Prod.mk.inj he
    exact ⟨rfl, rfl, List.mem_zipIdx_iff_getElem?.1 hv⟩
  · rintro ⟨rfl, rfl, ho⟩
    exact ⟨(o, p.index), List.mem_zipIdx_iff_getElem?.2 ho, rfl⟩

theorem candidateAt?_lt {candidate : Name} {i : Nat}
    (h : env.candidateAt? name i = some candidate) : i < env.scope.contexts.length + 1 := by
  cases i with
  | zero => exact Nat.succ_pos _
  | succ i =>
    obtain ⟨c, hc, -⟩ := Option.bind_eq_some_iff.1 h
    exact Nat.succ_lt_succ (List.getElem?_eq_some_iff.1 hc).1

theorem mem_places : (p, o) ∈ env.places name ↔ env.StandsAt name p o := by
  simp only [places, List.mem_flatMap, List.mem_range, Option.mem_toList, mem_depths,
    mem_placesAt]
  constructor
  · rintro ⟨_, -, candidate, hc, _, hd, rfl, rfl, ho⟩
    exact ⟨candidate, hc, hd, ho⟩
  · rintro ⟨candidate, hc, hd, ho⟩
    exact ⟨p.candidate, candidateAt?_lt hc, candidate, hc, p.depth, hd, rfl, rfl, ho⟩

theorem candidates_eq : env.candidates name =
    (List.range (env.scope.contexts.length + 1)).filterMap (env.candidateAt? name) := by
  rw [List.range_succ_eq_map, List.filterMap_cons, List.filterMap_map, candidates, Scope.searched,
    List.filterMap_map]
  exact congrArg (name :: ·) (filterMap_range_bind _ env.scope.contexts).symm

/-- The overloads are tried from place to place. -/
theorem visible_eq : env.visible name = (env.places name).map fun v => (v.2, v.1.depth) := by
  simp only [visible, keys, places, placesAt, candidates_eq, List.filterMap_eq_flatMap_toList,
    List.flatMap_assoc, List.map_flatMap, List.flatMap_map, List.map_map]
  refine List.flatMap_congr fun i _ => List.flatMap_congr fun candidate _ =>
    List.flatMap_congr fun depth _ => ?_
  conv_lhs => rw [← List.zipIdx_map_fst 0 (FuncTable.overloads _ _), List.map_map]
  rfl

theorem pairwise_placesAt {i depth : Nat} {candidate : Name} :
    (env.placesAt i candidate depth).Pairwise fun v w => v.1.Before w.1 := by
  have hindex : ((FuncTable.overloads env.symbols.funcs ⟨candidate, depth⟩).zipIdx.map
      Prod.snd).Pairwise (· < ·) := by
    rw [List.zipIdx_map_snd]
    exact List.pairwise_lt_range'
  refine List.pairwise_map.2 ((List.pairwise_map.1 hindex).imp fun hlt => ?_)
  exact .inr ⟨rfl, .inr ⟨rfl, hlt⟩⟩

theorem pairwise_places : (env.places name).Pairwise fun v w => v.1.Before w.1 := by
  have hdepths : env.scope.depths.Pairwise fun d e => e < d :=
    List.pairwise_reverse.2 List.pairwise_lt_range
  refine List.pairwise_flatMap.2 ⟨fun i _ => ?_, List.pairwise_lt_range.imp fun hlt => ?_⟩
  · cases env.candidateAt? name i with
    | none => exact .nil
    | some candidate =>
      rw [Option.toList_some, List.flatMap_singleton]
      refine List.pairwise_flatMap.2 ⟨fun _ _ => pairwise_placesAt, hdepths.imp fun hlt => ?_⟩
      rintro ⟨p, o⟩ hp ⟨q, u⟩ hq
      obtain ⟨rfl, rfl, -⟩ := mem_placesAt.1 hp
      obtain ⟨hi, rfl, -⟩ := mem_placesAt.1 hq
      exact .inr ⟨hi.symm, .inl hlt⟩
  · rintro ⟨p, o⟩ hp ⟨q, u⟩ hq
    simp only [List.mem_flatMap, mem_placesAt] at hp hq
    obtain ⟨_, -, _, -, rfl, -⟩ := hp
    obtain ⟨_, -, _, -, rfl, -⟩ := hq
    exact .inl hlt

/-! ### The best of those that fit -/

/-- What is best among some places: the first of those with the most parameters. -/
def First (env : Env) (args : List TypeId) (exact : Bool) (tried : List (Place × Overload)) :
    Option Resolved → Prop
  | none => ∀ v ∈ tried, v.2.accepts env.types exact args ≠ .ok true
  | some r => ∃ before p o after, tried = before ++ (p, o) :: after ∧ r = p.resolved o ∧
    o.accepts env.types exact args = .ok true ∧
    (∀ v ∈ before, v.2.accepts env.types exact args = .ok true →
      v.2.params.length < o.params.length) ∧
    ∀ v ∈ after, v.2.accepts env.types exact args = .ok true →
      v.2.params.length ≤ o.params.length

variable {tried rest : List (Place × Overload)} {next : Option Resolved}

/-- A place changes nothing if it does not fit or has no more parameters than the best one. -/
theorem First.skip (h : env.First args exact tried best)
    (hp : o.accepts env.types exact args ≠ .ok true ∨
      ∃ r, best = some r ∧ o.params.length ≤ r.matched) :
    env.First args exact (tried ++ [(p, o)]) best := by
  cases best with
  | none =>
    have hno := hp.resolve_right nofun
    intro v hv
    rcases List.mem_append.1 hv with hv | hv
    · exact h v hv
    · obtain rfl := List.mem_singleton.1 hv
      exact hno
  | some r =>
    obtain ⟨before, q, u, after, rfl, rfl, hu, hbefore, hafter⟩ := h
    refine ⟨before, q, u, after ++ [(p, o)], by simp, rfl, hu, hbefore, fun v hv ha => ?_⟩
    rcases List.mem_append.1 hv with hv | hv
    · exact hafter v hv ha
    · obtain rfl := List.mem_singleton.1 hv
      obtain ⟨_, ⟨⟩, hle⟩ := hp.resolve_left fun hno => hno ha
      exact hle

/-- A place that fits and has more parameters is better than all that were tried. -/
theorem First.take (h : env.First args exact tried best)
    (ho : o.accepts env.types exact args = .ok true)
    (hmore : ∀ r, best = some r → r.matched < o.params.length) :
    env.First args exact (tried ++ [(p, o)]) (some (p.resolved o)) := by
  refine ⟨tried, p, o, [], rfl, rfl, ho, fun v hv ha => ?_, nofun⟩
  cases best with
  | none => exact absurd ha (h v hv)
  | some r =>
    have hlt := hmore r rfl
    obtain ⟨before, q, u, after, rfl, rfl, -, hbefore, hafter⟩ := h
    rcases List.mem_append.1 hv with hv | hv
    · exact (hbefore v hv ha).trans hlt
    · rcases List.mem_cons.1 hv with rfl | hv
      · exact hlt
      · exact (hafter v hv ha).trans_lt hlt

/-- One more place is tried. -/
theorem First.step (h : env.First args exact tried best)
    (hw : env.weigh args exact best (o, p.depth) = .ok next) :
    env.First args exact (tried ++ [(p, o)]) next := by
  obtain ⟨accepted, ha, hw⟩ := bind_ok hw
  cases accepted with
  | false =>
    obtain rfl := Except.ok.inj hw
    exact h.skip (.inl (by rw [ha]; nofun))
  | true =>
    cases best with
    | none =>
      obtain rfl := Except.ok.inj hw
      exact h.take ha nofun
    | some r =>
      simp only [if_true] at hw
      split at hw
      next hle =>
        obtain rfl := Except.ok.inj hw
        exact h.skip (.inr ⟨r, rfl, hle⟩)
      next hgt =>
        obtain rfl := Except.ok.inj hw
        refine h.take ha fun r' hr => ?_
        obtain rfl := Option.some.inj hr
        exact Nat.lt_of_not_le hgt

theorem First.run (h : env.First args exact tried best)
    (hw : rest.foldlM (fun best v => env.weigh args exact best (v.2, v.1.depth)) best = .ok next) :
    env.First args exact (tried ++ rest) next := by
  induction rest generalizing tried best with
  | nil =>
    obtain rfl := Except.ok.inj hw
    rwa [List.append_nil]
  | cons v rest ih =>
    rw [List.foldlM_cons] at hw
    obtain ⟨mid, hv, hw⟩ := bind_ok hw
    rw [List.append_cons]
    exact ih (h.step hv) hw

theorem first_best (h : env.best args exact (env.visible name) = .ok next) :
    env.First args exact (env.places name) next := by
  have hrun : (env.visible name).foldlM (env.weigh args exact) none = .ok next := h
  rw [visible_eq, List.foldlM_map] at hrun
  have hnone : env.First args exact [] none := fun _ hv => absurd hv List.not_mem_nil
  exact hnone.run hrun

/-- The result for an overload that fits, where no other that fits has more parameters, and the
others that fit and have as many stand at later places. -/
def Picks (env : Env) (name : Name) (fits : Overload → Prop) (r : Resolved) : Prop :=
  ∃ p o, env.StandsAt name p o ∧ fits o ∧ r = p.resolved o ∧
    ∀ q u, env.StandsAt name q u → fits u → u.params.length ≤ o.params.length ∧
      (u.params.length = o.params.length → q = p ∨ p.Before q)

/-- Places are tried in order, so what stands behind the best one comes later. -/
theorem picks_of_first {r : Resolved} {fits : Overload → Prop}
    (hfits : ∀ o, o.accepts env.types exact args = .ok true ↔ fits o)
    (h : env.First args exact (env.places name) (some r)) : env.Picks name fits r := by
  obtain ⟨before, p, o, after, hplaces, rfl, ho, hbefore, hafter⟩ := h
  refine ⟨p, o, mem_places.1 (by simp [hplaces]), (hfits o).1 ho, rfl, fun q u hq hu => ?_⟩
  have hsorted : (env.places name).Pairwise fun v w => v.1.Before w.1 := pairwise_places
  rw [hplaces] at hsorted
  have hmem := mem_places.2 hq
  rw [hplaces] at hmem
  rcases List.mem_append.1 hmem with hmem | hmem
  · have hlt := hbefore _ hmem ((hfits u).2 hu)
    exact ⟨hlt.le, fun he => absurd he hlt.ne⟩
  · rcases List.mem_cons.1 hmem with he | hmem
    · obtain ⟨rfl, rfl⟩ := Prod.mk.inj he
      exact ⟨Nat.le_refl _, fun _ => .inl rfl⟩
    · have hlater := List.rel_of_pairwise_cons (List.pairwise_append.1 hsorted).2.1 hmem
      exact ⟨hafter _ hmem ((hfits u).2 hu), fun _ => .inr hlater⟩

theorem first_none_iff {fits : Overload → Prop}
    (hfits : ∀ o, o.accepts env.types exact args = .ok true ↔ fits o) :
    env.First args exact (env.places name) none ↔ ∀ p o, env.StandsAt name p o → ¬ fits o :=
  ⟨fun h p o hp hf => h (p, o) (mem_places.2 hp) ((hfits o).2 hf),
    fun h v hv ha => h v.1 v.2 (mem_places.1 hv) ((hfits v.2).1 ha)⟩

/-! ### The overload of a call -/

/-- The arguments are of the types of the parameters. -/
def Exactly (env : Env) (args : List TypeId) (o : Overload) : Prop := o.Admits env.types.Equal args

/-- The arguments can stand where the parameters are wanted. -/
def Relaxedly (env : Env) (args : List TypeId) (o : Overload) : Prop :=
  o.Admits env.types.Compatible args

/-- What a call is to choose. -/
structure Optimal (env : Env) (name : Name) (args : List TypeId) (chosen : Option Resolved) :
    Prop where
  none_iff : chosen = none ↔ ∀ p o, env.StandsAt name p o → ¬ env.Relaxedly args o
  exactly : (∃ p o, env.StandsAt name p o ∧ env.Exactly args o) →
    ∃ r, chosen = some r ∧ env.Picks name (env.Exactly args) r
  relaxedly : (∀ p o, env.StandsAt name p o → ¬ env.Exactly args o) →
    ∀ r, chosen = some r → env.Picks name (env.Relaxedly args) r

theorem Exactly.relaxedly (h : env.Exactly args o) : env.Relaxedly args o :=
  Overload.Admits.imp h fun _ _ => .inl

theorem optimal_of_first {found : Option Resolved}
    (hexact : env.First args true (env.places name) found)
    (hrelaxed : found = none → env.First args false (env.places name) best) :
    env.Optimal name args (found.or best) := by
  have htrue (o : Overload) : o.accepts env.types true args = .ok true ↔ env.Exactly args o :=
    Overload.accepts_eq_true
  have hfalse (o : Overload) : o.accepts env.types false args = .ok true ↔ env.Relaxedly args o :=
    Overload.accepts_eq_true
  cases found with
  | some r =>
    have hpicks := picks_of_first htrue hexact
    obtain ⟨p, o, hp, ho, -⟩ := id hpicks
    exact ⟨⟨nofun, fun hno => absurd ho.relaxedly (hno p o hp)⟩, fun _ => ⟨r, rfl, hpicks⟩,
      fun hno => absurd ho (hno p o hp)⟩
  | none =>
    have hno := (first_none_iff htrue).1 hexact
    have hbest := hrelaxed rfl
    refine ⟨⟨fun hb => ?_, fun hall => ?_⟩, fun ⟨p, o, hp, ho⟩ => absurd ho (hno p o hp),
      fun _ r hr => ?_⟩
    · obtain rfl : best = none := hb
      exact (first_none_iff hfalse).1 hbest
    · cases best with
      | none => rfl
      | some r =>
        obtain ⟨p, o, hp, ho, -⟩ := picks_of_first hfalse hbest
        exact absurd ho (hall p o hp)
    · obtain rfl : best = some r := hr
      exact picks_of_first hfalse hbest

/-- The exact pass comes first, and the relaxed pass only if nothing fits exactly. -/
theorem passes_of_resolveCall (h : env.resolveCall name args = .ok next) : ∃ found best,
    next = found.or best ∧ env.First args true (env.places name) found ∧
      (found = none → env.First args false (env.places name) best) := by
  obtain ⟨found, hfound, h⟩ := bind_ok h
  cases found with
  | some r =>
    obtain rfl := Except.ok.inj h
    exact ⟨some r, none, rfl, first_best hfound, nofun⟩
  | none => exact ⟨none, next, rfl, first_best hfound, fun _ => first_best h⟩

/-- The types that a choice may look at. -/
def Weighs (env : Env) (name : Name) (args : List TypeId) (type : TypeId) : Prop :=
  type ∈ args ∨ ∃ p o, env.StandsAt name p o ∧ type ∈ o.params

/-- A type that a choice may look at is not in the table. -/
def Misses (env : Env) (name : Name) (args : List TypeId) (fault : Fault) : Prop :=
  ∃ type, fault = .deadSlot type.slot ∧ ¬ env.types.Live type ∧ env.Weighs name args type

theorem faults_desc {type : TypeId} (h : env.Weighs name args type) :
    Faults (env.types.desc type) (env.Misses name args) := by
  intro fault hf
  refine ⟨type, ?_, fun ⟨d, hd⟩ => ?_, h⟩
  · unfold TypeTable.desc Pool.read at hf
    split at hf
    · cases hf
    · exact (Except.error.inj hf).symm
  · cases hd.symm.trans hf

/-- Choosing the overload of a call gives the optimum, unless a type that an argument has or that
an overload in sight wants is not in the table. -/
theorem resolveCall_optimal (env : Env) (name : Name) (args : List TypeId) :
    match env.resolveCall name args with
    | .ok chosen => env.Optimal name args chosen
    | .error fault => env.Misses name args fault := by
  cases h : env.resolveCall name args with
  | ok chosen =>
    obtain ⟨found, best, rfl, hexact, hrelaxed⟩ := passes_of_resolveCall h
    exact optimal_of_first hexact hrelaxed
  | error fault =>
    suffices hfaults : Faults (env.resolveCall name args) (env.Misses name args) from
      hfaults fault h
    refine faults_resolveCall_visible (fun v hv type ht => ?_) fun type ht => ?_
    · rw [visible_eq] at hv
      obtain ⟨⟨p, o⟩, hp, rfl⟩ := List.mem_map.1 hv
      exact faults_desc (.inr ⟨p, o, mem_places.1 hp, ht⟩)
    · exact faults_desc (.inl ht)

end Env

end FrontEnd
