import FrontEnd.Proofs.Nesting.Rows
import FrontEnd.Proofs.Reading.GraftedDeclarations

/-!
Steps of reading that lay branches in a row, each behind those that were read before it. Unless a
fault ends such a step, the forest on which the row stands remains.
-/

namespace FrontEnd

open Parse

/-! ### Steps that read no nodes -/

/-- The tree is the same. -/
def ParseState.SameTree (s t : ParseState) : Prop := t.tree = s.tree

instance : Std.Refl ParseState.SameTree := ⟨fun _ => rfl⟩

instance : Trans ParseState.SameTree ParseState.SameTree ParseState.SameTree :=
  ⟨fun h h' => Eq.trans h' h⟩

/-- Productions of types and of names. -/
def Production.Leafless : Production → Prop
  | .type | .params | .fields _ | .variants | .path _ => True
  | _ => False

namespace Parse

/-- A step that leaves the tree as it is, however it ends. -/
structure Leafless {α : Type} (k : Nat) (p : Parse α) : Prop where
  steady : Steady k p
  same : Keeps ParseState.SameTree (fun s _ t => s.SameTree t) p

section

variable {α β : Type} {k : Nat} {p : Parse α} {f : α → Parse β}

theorem Leafless.bind (h : Leafless k p) (hf : ∀ a, Leafless k (f a)) : Leafless k (p >>= f) :=
  ⟨h.steady.bind fun a => (hf a).steady, h.same.bind fun a => (hf a).same⟩

theorem Leafless.weaken (h : Leafless 1 p) : Leafless 0 p := ⟨h.steady.weaken, h.same⟩

theorem leafless_pure (a : α) : Leafless k (pure a : Parse α) := ⟨keeps_pure a, keeps_pure a⟩

theorem Still.leafless (h : Keeps ParseState.Still (fun s _ t => s.Still t) p)
    (hp : Steady k p) : Leafless k p :=
  ⟨hp, ⟨fun s => (h.meets s).imp (fun _ _ ht => ht.tree) fun _ _ ht => ht.tree⟩⟩

theorem Idle.leafless (h : Idle p) : Leafless k p := Still.leafless h.still (h.steady k)

theorem leafless_get : Leafless k (get : Parse ParseState) := idle_get.leafless

theorem leafless_addFunction (signature : Signature) : Leafless k (addFunction signature) := by
  refine ⟨steady_addFunction signature, ⟨fun s => meets_addFunction ?_⟩⟩
  exact meets_intro (fun _ _ _ => rfl) fun _ _ _ => rfl

theorem leafless_namedType : Leafless k namedType := by
  refine idle_expectName.leafless.bind fun name => leafless_get.bind fun s => ?_
  split
  · exact leafless_pure _
  · refine (idle_quote _).leafless.bind fun _ => ?_
    exact (idle_report (by decide) ..).leafless.bind fun _ => leafless_pure _

theorem leafless_declareParams (signature : Signature) : Leafless 0 (declareParams signature) :=
  ⟨steady_declareParams signature, keeps_modify fun _ => rfl⟩

theorem leafless_declareFunction (stored : Name) (type : TypeId) (signature : Signature)
    (isNative : Bool) : Leafless 0 (declareFunction stored type signature isNative) :=
  Still.leafless (still_declareFunction ..) (steady_declareFunction ..)

theorem leafless_declareVariable (stored : Name) (type : TypeId) (isConst : Bool)
    (value : Option Value) : Leafless 0 (declareVariable stored type isConst value) := by
  refine ⟨steady_declareVariable .., ⟨fun s => ?_⟩⟩
  refine (meets_declareVariable stored type isConst value s).imp (fun _ _ h => ?_) fun _ _ h => ?_
  · obtain ⟨_, _, rfl, -⟩ := h
    rfl
  · exact congrArg ParseState.tree h.1

theorem leafless_declareType (name : Name) (kind : Name → TypeKind)
    {add : TypeTable → Name → Except StorageError (TypeId × TypeTable)}
    (hadd : ∀ types stored, add types stored = types.add (kind stored) stored) :
    Leafless 0 (declareType name add) := by
  refine ⟨steady_declareType name fun types stored id types' hs ha => ?_, ?_⟩
  · rw [hadd] at ha
    exact ⟨(hs.add ha).1, (hs.add ha).2.2.1⟩
  · have hname : Leafless 0 (declaredName name) := (idle_declaredName name).leafless
    refine hname.same.bind fun stored => keeps_get_bind fun s => ?_
    refine Meets.bind (R := fun _ t => t = s) (meets_ofStorage (fun _ _ => rfl) fun _ _ => rfl) ?_
    rintro ⟨type, types⟩ t rfl
    refine meets_bind_of_ok (a := ⟨stored, t.scope.depth⟩) rfl ?_
    exact meets_bind_of_ok rfl (meets_pure rfl)

theorem leafless_pushUsing (target : Name) :
    Leafless 0 (modify fun s => { s with scope := s.scope.pushUsing target } : Parse PUnit) :=
  ⟨steady_pushUsing target, keeps_modify fun _ => rfl⟩

end

/-! ### Types and names -/

section

variable {parse : Productions} (h : ∀ q : Production, q.Leafless → Leafless 1 (parse q))

include h

theorem leafless_signatureEnd (params : List (TypeId × Name) × Bool) :
    Leafless 1 (signatureEnd parse params) := by
  refine (idle_expect .closeParen).leafless.bind fun _ => ?_
  refine (idle_eat .thinArrow).leafless.bind fun arrow => ?_
  cases arrow with
  | true => exact (h .type trivial).bind fun _ => leafless_addFunction _
  | false => exact leafless_addFunction _

theorem leafless_signature : Leafless 1 (signature parse) := by
  refine (idle_expect .openParen).leafless.bind fun _ => ?_
  refine (idle_currentIs .closeParen).leafless.bind fun none => ?_
  cases none with
  | true => exact (leafless_pure _).bind (leafless_signatureEnd h)
  | false => exact (h .params trivial).bind (leafless_signatureEnd h)

theorem leafless_typeName : Leafless 1 (typeName parse) := by
  refine idle_current.leafless.bind fun token => ?_
  split
  · exact idle_advance.leafless.bind fun _ => leafless_pure _
  · split
    · exact idle_advance.leafless.bind fun _ => leafless_signature h
    · split
      · exact leafless_namedType
      · split
        · exact (idle_reject (by decide) ..).leafless
        · exact (idle_expected (by decide) ..).leafless

theorem leafless_params : Leafless 1 (params parse) := by
  refine (idle_eat .ellipsis).leafless.bind fun dots => ?_
  cases dots with
  | true => exact leafless_pure _
  | false =>
    refine (h .type trivial).bind fun type => idle_paramName.leafless.bind fun name => ?_
    refine (idle_eat .comma).leafless.bind fun more => ?_
    cases more with
    | true => exact (h .params trivial).bind fun _ => leafless_pure _
    | false => exact leafless_pure _

theorem leafless_fields (done : List Field) : Leafless 1 (fields parse done) := by
  refine (idle_currentIs .closeBrace).leafless.bind fun closed => ?_
  cases closed with
  | true => exact leafless_pure _
  | false =>
    refine idle_atEnd.leafless.bind fun atEnd => ?_
    cases atEnd with
    | true => exact leafless_pure _
    | false =>
      refine idle_expectName.leafless.bind fun name => ?_
      refine (idle_expect .colon).leafless.bind fun _ => (h .type trivial).bind fun type => ?_
      refine (idle_expect .semicolon).leafless.bind fun _ => ?_
      split
      · refine (idle_quote _).leafless.bind fun _ => ?_
        exact (idle_report (by decide) ..).leafless.bind fun _ => h (.fields done) trivial
      · exact h (.fields _) trivial

theorem leafless_variants : Leafless 1 (variants parse) := by
  refine (idle_currentIs .closeBrace).leafless.bind fun closed => ?_
  cases closed with
  | true => exact leafless_pure _
  | false =>
    refine idle_expectName.leafless.bind fun name => (idle_eat .comma).leafless.bind fun more => ?_
    cases more with
    | true => exact (h .variants trivial).bind fun _ => leafless_pure _
    | false => exact leafless_pure _

theorem leafless_path (name : Name) : Leafless 1 (path parse name) := by
  refine (idle_eat .dot).leafless.bind fun dot => ?_
  cases dot with
  | true =>
    refine idle_expectName.leafless.bind fun segment => ?_
    exact (idle_qualify ..).leafless.bind fun name => h (.path name) trivial
  | false => exact leafless_pure _

theorem leafless_step (q : Production) (hq : q.Leafless) : Leafless 1 (step parse q) := by
  cases q with
  | type => exact leafless_typeName h
  | params => exact leafless_params h
  | fields done => exact leafless_fields h done
  | variants => exact leafless_variants h
  | path name => exact leafless_path h name
  | _ => exact hq.elim

end

/-! ### Steps that leave a forest -/

/-- From `s`, a result is as `Q` tells, and unless a fault stops the step, the forest stands. -/
structure Spares {α : Type} (k : Nat) (F : List Branch) (p : Parse α) (s : ParseState)
    (Q : α → ParseState → Prop) : Prop where
  meets : Meets p s (fun a t => s.Onto k t ∧ Q a t)
    fun e t => s.Onto k t ∧ ((∀ fault, e ≠ .fault fault) → t.tree.Holds F)

namespace Spares

variable {α β : Type} {s t u : ParseState} {j k : Nat} {F zs : List Branch} {p q : Parse α}
  {f : α → Parse β} {Q R : α → ParseState → Prop} {S : β → ParseState → Prop}

theorem imp (h : Spares k F p s Q) (hQ : ∀ a t, s.Onto k t → Q a t → R a t) : Spares k F p s R :=
  ⟨h.meets.imp (fun a t ht => ⟨ht.1, hQ a t ht.1 ht.2⟩) fun _ _ ht => ht⟩

theorem mono (h : Spares k F p s Q) (hj : j ≤ k) : Spares j F p s Q :=
  ⟨h.meets.imp (fun _ _ ht => ⟨ht.1.mono hj, ht.2⟩) fun _ _ ht => ⟨ht.1.mono hj, ht.2⟩⟩

/-- Some of the forest may be forgotten. -/
theorem frame (zs : List Branch) (h : Spares k (zs ++ F) p s Q) : Spares k F p s Q :=
  ⟨h.meets.imp (fun _ _ ht => ht) fun _ _ ht => ⟨ht.1, fun he => (ht.2 he).right⟩⟩

theorem bind (h : Spares k F p s Q) (hf : ∀ a t, s.Onto k t → Q a t → Spares k F (f a) t S) :
    Spares k F (p >>= f) s S := by
  cases hp : p s with
  | ok a t =>
    obtain ⟨ho, hQ⟩ := h.meets.of_ok hp
    exact ⟨meets_bind_of_ok hp ((hf a t ho hQ).meets.imp (fun _ _ hu => ⟨ho.trans hu.1, hu.2⟩)
      fun _ _ hu => ⟨ho.trans hu.1, hu.2⟩)⟩
  | error e t => exact ⟨meets_of_error (bind_of_error hp) (h.meets.of_error hp)⟩

theorem pure {a : α} (h : s.Sound) (ha : Q a s) : Spares k F (Pure.pure a : Parse α) s Q :=
  ⟨meets_pure ⟨h.refl k, ha⟩⟩

theorem throw {e : Stop} (h : s.Sound) (he : (∀ fault, e ≠ .fault fault) → s.tree.Holds F) :
    Spares k F (MonadExcept.throw e : Parse α) s Q :=
  ⟨meets_throw ⟨h.refl k, he⟩⟩

/-- What follows a step that only looks. -/
theorem reads {a : α} (hp : p s = .ok a s) (h : Spares k F (f a) s S) : Spares k F (p >>= f) s S :=
  ⟨meets_bind_of_ok hp h.meets⟩

theorem map {g : α → β} (h : Spares k F p s fun a t => S (g a) t) : Spares k F (g <$> p) s S :=
  ⟨h.meets.map⟩

/-- The outcome of such a step, where it is caught. -/
def Caught (F : List Branch) (Q : α → ParseState → Prop) : Except Stop α → ParseState → Prop
  | .ok a, t => Q a t
  | .error e, t => (∀ fault, e ≠ .fault fault) → t.tree.Holds F

theorem attempt (h : Spares k F p s Q) : Spares k F (Parse.attempt p) s (Caught F Q) :=
  ⟨meets_attempt (h.meets.imp (fun _ _ ht => ht) fun _ _ ht => ht)⟩

/-- A step between two changes, the second of which undoes the first. -/
theorem ensuring {after : ParseState → ParseState} (h : Spares j F p u Q)
    (hback : ∀ t, u.Onto j t → s.Onto k (after t) ∧ (after t).tree = t.tree)
    (hR : ∀ a t, u.Onto j t → Q a t → R a (after t)) (hq : q s = Parse.ensuring p after u) :
    Spares k F q s R := by
  refine ⟨Meets.congr (q := fun _ => Parse.ensuring p after u) ?_ hq⟩
  cases hp : p u with
  | ok a t =>
    obtain ⟨ho, hQ⟩ := h.meets.of_ok hp
    exact meets_of_ok (by simp only [Parse.ensuring, hp]) ⟨(hback t ho).1, hR a t ho hQ⟩
  | error e t =>
    obtain ⟨ho, hF⟩ := h.meets.of_error hp
    exact meets_of_error (by simp only [Parse.ensuring, hp])
      ⟨(hback t ho).1, fun he => (hback t ho).2 ▸ hF he⟩

end Spares

end Parse

/-! ### Rows of branches -/

namespace ParseState

/-- Branches stand in a row behind the offset `lo` of a text and in front of the current token, on
top of a forest. -/
structure Lays (text : String) (lo : Nat) (xs F : List Branch) (s : ParseState) : Prop where
  sound : s.Sound
  window : s.window.In text
  holds : s.tree.Holds (xs ++ F)
  nested : ∀ x ∈ xs, x.Nested
  row : Span.Row lo (xs.map Branch.extent) s.window.previous.stop

/-- The same, told by the roots of the branches. -/
def Laid (text : String) (lo : Nat) (F : List Branch) (ids : List NodeId) (s : ParseState) : Prop :=
  ∃ xs, xs.map Branch.root = ids ∧ s.Lays text lo xs F

variable {α β : Type} {text : String} {lo k : Nat} {s t : ParseState} {F xs ys zs : List Branch}
  {ids js : List NodeId} {p : Parse α} {f : α → Parse β} {S : β → ParseState → Prop}
  {x : Branch} {id : ExprId} {start : Span}

theorem Onto.past (h : s.Onto k t) (hw : s.window.In text) (hs : s.window.Past start) :
    t.window.Past start := by
  obtain ⟨n, hn⟩ := h.window
  exact hn ▸ hs.drop hw n

theorem Onto.previous_le (h : s.Onto k t) (hw : s.window.In text) :
    s.window.previous.stop ≤ t.window.previous.stop :=
  (h.past hw ⟨le_rfl, le_rfl⟩).stop

namespace Lays

theorem onto (h : s.Lays text lo xs F) (ho : s.Onto k t) (ht : t.tree.Holds (xs ++ F)) :
    t.Lays text lo xs F where
  sound := ho.sound
  window := by
    obtain ⟨n, hn⟩ := ho.window
    exact hn ▸ h.window.drop n
  holds := ht
  nested := h.nested
  row := h.row.mono le_rfl (ho.previous_le h.window)

/-- A further row may begin where this one ends. Meanwhile the branches of this one are part of the
forest, so that they remain if reading the further one stops. -/
theorem sink (h : s.Lays text lo xs F) : s.Lays text s.window.previous.stop [] (xs ++ F) :=
  ⟨h.sound, h.window, h.holds, nofun, le_rfl⟩

/-- The further row stands behind the first one. -/
theorem stack (h : s.Lays text lo xs F)
    (ht : t.Lays text s.window.previous.stop ys (xs ++ F)) : t.Lays text lo (xs ++ ys) F where
  sound := ht.sound
  window := ht.window
  holds := ht.holds.perm (by
    rw [← List.append_assoc]
    exact List.perm_append_comm.append_right F)
  nested x hx := (List.mem_append.1 hx).elim (h.nested x) (ht.nested x)
  row := List.map_append ▸ h.row.append ht.row

/-- An expression of the row can be looked at. -/
theorem exists_expr (h : s.Lays text lo xs F) (hx : x ∈ xs) (hid : x.root = .expr id) :
    ∃ e ps, x = ⟨.expr id, .expr e, ps⟩ ∧ Parse.expr id s = .ok e s := by
  have hholds := h.holds.inner (Branch.mem_allIn.2 ⟨x, List.mem_append_left F hx, x.mem_all_self⟩)
  obtain ⟨e, ps, rfl⟩ := hholds.exists_expr hid
  exact ⟨e, ps, rfl, expr_eq hholds⟩

theorem leafless (h : s.Lays text lo xs F) (hp : Leafless k p) :
    Spares k F p s fun a t => p s = .ok a t ∧ t.Lays text lo xs F := by
  refine ⟨meets_intro (fun a t hrun => ?_) fun e t hrun => ?_⟩
  · have ho := hp.steady.ok hrun h.sound
    have hsame : t.tree = s.tree := hp.same.ok hrun
    exact ⟨ho, hrun, h.onto ho (hsame ▸ h.holds)⟩
  · have hsame : t.tree = s.tree := hp.same.error hrun
    exact ⟨(hp.steady.error hrun h.sound).1, fun _ => hsame ▸ h.holds.right⟩

/-- What follows a step that reads no nodes begins with the same row. -/
theorem before (h : s.Lays text lo xs F) (hp : Leafless k p)
    (hf : ∀ a t, s.Onto k t → t.Lays text lo xs F → Spares k F (f a) t S) :
    Spares k F (p >>= f) s S :=
  (h.leafless hp).bind fun a t ho ⟨_, ht⟩ => hf a t ho ht

/-- What is read after a row stands behind it. -/
theorem further {js : α → List NodeId} (h : s.Lays text lo xs F)
    (hp : ∀ lo F, s.Laid text lo F [] → Spares k F p s fun a t => t.Laid text lo F (js a)) :
    Spares k F p s fun a t => ∃ ys, ys.map Branch.root = js a ∧ t.Lays text lo (xs ++ ys) F :=
  ((hp _ _ ⟨[], rfl, h.sink⟩).frame xs).imp fun _ _ _ ⟨ys, hys, ht⟩ => ⟨ys, hys, h.stack ht⟩

end Lays

namespace Laid

theorem sound (h : s.Laid text lo F ids) : s.Sound := by
  obtain ⟨xs, -, h⟩ := h
  exact h.sound

theorem window (h : s.Laid text lo F ids) : s.window.In text := by
  obtain ⟨xs, -, h⟩ := h
  exact h.window

theorem forest (h : s.Laid text lo F ids) : s.tree.Holds F := by
  obtain ⟨xs, -, h⟩ := h
  exact h.holds.right

/-- Without branches there is only the forest. -/
theorem nil_iff : s.Laid text lo F [] ↔
    s.Sound ∧ s.window.In text ∧ s.tree.Holds F ∧ lo ≤ s.window.previous.stop := by
  constructor
  · rintro ⟨xs, hxs, h⟩
    obtain rfl := List.map_eq_nil_iff.1 hxs
    exact ⟨h.sound, h.window, h.holds, h.row⟩
  · rintro ⟨hs, hw, hF, hlo⟩
    exact ⟨[], rfl, hs, hw, hF, nofun, hlo⟩

theorem leafless (h : s.Laid text lo F ids) (hp : Leafless k p) :
    Spares k F p s fun _ t => t.Laid text lo F ids := by
  obtain ⟨xs, hxs, h⟩ := h
  exact (h.leafless hp).imp fun _ _ _ ⟨_, ht⟩ => ⟨xs, hxs, ht⟩

theorem before (h : s.Laid text lo F ids) (hp : Leafless k p)
    (hf : ∀ a t, s.Onto k t → t.Laid text lo F ids → Spares k F (f a) t S) :
    Spares k F (p >>= f) s S :=
  (h.leafless hp).bind hf

theorem expected {code : ErrorCode} {Q : α → ParseState → Prop} (h : s.Laid text lo F ids)
    (hcode : code.stage ≠ .lexer) (wanted : String) :
    Spares k F (Parse.expected code wanted) s Q := by
  obtain ⟨xs, -, h⟩ := h
  exact (h.leafless (idle_expected hcode wanted).leafless).imp fun _ _ _ ⟨hrun, _⟩ => nomatch hrun

theorem stack {js : α → List NodeId} (h : s.Laid text lo F ids)
    (hp : ∀ lo F, s.Laid text lo F [] → Spares k F p s fun a t => t.Laid text lo F (js a)) :
    Spares k F p s fun a t => t.Laid text lo F (ids ++ js a) := by
  obtain ⟨xs, rfl, h⟩ := h
  refine (h.further hp).imp fun a t _ ⟨ys, hys, ht⟩ => ⟨xs ++ ys, ?_, ht⟩
  rw [List.map_append, hys]

/-- After a stop the forest is still there. -/
theorem resume (h : s.Laid text lo F []) (ho : s.Onto k t) (hF : t.tree.Holds F) :
    t.Laid text lo F [] := by
  obtain ⟨xs, hxs, h⟩ := h
  obtain rfl := List.map_eq_nil_iff.1 hxs
  exact ⟨[], rfl, h.onto ho hF⟩

/-- Neither tree nor text changes with the scope. -/
theorem move (h : s.Laid text lo F ids) (ht : t.Sound) (hw : t.window = s.window)
    (htree : t.tree = s.tree) : t.Laid text lo F ids := by
  obtain ⟨xs, hxs, h⟩ := h
  exact ⟨xs, hxs, ht, hw ▸ h.window, htree ▸ h.holds, h.nested, hw ▸ h.row⟩

end Laid

/-! ### Tokens -/

/-- A step that takes the current token, and tells its span. -/
structure Takes (p : Parse α) (span : α → Span) : Prop where
  idle : Idle p
  taken : ∀ s a t, p s = .ok a t → span a = s.window.current.span ∧ t.window = s.window.after

theorem takes_advance : Takes advance Token.span := by
  refine ⟨idle_advance, fun s a t h => ?_⟩
  obtain ⟨rfl, rfl⟩ := advance_ok h
  exact ⟨rfl, rfl⟩

theorem takes_expect (kind : TokenKind) : Takes (expect kind) Token.span := by
  refine ⟨idle_expect kind, fun s a t h => ?_⟩
  obtain ⟨hk, rfl⟩ := expect_ok h
  rw [expect_eq hk] at h
  cases h
  exact ⟨rfl, rfl⟩

theorem takes_expectName : Takes expectName Prod.snd := by
  refine ⟨idle_expectName, fun s a t h => ?_⟩
  obtain ⟨is, u, his, h⟩ := bind_eq_ok h
  cases his
  cases hk : s.window.currentIs .ident with
  | false =>
    rw [hk] at h
    cases h
  | true =>
    rw [hk] at h
    obtain ⟨token, u, htoken, h⟩ := bind_eq_ok h
    obtain ⟨rfl, rfl⟩ := advance_ok htoken
    obtain ⟨_, _, hget, h⟩ := bind_eq_ok h
    cases hget
    obtain ⟨name, u, hname, h⟩ := bind_eq_ok h
    cases h
    obtain ⟨_, _, hget, hname⟩ := bind_eq_ok hname
    cases hget
    obtain ⟨r, u, hr, hname⟩ := bind_eq_ok hname
    obtain ⟨-, rfl⟩ := ofStorage_ok hr
    cases hname
    exact ⟨rfl, rfl⟩

/-- A row that begins with the start of a token that is past, behind the offset `lo`. -/
structure Led (text : String) (lo : Nat) (start : Span) (F : List Branch) (ids : List NodeId)
    (s : ParseState) : Prop where
  behind : lo ≤ start.start
  laid : s.Laid text start.start F ids
  past : s.window.Past start

/-- From `s` to `t` the current token was taken, which has this span. -/
structure Shifts (s : ParseState) (span : Span) (t : ParseState) : Prop where
  eq : span = s.window.current.span
  behind : s.window.previous.stop ≤ span.start
  le : span.start ≤ span.stop
  past : t.window.Past span

theorem Lays.take {span : α → Span} (h : s.Lays text lo xs F) (hp : Takes p span)
    (hf : ∀ a t, s.Shifts (span a) t → t.Lays text lo xs F → Spares k F (f a) t S) :
    Spares k F (p >>= f) s S := by
  refine (h.leafless (hp.idle.leafless)).bind fun a t _ ⟨hrun, ht⟩ => hf a t ?_ ht
  obtain ⟨hspan, hwindow⟩ := hp.taken s a t hrun
  refine ⟨hspan, hspan ▸ h.window.previous_le.2, hspan ▸ h.window.reads.current_le.1, ?_⟩
  rw [hwindow, hspan]
  exact h.window.past_after le_rfl le_rfl

theorem Laid.take {span : α → Span} (h : s.Laid text lo F ids) (hp : Takes p span)
    (hf : ∀ a t, s.Shifts (span a) t → t.Laid text lo F ids → Spares k F (f a) t S) :
    Spares k F (p >>= f) s S := by
  obtain ⟨xs, hxs, h⟩ := h
  exact h.take hp fun a t hshift ht => hf a t hshift ⟨xs, hxs, ht⟩

/-- What stands in front of a token is past as well. -/
theorem Shifts.past_before (h : s.Shifts start t) {span : Span} (hle : span.start ≤ span.stop)
    (hstop : span.stop ≤ s.window.previous.stop) : t.window.Past span :=
  ⟨(hle.trans (hstop.trans h.behind)).trans h.past.start,
    (hstop.trans (h.behind.trans h.le)).trans h.past.stop⟩

/-- Where nothing was read yet, a row may begin with any token that is past. -/
theorem Laid.leads (h : s.Laid text lo F []) (hlo : lo ≤ start.start)
    (hpast : s.window.Past start) : s.Led text lo start F [] := by
  obtain ⟨hs, hw, hF, -⟩ := Laid.nil_iff.1 h
  exact ⟨hlo, Laid.nil_iff.2 ⟨hs, hw, hF, hpast.start.trans hw.previous_le.1⟩, hpast⟩

/-- Such a row may begin with the current token. -/
theorem Laid.opens {span : α → Span} (h : s.Laid text lo F []) (hp : Takes p span)
    (hf : ∀ a t, s.Shifts (span a) t → t.Led text lo (span a) F [] → Spares k F (f a) t S) :
    Spares k F (p >>= f) s S :=
  h.take hp fun a t htoken ht =>
    hf a t htoken (ht.leads ((Laid.nil_iff.1 h).2.2.2.trans htoken.behind) htoken.past)

/-- A row that a span encloses, behind the offset `lo`, where the text was read up to the end of the
span. -/
def Encloses (text : String) (lo : Nat) (span : Span) (F : List Branch) (ids : List NodeId)
    (s : ParseState) : Prop :=
  ∃ xs, xs.map Branch.root = ids ∧ s.Lays text span.start xs F ∧ lo ≤ span.start ∧
    Span.Row span.start (xs.map Branch.extent) span.stop ∧ span.stop ≤ s.window.previous.stop

namespace Led

/-- What becomes of the row, the token is still past. -/
theorem lift {js : α → List NodeId} (h : s.Led text lo start F ids)
    (hp : Spares k F p s fun a t => t.Laid text start.start F (js a)) :
    Spares k F p s fun a t => t.Led text lo start F (js a) :=
  hp.imp fun _ _ ho ht => ⟨h.behind, ht, ho.past h.laid.window h.past⟩

theorem before (h : s.Led text lo start F ids) (hp : Leafless k p)
    (hf : ∀ a t, t.Led text lo start F ids → Spares k F (f a) t S) : Spares k F (p >>= f) s S :=
  h.laid.before hp fun a t ho ht => hf a t ⟨h.behind, ht, ho.past h.laid.window h.past⟩

theorem stack {js : α → List NodeId} (h : s.Led text lo start F ids)
    (hp : ∀ lo F, s.Laid text lo F [] → Spares k F p s fun a t => t.Laid text lo F (js a)) :
    Spares k F p s fun a t => t.Led text lo start F (ids ++ js a) :=
  h.lift (h.laid.stack hp)

/-- From the token up to the last one that was taken. -/
theorem encloses (h : s.Led text lo start F ids) :
    s.Encloses text lo (start.merge s.window.previous) F ids := by
  obtain ⟨hlo, ⟨xs, hxs, h⟩, hpast⟩ := h
  rw [hpast.merge_eq]
  exact ⟨xs, hxs, h, hlo, h.row, le_rfl⟩

/-- The token alone. -/
theorem token (h : s.Led text lo start F []) (hle : start.start ≤ start.stop) :
    s.Encloses text lo start F [] := by
  obtain ⟨hlo, ⟨xs, hxs, h⟩, hpast⟩ := h
  obtain rfl := List.map_eq_nil_iff.1 hxs
  exact ⟨[], rfl, h, hlo, hle, hpast.stop⟩

end Led

namespace Encloses

variable {span : Span}

theorem laid (h : s.Encloses text lo span F ids) : s.Laid text span.start F ids := by
  obtain ⟨xs, hxs, h, -⟩ := h
  exact ⟨xs, hxs, h⟩

theorem before (h : s.Encloses text lo span F ids) (hp : Leafless k p)
    (hf : ∀ a t, t.Encloses text lo span F ids → Spares k F (f a) t S) :
    Spares k F (p >>= f) s S := by
  obtain ⟨xs, hxs, h, hlo, hrow, hstop⟩ := h
  exact h.before hp fun a t ho ht =>
    hf a t ⟨xs, hxs, ht, hlo, hrow, hstop.trans (ho.previous_le h.window)⟩

end Encloses

end ParseState

/-! ### New nodes -/

section

open ParseState

variable {text : String} {lo k : Nat} {s t : ParseState} {F ps xs : List Branch}
  {nodes : List NodeId} {id : ExprId} {start span : Span}

theorem addNode_outcome (e : Expr) (s : ParseState) : Meets (addNode e) s
    (fun id t => ∃ tree, s.tree.addExpr e = .ok (id, tree) ∧ t = { s with tree })
    fun _ t => t = s := by
  unfold addNode
  refine meets_bind_of_ok (get_eq s) ?_
  refine Meets.bind (R := fun r t => s = t ∧ s.tree.addExpr e = .ok r)
    (meets_ofStorage (fun r hr => ⟨rfl, hr⟩) fun _ _ => rfl) ?_
  rintro ⟨id, tree⟩ _ ⟨rfl, ha⟩
  exact meets_bind_of_ok rfl (meets_pure ⟨tree, ha, rfl⟩)

theorem addStmt_outcome (kind : StmtKind) (span : Span) (s : ParseState) :
    Meets (addStmt kind span) s
      (fun id t => ∃ tree, s.tree.addStmt ⟨kind, span⟩ = .ok (id, tree) ∧ t = { s with tree })
      fun _ t => t = s := by
  unfold addStmt
  refine meets_bind_of_ok (get_eq s) ?_
  refine Meets.bind (R := fun r t => s = t ∧ s.tree.addStmt ⟨kind, span⟩ = .ok r)
    (meets_ofStorage (fun r hr => ⟨rfl, hr⟩) fun _ _ => rfl) ?_
  rintro ⟨id, tree⟩ _ ⟨rfl, ha⟩
  exact meets_bind_of_ok rfl (meets_pure ⟨tree, ha, rfl⟩)

/-- A new expression takes a row into one branch. -/
theorem spares_addNode {e : Expr} (h : s.Encloses text lo e.span F nodes)
    (hc : s.tree.Covers (.expr e)) (hch : s.tree.children (.expr e) = nodes) :
    Spares k F (addNode e) s fun id t => t.Laid text lo F [.expr id] := by
  obtain ⟨ps, hps, h, hlo, hrow, hstop⟩ := h
  have hsteady := steady_addNode (k := k) e
  have hout := addNode_outcome e s
  refine ⟨meets_intro (fun id t hrun => ?_) fun stop t hrun => ?_⟩
  · obtain ⟨tree, ha, rfl⟩ := hout.of_ok hrun
    have ho := hsteady.ok hrun h.sound
    refine ⟨ho, [⟨.expr id, .expr e, ps⟩], rfl, ho.sound, h.window,
      h.holds.addExpr ha hc (hch.trans hps.symm), ?_, Span.row_singleton hlo hrow.le hstop⟩
    exact List.forall_mem_singleton.2 (Branch.nested_mk.2 ⟨hrow, h.nested⟩)
  · exact ⟨(hsteady.error hrun h.sound).1, fun _ => hout.of_error hrun ▸ h.holds.right⟩

/-- A new statement does so as well, with its children in the order of the text. -/
theorem spares_addStmt {kind : StmtKind} (h : s.Encloses text lo span F nodes)
    (hc : s.tree.Covers (.stmt ⟨kind, span⟩))
    (hch : (Node.stmt ⟨kind, span⟩).inOrder (s.tree.children (.stmt ⟨kind, span⟩)) = nodes) :
    Spares k F (addStmt kind span) s fun id t => t.Laid text lo F [.stmt id] := by
  obtain ⟨ps, rfl, h, hlo, hrow, hstop⟩ := h
  have hsteady := steady_addStmt (k := k) kind span
  have hout := addStmt_outcome kind span s
  have hperm := (Node.stmt ⟨kind, span⟩).inOrder_perm ps
  have hholds := h.holds.perm (hperm.symm.append_right F)
  replace hch := congrArg (Node.stmt ⟨kind, span⟩).inOrder hch
  rw [Node.inOrder_inOrder, Node.inOrder_map] at hch
  refine ⟨meets_intro (fun id t hrun => ?_) fun stop t hrun => ?_⟩
  · obtain ⟨tree, ha, rfl⟩ := hout.of_ok hrun
    have ho := hsteady.ok hrun h.sound
    refine ⟨ho, [_], rfl, ho.sound, h.window, hholds.addStmt ha hc hch, ?_,
      Span.row_singleton hlo hrow.le hstop⟩
    refine List.forall_mem_singleton.2 (Branch.nested_mk.2 ⟨?_, fun p hp => ?_⟩)
    · rw [← Node.inOrder_map, Node.inOrder_inOrder]
      exact hrow
    · exact h.nested p (hperm.mem_iff.1 hp)
  · exact ⟨(hsteady.error hrun h.sound).1, fun _ => hout.of_error hrun ▸ h.holds.right⟩

/-- The statements in a list become the children of a block or a namespace. -/
theorem spares_listStmt {form : ListRange → StmtKind} {ids : List StmtId}
    (hform : form = .block ∨ ∃ name, form = .namesp name)
    (h : s.Encloses text lo span F (ids.map .stmt)) :
    Spares k F (listStmt form span ids) s fun id t => t.Laid text lo F [.stmt id] := by
  have hlist := Pass.addStmtList_eq ids s
  obtain ⟨xs, hxs, hs, hlo, hrow, hstop⟩ := h
  have ho (k : Nat) := (steady_addStmtList (k := k) ids).ok hlist hs.sound
  have ht : Encloses text lo span F (ids.map .stmt)
      { s with tree := (s.tree.addStmtList ids).2 } :=
    ⟨xs, hxs, hs.onto (ho 0) (hs.holds.addStmtList ids), hlo, hrow, hstop⟩
  refine Spares.bind (Q := fun range t => range = (s.tree.addStmtList ids).1 ∧
    t = { s with tree := (s.tree.addStmtList ids).2 }) ⟨meets_of_ok hlist ⟨ho k, rfl, rfl⟩⟩ ?_
  rintro _ _ - ⟨rfl, rfl⟩
  obtain ⟨hc, hch⟩ := Pass.children_list hform s.tree ids span
  refine spares_addStmt ht hc ?_
  rcases hform with rfl | ⟨name, rfl⟩ <;> exact hch

/-! ### Expressions that are given up, called, checked and folded -/

/-- After a report, a row is released. -/
theorem spares_giveUp (ids : List ExprId) {code : ErrorCode} (span : Span) {span' : Span}
    (message label : String) (hcode : code.stage ≠ .lexer)
    (h : s.Encloses text lo span' F (ids.map .expr)) :
    Spares k F (do report code span message label; ids.forM release; errorExpr span') s
      fun id t => t.Laid text lo F [.expr id] := by
  obtain ⟨xs, hxs, h, hlo, hrow, hstop⟩ := h
  refine (h.leafless (idle_report hcode ..).leafless).bind fun _ t ho ⟨hrun, ht⟩ => ?_
  have hpos := pos_of_report hrun h.sound
  obtain ⟨u, hu, hholds⟩ := Pass.releases_eq ht.holds hxs
  have hrelease : t.Onto k { t with tree := u } :=
    (keeps_forM ids fun id => loud_release id).ok hu ht.sound hpos
  refine Spares.bind (Q := fun _ v => v = { t with tree := u })
    ⟨meets_of_ok hu ⟨hrelease, rfl⟩⟩ ?_
  rintro _ _ - rfl
  have hu : Lays text span'.start [] F { t with tree := u } :=
    ⟨hrelease.sound, ht.window, hholds, nofun, ht.row.le⟩
  have hprevious := hstop.trans (ho.previous_le h.window)
  exact spares_addNode ⟨[], rfl, hu, hlo, hrow.le, hprevious⟩ trivial rfl

/-- The name of a function becomes the call of it, or the call is given up. -/
theorem spares_callEnd {e : Expr} {ids : List ExprId}
    (h : s.Lays text lo (⟨.expr id, .expr e, ps⟩ :: xs) F)
    (hids : xs.map Branch.root = ids.map .expr) (hpast : s.window.Past e.span) :
    Spares k F (callEnd id e ids (e.span.merge s.window.previous)) s
      fun id t => t.Laid text lo F [.expr id] := by
  obtain ⟨hlo, hle, hrow⟩ := h.row
  rw [hpast.merge_eq]
  by_cases hvar : ∃ callee, e.kind = .var callee
  · obtain ⟨callee, hk⟩ := hvar
    have hholds := h.holds.perm
      (List.perm_middle.trans (.cons _ ((List.reverse_perm xs).append_right F))).symm
    obtain ⟨rfl, u, hset, hholds, -⟩ := Pass.call_tree hk hholds hids
      ⟨e.span.start, s.window.previous.stop⟩
    have hrun := Pass.callEnd_eq hk hset
    have ho : s.Onto k { s with tree := u } := by
      rw [callEnd_of_var hk] at hrun
      exact (steady_makeCall ..).ok hrun h.sound
    have hargs := hrow.mono hle le_rfl
    refine ⟨meets_of_ok hrun ⟨ho, [_], rfl, ho.sound, h.window, hholds, ?_,
      Span.row_singleton hlo hargs.le le_rfl⟩⟩
    exact List.forall_mem_singleton.2
      (Branch.nested_mk.2 ⟨hargs, fun p hp => h.nested p (List.mem_cons_of_mem _ hp)⟩)
  · rw [callEnd_of_other fun callee hk => hvar ⟨callee, hk⟩]
    have hrow : Span.Row e.span.start
        ((⟨.expr id, .expr e, ps⟩ :: xs : List Branch).map Branch.extent) s.window.previous.stop :=
      ⟨le_rfl, hle, hrow⟩
    refine spares_giveUp (id :: ids) _ _ _ (by decide)
      ⟨_, ?_, { h with row := hrow }, hlo, hrow, le_rfl⟩
    rw [List.map_cons, List.map_cons, hids]

/-- A check is only stopped by a fault. -/
theorem faults_check {α : Type} (p : Env → Check α) (s : ParseState) :
    Meets (check p) s (fun _ _ => True) fun e _ => ∃ fault, e = .fault fault :=
  meets_check (meets_intro (fun _ _ _ => trivial) fun fault _ _ => ⟨fault, rfl⟩)

/-- Without a value there is nothing to retype. -/
theorem spares_checkReturn {expected : Option TypeId} (span : Span) (h : s.Laid text lo F []) :
    Spares k F (check fun env => Check.checkReturn env none expected span) s
      fun _ t => t.Laid text lo F [] := by
  have hsteady : Steady k (check fun env => Check.checkReturn env none expected span) :=
    steady_check fun _ => Check.steady_checkReturn ..
  refine ⟨meets_intro (fun a t hrun => ?_) fun e t hrun => ⟨(hsteady.error hrun h.sound).1, ?_⟩⟩
  · have ho := hsteady.ok hrun h.sound
    obtain ⟨u, hcheck, rfl⟩ := check_ok hrun
    have hsupplies (type : TypeId) (_ : expected = some type) :
        s.env.Supplies (fun _ => True) type := .lambda trivial
    have hblind := Check.blind_checkReturn h.sound.reports span hsupplies
    obtain ⟨-, r, rfl, -⟩ := (hblind.together s.tree s.tree).of_ok hcheck
    exact ⟨ho, h.resume ho h.forest⟩
  · obtain ⟨fault, rfl⟩ := (faults_check _ s).of_error hrun
    exact fun he => absurd rfl (he fault)

/-- Checking a complete expression retypes its nodes where they stand. -/
theorem spares_check {α : Type} {p : Env → Check α} (hp : Completes id p)
    (h : s.Laid text lo F [.expr id]) :
    Spares k F (check p) s fun _ t => t.Laid text lo F [.expr id] := by
  obtain ⟨xs, hxs, h⟩ := h
  obtain ⟨x, rfl, hx⟩ := List.map_eq_singleton_iff.1 hxs
  have hsteady := steady_check (k := k) hp.steady
  refine ⟨meets_intro (fun a t hrun => ?_) fun e t hrun => ⟨(hsteady.error hrun h.sound).1, ?_⟩⟩
  · have ho := hsteady.ok hrun h.sound
    obtain ⟨u, hcheck, rfl⟩ := check_ok hrun
    obtain ⟨y, hholds, hretyped⟩ := hp.retypes h.holds hx h.sound.reports hcheck
    refine ⟨ho, [y], by rw [List.map_singleton, hretyped.root_eq, hx], ho.sound, h.window, hholds,
      ?_, ?_⟩
    · exact List.forall_mem_singleton.2 (hretyped.nested (h.nested x (by simp)))
    · rw [List.map_singleton, hretyped.extent_eq]
      exact h.row
  · obtain ⟨fault, rfl⟩ := (faults_check p s).of_error hrun
    exact fun he => absurd rfl (he fault)

/-- Folding puts literals where constants stood. -/
theorem spares_fold (h : s.Laid text lo F [.expr id]) :
    Spares k F (fold id) s fun _ t => t.Laid text lo F [.expr id] := by
  obtain ⟨xs, hxs, h⟩ := h
  obtain ⟨x, rfl, hx⟩ := List.map_eq_singleton_iff.1 hxs
  obtain ⟨v, tree, y, hrun, hturns, hfolds, -⟩ := fold_eq h.holds hx
  have ho := (steady_fold (k := k) id).ok hrun h.sound
  refine ⟨meets_of_ok hrun ⟨ho, [y], by rw [List.map_singleton, hfolds.root_eq, hx], ho.sound,
    h.window, hturns.holds, ?_, ?_⟩⟩
  · exact List.forall_mem_singleton.2 (hfolds.nested (h.nested x (by simp)))
  · rw [List.map_singleton, hfolds.extent_eq]
    exact h.row

section

variable {α β : Type} {p : Env → Check α} {f : α → Option Value → Parse β}
  {S : β → ParseState → Prop}

/-- A complete expression is checked and then folded. -/
theorem ParseState.Laid.completed (hp : Completes id p) (h : s.Laid text lo F [.expr id])
    (hf : ∀ a v t, s.Onto k t → t.Laid text lo F [.expr id] → Spares k F (f a v) t S) :
    Spares k F (check p >>= fun a => fold id >>= f a) s S := by
  refine (spares_check hp h).bind fun a t ho ht => ?_
  exact (spares_fold ht).bind fun v u ho' hu => hf a v u (ho.trans ho') hu

theorem ParseState.Led.completed (hp : Completes id p) (h : s.Led text lo start F [.expr id])
    (hf : ∀ a v t, t.Led text lo start F [.expr id] → Spares k F (f a v) t S) :
    Spares k F (check p >>= fun a => fold id >>= f a) s S :=
  h.laid.completed hp fun a v t ho ht =>
    hf a v t ⟨h.behind, ht, ho.past h.laid.window h.past⟩

end

end

end FrontEnd
