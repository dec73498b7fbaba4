import FrontEnd.Proofs.Reading.GraftedExpressions

/-! Productions of declarations: a constant is bound to a value of its own type only. -/

namespace FrontEnd

open Parse

variable {o s t : ParseState} {k : Nat} {F ys : List Branch} {x : Branch} {name stored : Name}
  {type declared : TypeId} {id : ExprId} {init : Option ExprId} {isConst : Bool} {start : Span}
  {signature : Signature} {parse parse' : Productions}

/-! ### Variables -/

/-- The names of constants stand for variables of basic types. -/
theorem ParseState.Reading.basic_of_constants (h : o.Reading s)
    (hn : s.constants name = true) : ∃ b : BasicType, s.env.resolveVar name = some b.id := by
  obtain ⟨v, depth, hresolve, -⟩ := h.binding_of_constants hn
  refine ⟨v.kind.basic, ?_⟩
  rw [v.kind.id_basic]
  exact s.env.resolveVar_of_resolve hresolve

/-- No type but its own goes by the text of the type of a constant. -/
theorem grafts_checkInitializer (h : o.Bears [x] F s) (hx : x.root = .expr id)
    (hd : declared ≠ .invalid → s.types.Plain s.names declared) :
    Grafts o k F (check fun env => Check.checkInitializer env name declared id)
      (check fun env => Check.checkInitializer env name declared id) s fun type t =>
      ∃ y, y.root = .expr id ∧ o.Bears [y] F t ∧
        (y.isConstant t.constants = true → t.types.Plain t.names type) := by
  have hcheck := grafts_check (k := k) (.initializer name declared) h hx
  refine hcheck.imp fun type t _ ⟨hrun, y, hy, hxy, ht⟩ => ⟨y, hy, ht, fun hc => ?_⟩
  have ho := (steady_check (k := 1) fun _ => Check.steady_checkInitializer name declared id).ok hrun
    h.reading.sound
  have hx' : x.isConstant s.constants = true := by
    rwa [← hxy.isConstant_eq, ← ho.constants_eq]
  have hplain : s.types.Plain s.names type := by
    obtain ⟨u, hrun, -⟩ := check_ok hrun
    rcases Check.type_of_checkInitializer hrun with ⟨hne, rfl⟩ | ⟨v, hinfer⟩
    · exact hd hne
    · obtain ⟨b, rfl⟩ := Check.basic_of_infer h.reading.anchored
        (fun name hn => h.reading.basic_of_constants hn) hx' h.holds.left hx hinfer
      exact h.reading.basics.plain b
  exact hplain.mono ho.types ho.names

/-- Without an initializer a variable has its declared type, and with one a type that fits. -/
theorem grafts_variableType (h : o.Bears ys F s) (hys : ys.map Branch.root = init.toList.map .expr)
    (hd : declared ≠ .invalid → s.types.Plain s.names declared) :
    Grafts o k F (variableType name declared init isConst start)
      (variableType name declared init isConst start) s fun type t =>
      ∃ zs : List Branch, zs.map Branch.root = init.toList.map .expr ∧ o.Bears zs F t ∧
        ∀ z ∈ zs, z.isConstant t.constants = true → t.types.Plain t.names type := by
  cases init with
  | some id =>
    obtain ⟨x, rfl, hx⟩ := List.map_eq_singleton_iff.1 hys
    refine (grafts_checkInitializer h hx hd).imp fun type t _ ⟨y, hy, ht, hp⟩ =>
      ⟨[y], by simp [hy], ht, ?_⟩
    simpa using hp
  | none =>
    obtain rfl : ys = [] := List.map_eq_nil_iff.1 hys
    cases isConst with
    | false => exact .pure h.reading ⟨[], rfl, h, nofun⟩
    | true =>
      refine h.before (idle_spanFrom start) fun span t _ ht => ?_
      refine ht.before (idle_quote name) fun quoted u _ hu => ?_
      exact hu.before (idle_report (by decide) ..) fun _ v _ hv =>
        .pure hv.reading ⟨[], rfl, hv, nofun⟩

theorem grafts_foldInitializer (h : o.Bears ys F s)
    (hys : ys.map Branch.root = init.toList.map .expr) :
    Grafts o k F (foldInitializer init) (foldInitializer init) s fun value t =>
      (∃ zs : List Branch, zs.map Branch.root = init.toList.map .expr ∧ o.Bears [] (zs ++ F) t) ∧
        ∀ v, value = some v → ∃ y ∈ ys, y.isConstant s.constants = true := by
  cases init with
  | some id =>
    obtain ⟨x, rfl, hx⟩ := List.map_eq_singleton_iff.1 hys
    refine (grafts_fold h hx).imp fun value t _ ⟨⟨y, hy, ht⟩, hv⟩ => ⟨⟨[y], by simp [hy], ht⟩, ?_⟩
    simpa using hv
  | none =>
    obtain rfl : ys = [] := List.map_eq_nil_iff.1 hys
    exact .pure h.reading ⟨⟨[], rfl, h⟩, by simp⟩

theorem grafts_finishInitializer (h : o.Bears ys F s)
    (hys : ys.map Branch.root = init.toList.map .expr) :
    Grafts o k F (finishInitializer name init start) (finishInitializer name init start) s
      fun r t =>
      (∃ zs : List Branch, zs.map Branch.root = init.toList.map .expr ∧ o.Bears [] (zs ++ F) t) ∧
        ∀ v, r.2.1 = some v → ∃ y ∈ ys, y.isConstant s.constants = true := by
  refine (grafts_foldInitializer h hys).bind fun value t _ ⟨⟨zs, hzs, ht⟩, hv⟩ => ?_
  have hidle : Idle (do
      let _ ← expect .semicolon
      let span ← spanFrom start
      return (← declaredName name, value, span)) :=
    (idle_expect _).bind fun _ => (idle_spanFrom _).bind fun _ => (idle_declaredName _).bind
      fun _ => idle_pure _
  refine ((ht.idle hidle).frame _).imp fun r u _ ⟨hrun, hu⟩ => ⟨⟨zs, hzs, hu⟩, ?_⟩
  obtain ⟨_, _, -, hrun⟩ := bind_eq_ok hrun
  obtain ⟨_, _, -, hrun⟩ := bind_eq_ok hrun
  obtain ⟨_, _, -, hrun⟩ := bind_eq_ok hrun
  cases hrun
  exact hv

/-- The declaration of a variable is one more in the course of reading. -/
theorem grafts_storeVariable (h : o.Bears ys F s)
    (hys : ys.map Branch.root = init.toList.map .expr)
    (hp : ∀ y ∈ ys, y.isConstant s.constants = true → s.types.Plain s.names type) :
    Grafts o 0 F (storeVariable name type init isConst start)
      (storeVariable name type init isConst start) s fun _ t =>
      ∃ zs : List Branch, zs.map Branch.root = init.toList.map .expr ∧ o.Bears [] (zs ++ F) t := by
  refine (grafts_finishInitializer h hys).run.bind ?_
  rintro ⟨stored, value, span⟩ t ho ⟨hfinish, ⟨zs, hzs, ht⟩, hvalue⟩
  have hplain (v : Value) (hv : value = some v) : t.types.Plain t.names type := by
    obtain ⟨y, hy, hc⟩ := hvalue v hv
    exact (hp y hy hc).mono ho.types ho.names
  have hdeclare := ht.tables (p := declareVariable stored type isConst value)
    (Q := fun _ _ => True) (steady_declareVariable ..)
    (meets_intro (fun _ u hrun => ?_) fun e u hrun => ?_)
  · refine (hdeclare.frame _).bind fun _ u _ hu => .pure hu.1.reading ⟨zs, hzs, hu.1⟩
  · have htree : u.tree = t.tree := by
      obtain ⟨_, _, rfl, -⟩ := (meets_declareVariable ..).of_ok hrun
      rfl
    have hstore : storeVariable name type init isConst start s = .ok (stored, value, span) u :=
      (bind_of_ok hfinish).trans (bind_of_ok hrun)
    refine ⟨htree, fun hs => ⟨ht.reading.declareVariable hrun hs hplain ?_, trivial⟩⟩
    obtain ⟨log, hc⟩ := h.reading.course
    exact ⟨_, hc.store hstore⟩
  · obtain ⟨rfl, -⟩ := (meets_declareVariable ..).of_error hrun
    exact ⟨rfl, fun _ => ht.reading⟩

theorem grafts_variableDecl {declared : Option TypeId} (h : o.Bears ys F s)
    (hys : ys.map Branch.root = init.toList.map .expr)
    (hd : ∀ type, declared = some type → s.types.Plain s.names type) :
    Grafts o 0 F (variableDecl name declared init isConst start)
      (variableDecl name declared init isConst start) s (o.BearsStmt F) := by
  have hplain (hne : declared.getD .invalid ≠ .invalid) :
      s.types.Plain s.names (declared.getD .invalid) := by
    cases declared with
    | some type => exact hd type rfl
    | none => exact absurd rfl hne
  rw [variableDecl_eq]
  refine (grafts_variableType h hys hplain).bind fun type t _ ⟨zs, hzs, ht, hp⟩ => ?_
  refine (grafts_storeVariable ht hzs hp).bind fun r u _ ⟨zs, hzs, hu⟩ => ?_
  refine grafts_addStmt _ r.2.2 hu.reading hu.holds trivial ?_
  rw [hzs]
  cases init <;> rfl

/-! ### Functions -/

theorem still_declareFunction (stored : Name) (type : TypeId) (signature : Signature)
    (isNative : Bool) : Keeps ParseState.Still (fun s _ t => s.Still t)
      (declareFunction stored type signature isNative) := by
  refine keeps_get_bind fun s => ?_
  refine Meets.bind (R := fun _ t => t = s) (meets_ofHalting (fun _ _ => rfl) fun _ _ => .refl s) ?_
  rintro ⟨mangled, names⟩ t rfl
  have hnames : t.Still { t with names } := ⟨⟨rfl, rfl, rfl, rfl⟩, rfl⟩
  refine meets_bind_of_ok rfl (meets_bind_of_ok (a := ⟨stored, t.scope.depth⟩) rfl ?_)
  refine Meets.bind (R := fun _ u => u = { t with names })
    (meets_ofFault (fun _ _ => rfl) fun _ _ => hnames) ?_
  rintro ⟨replaced, funcs⟩ _ rfl
  exact meets_bind_of_ok rfl (meets_pure ⟨⟨rfl, rfl, rfl, rfl⟩, rfl⟩)

theorem grafts_declareFunction (isNative : Bool) (h : o.Bears [] F s) :
    Grafts o 0 F (declareFunction stored type signature isNative)
      (declareFunction stored type signature isNative) s fun _ t => o.Bears [] F t :=
  h.still (steady_declareFunction ..) (still_declareFunction ..)

theorem grafts_nativeEnd (signature : Option Signature) (h : o.Bears [] F s) :
    Grafts o 0 F (nativeEnd name type signature start) (nativeEnd name type signature start) s
      (o.BearsStmt F) := by
  refine h.before (idle_expect .semicolon) fun _ t _ ht => ?_
  refine ht.before (idle_spanFrom start) fun span u _ hu => ?_
  cases signature with
  | none => exact grafts_addStmt [] span hu.reading hu.holds trivial rfl
  | some signature =>
    refine hu.before (idle_declaredName name) fun stored v _ hv => ?_
    exact (grafts_declareFunction true hv).bind fun mangled w _ hw =>
      grafts_addStmt [] span hw.reading hw.holds trivial rfl

/-! ### Types -/

/-- A new type goes by the name of a declaration. -/
theorem grafts_declareType {add : TypeTable → Name → Except StorageError (TypeId × TypeTable)}
    (kind : Name → TypeKind) (h : o.Bears [] F s) (hn : s.Names name)
    (hadd : ∀ types stored, add types stored = types.add (kind stored) stored)
    (hbasic : ∀ stored b, kind stored ≠ .basic b) :
    Grafts o 0 F (declareType name add) (declareType name add) s fun _ t => o.Bears [] F t := by
  have hsteady : Steady 0 (declareType name add) :=
    steady_declareType name fun types stored id types' hs ha => by
      rw [hadd] at ha
      exact ⟨(hs.add ha).1, (hs.add ha).2.2.1⟩
  refine (h.tables (Q := fun _ _ => True) hsteady ?_).imp fun _ _ _ ht => ht.1
  have hstored := (h.idle (k := 0) (idle_declaredName name)).meets
  refine Meets.bind (R := fun stored t => declaredName name s = .ok stored t ∧ o.Bears [] F t ∧
    t.tree = s.tree) (meets_intro (fun stored t hrun => ?_) fun e t hrun => ?_) ?_
  · exact ⟨hrun, (hstored.of_ok hrun).2.2, ((idle_declaredName name).still.ok hrun).tree⟩
  · exact ⟨((idle_declaredName name).still.error hrun).tree,
      fun _ => (hstored.of_error hrun).2.1⟩
  rintro stored t ⟨hrun, ht, htree⟩
  obtain ⟨text, hhas, htext⟩ := h.reading.names_declaredName hn hrun
  refine meets_bind_of_ok (get_eq t) ?_
  rw [hadd]
  refine Meets.bind (R := fun r u => u = t ∧ t.types.add (kind stored) stored = .ok r)
    (meets_ofStorage (fun _ hr => ⟨rfl, hr⟩) fun _ _ => ⟨htree, fun _ => ht.reading⟩) ?_
  rintro ⟨type, types⟩ t ⟨rfl, ha⟩
  refine meets_bind_of_ok (a := ⟨stored, t.scope.depth⟩) rfl (meets_bind_of_ok rfl ?_)
  refine meets_pure ⟨htree, fun hs => ⟨?_, trivial⟩⟩
  obtain ⟨hsound, hd, hg, hall⟩ := ht.reading.sound.types.add ha
  have hplain (hlate : ¬t.window.Late) : types.Plain t.names type :=
    ⟨_, text, hd, hhas, fun k hk => absurd (htext k hk) hlate⟩
  have hadded : o.Reading { t with types, names := t.names } :=
    ht.reading.addType (ht.reading.sound.onto_types hsound hg 0).sound
      (.refl _) hg (fun i d hi => (hall i d hi).imp_left fun ⟨hi, hd⟩ => ⟨hi, hd ▸ rfl⟩)
      (hbasic stored) hplain
  exact hadded.insertType hs hd

/-! ### Productions -/

namespace Parse.Grafting

variable (h : Grafting o parse parse')

include h

theorem bodyEnd (hs : o.Bears [] F s) (stored mangled : Name) (type : TypeId) (start : Span) :
    Grafts o 0 F (bodyEnd parse stored mangled type start)
      (bodyEnd parse' stored mangled type start)
      s (o.BearsStmt F) := by
  refine ((h.functionBody hs type).mono (Nat.zero_le 1)).bind fun body t _ ⟨y, hy, ht⟩ => ?_
  refine .reads (a := start.merge t.window.previous) rfl ?_
  refine grafts_addStmt [y] _ ht.reading ht.holds trivial ?_
  rw [List.map_singleton, hy]
  rfl

theorem functionEnd (hs : o.Bears [] F s) (name : Name) (type : TypeId) (start : Span) :
    Grafts o 0 F (functionEnd parse name type start) (functionEnd parse' name type start) s
      (o.BearsStmt F) := by
  refine hs.before (idle_declaredName name) fun stored t _ ht => .reads (get_eq t) ?_
  refine ht.before (idle_ofFault _) fun signature u _ hu => ?_
  cases signature with
  | some signature =>
    exact (grafts_declareFunction false hu).bind fun mangled v _ hv => h.bodyEnd hv ..
  | none => exact h.bodyEnd hu ..

theorem functionDecl (hs : o.Bears [] F s) (name : Name) (declared : Option TypeId) (start : Span) :
    Grafts o 0 F (functionDecl parse name declared start) (functionDecl parse' name declared start)
      s (o.BearsStmt F) := by
  refine hs.before idle_advance fun func t _ ht => ?_
  refine ((h.signature ht).mono (Nat.zero_le 1)).bind fun type u _ ⟨hu, _⟩ => ?_
  refine hu.before (idle_spanFrom _) fun span v _ hv => ?_
  dsimp only
  split
  · refine .reads (get_eq v) (hv.before (idle_ofFault _) fun same w _ hw => ?_)
    cases same with
    | true => exact h.functionEnd hw ..
    | false =>
      refine hw.before (idle_quote name) fun _ w _ hw => ?_
      refine hw.before (idle_quoteType _) fun _ w _ hw => ?_
      refine hw.before (idle_quoteType _) fun _ w _ hw => ?_
      exact hw.before (idle_report (by decide) ..) fun _ w _ hw => h.functionEnd hw ..
  · exact h.functionEnd hv ..

theorem native (hs : o.Bears [] F s) :
    Grafts o 0 F (native parse) (native parse') s (o.BearsStmt F) := by
  refine hs.before idle_advance fun token t _ ht => ?_
  refine ht.before idle_expectName fun name t _ ht => ?_
  refine ht.before (idle_expect .colon) fun _ t _ ht => ?_
  refine ht.before idle_currentSpan fun typeStart t _ ht => ?_
  refine ((h.type ht).mono (Nat.zero_le 1)).bind fun type u _ ⟨hu, _⟩ => ?_
  refine hu.before (idle_spanFrom _) fun typeSpan v _ hv => .reads (get_eq v) ?_
  refine hv.before (idle_ofFault _) fun signature w _ hw => ?_
  dsimp only
  split
  · refine hw.before (idle_quote _) fun _ w _ hw => ?_
    refine hw.before (idle_quoteType _) fun _ w _ hw => ?_
    exact hw.before (idle_report (by decide) ..) fun _ w _ hw => grafts_nativeEnd signature hw
  · exact grafts_nativeEnd signature hw

theorem initializerEnd (hs : o.Bears [] F s) (name : Name) {declared : Option TypeId}
    (isConst : Bool) (start : Span)
    (hd : ∀ type, declared = some type → s.types.Plain s.names type) :
    Grafts o 0 F (initializerEnd parse name declared isConst start)
      (initializerEnd parse' name declared isConst start) s (o.BearsStmt F) := by
  refine (hs.idle (idle_currentIs .kwFunc)).bind fun func t ho ⟨_, ht⟩ => ?_
  cases func with
  | true => exact h.functionDecl ht ..
  | false =>
    refine ((h.expr ht .assign true).mono (Nat.zero_le 1)).bind fun init u ho' ⟨x, hx, hu⟩ => ?_
    have how := ho.trans ho'
    exact grafts_variableDecl hu (by simp [hx]) fun type he =>
      (hd type he).mono how.types how.names

theorem declarationEnd (hs : o.Bears [] F s) (name : Name) {declared : Option TypeId}
    (isConst : Bool) (start : Span)
    (hd : ∀ type, declared = some type → s.types.Plain s.names type) :
    Grafts o 0 F (declarationEnd parse name declared isConst start)
      (declarationEnd parse' name declared isConst start) s (o.BearsStmt F) := by
  refine (hs.idle (idle_eat .equal)).bind fun equal t ho ⟨_, ht⟩ => ?_
  have hd' (type : TypeId) (he : declared = some type) : t.types.Plain t.names type :=
    (hd type he).mono ho.types ho.names
  cases equal with
  | true => exact h.initializerEnd ht name isConst start hd'
  | false => exact grafts_variableDecl ht rfl hd'

theorem declaration (hs : o.Bears [] F s) (isConst : Bool) (start : Span) :
    Grafts o 0 F (declaration parse isConst start) (declaration parse' isConst start) s
      (o.BearsStmt F) := by
  refine hs.before idle_expectName fun name t _ ht => ?_
  refine ht.before (idle_expect .colon) fun _ t _ ht => ?_
  refine ht.before (idle_currentIs .equal) fun untyped t _ ht => ?_
  cases untyped with
  | true => exact h.declarationEnd ht _ isConst start nofun
  | false =>
    have htyped : Grafts o 0 F (some <$> parse .type) (some <$> parse' .type) t fun declared u =>
        o.Bears [] F u ∧ ∀ type, declared = some type → u.types.Plain u.names type :=
      (((h.type ht).mono (Nat.zero_le 1)).imp fun type u _ ⟨hu, hp⟩ =>
        ⟨hu, fun _ he => Option.some.inj he ▸ hp⟩).map
    exact htyped.bind fun declared u _ ⟨hu, hd⟩ => h.declarationEnd hu _ isConst start hd

theorem constant (hs : o.Bears [] F s) :
    Grafts o 0 F (constant parse) (constant parse') s (o.BearsStmt F) := by
  refine .reads (get_eq s) (hs.before idle_advance fun token t _ ht => ?_)
  dsimp only
  split
  · exact h.declaration ht ..
  · exact ht.expected (by decide) _

omit h in
theorem typeDecl {members : Production} {kind : members.Result → Name → TypeKind}
    {form : Name → TypeId → StmtKind}
    (hm : ∀ t, o.Bears [] F t →
      Grafts o 1 F (parse members) (parse' members) t fun _ u => o.Bears [] F u)
    (hkind : ∀ read stored b, kind read stored ≠ .basic b)
    (hform : form = .structDecl ∨ form = .enumDecl) (hs : o.Bears [] F s) :
    Grafts o 0 F (typeDecl parse members kind form) (typeDecl parse' members kind form) s
      (o.BearsStmt F) := by
  refine hs.before idle_advance fun token t _ ht => ?_
  refine ht.before idle_expectName fun name u hrun hu => ?_
  have hname := ht.reading.names_expectName hrun
  refine (hu.idle (idle_expect .openBrace)).bind fun _ v hov ⟨_, hv⟩ => ?_
  refine ((hm v hv).mono (Nat.zero_le 1)).bind fun read w how hw => ?_
  refine (ParseState.Bears.idle hw (idle_closeType _)).bind fun span x hox ⟨_, hx⟩ => ?_
  have hnamed := hu.reading.names hname ((hov.trans how).trans hox)
  refine (grafts_declareType (kind read) hx hnamed (fun _ _ => rfl)
    (hkind read)).bind fun r y _ hy => ?_
  rcases hform with rfl | rfl <;> exact grafts_addStmt [] span hy.reading hy.holds trivial rfl

theorem structDecl (hs : o.Bears [] F s) :
    Grafts o 0 F (structDecl parse) (structDecl parse') s (o.BearsStmt F) := by
  rw [structDecl_eq, structDecl_eq]
  exact typeDecl (h (.fields []) F) nofun (.inl rfl) hs

theorem enumDecl (hs : o.Bears [] F s) :
    Grafts o 0 F (enumDecl parse) (enumDecl parse') s (o.BearsStmt F) := by
  rw [enumDecl_eq, enumDecl_eq]
  exact typeDecl (h .variants F) nofun (.inr rfl) hs

theorem usingDecl (hs : o.Bears [] F s) :
    Grafts o 0 F (usingDecl parse) (usingDecl parse') s (o.BearsStmt F) := by
  refine hs.before idle_advance fun token t _ ht => ?_
  refine ht.before idle_expectName fun first u _ hu => ?_
  refine ((h (.path first.1) F u hu).mono (Nat.zero_le 1)).bind fun path v _ hv => ?_
  refine ParseState.Bears.before hv (idle_expect .semicolon) fun _ w _ hw => ?_
  refine hw.before (idle_spanFrom _) fun span w _ hw => ?_
  refine hw.before (idle_usingTarget path) fun target w _ hw => ?_
  have hstill : Keeps ParseState.Still (fun s _ t => s.Still t)
      (modify fun s => { s with scope := s.scope.pushUsing target } : Parse PUnit) :=
    keeps_modify fun _ => ⟨⟨rfl, rfl, rfl, rfl⟩, rfl⟩
  exact (hw.still (steady_pushUsing target) hstill).bind fun _ x _ hx =>
    grafts_addStmt [] span hx.reading hx.holds trivial rfl

end Parse.Grafting

end FrontEnd
