import FrontEnd.Proofs.Grammar.Accepting
import FrontEnd.Proofs.Reading.GraftedNodes

/-! Productions that graft branches, and those of types and names, which graft none. -/

namespace FrontEnd

open Parse

/-! ### Productions -/

namespace Production

/-- Where a production starts in the course of reading: what follows an operand, above that. -/
def Ready (o : ParseState) (F : List Branch) (s : ParseState) : Production → Prop
  | .infixes left .. => o.BearsExpr F left s
  | _ => o.Bears [] F s

/-- What it leads to. After storage ran out, a program ends all the same. -/
def Grafted (o : ParseState) (F : List Branch) : (q : Production) → q.Result → ParseState → Prop
  | .expr .., id, t | .infixes .., id, t => o.BearsExpr F id t
  | .args, ids, t => o.BearsExprs F ids t
  | .type, id, t => o.Bears [] F t ∧ t.types.Plain t.names id
  | .stmt, id, t => o.BearsStmt F id t
  | .items, ids, t => o.BearsStmts F ids t
  | .program, _, t => o.Reading t
  | .params, _, t | .fields _, _, t | .variants, _, t | .path _, _, t => o.Bears [] F t

end Production

/-- Two families of productions do the same in the course of reading. -/
def Parse.Grafting (o : ParseState) (parse parse' : Productions) : Prop :=
  ∀ q F s, q.Ready o F s → Grafts o q.reach F (parse q) (parse' q) s (q.Grafted o F)

variable {α : Type} {o s t : ParseState} {k : Nat} {F xs : List Branch} {name stored : Name}
  {p : Parse α} {Q : α → ParseState → Prop} {parse parse' : Productions}

namespace Parse.Grafting

variable (h : Grafting o parse parse')

include h

theorem expr (hs : o.Bears xs F s) (least : Level) (isValue : Bool) :
    Grafts o 1 F (parse (.expr least isValue)) (parse' (.expr least isValue)) s
      fun id t => ∃ y : Branch, y.root = .expr id ∧ o.Bears (y :: xs) F t :=
  ((h (.expr least isValue) (xs ++ F) s (hs.sink [])).imp
    fun _ _ ho ⟨y, hy, ht⟩ => ⟨y, hy, hs.stack ht ho⟩).frame xs

theorem args (hs : o.Bears xs F s) : Grafts o 1 F (parse .args) (parse' .args) s
    fun ids t => ∃ ys : List Branch, ys.map Branch.root = ids.map .expr ∧
      o.Bears (ys ++ xs) F t :=
  ((h .args (xs ++ F) s (hs.sink [])).imp
    fun _ _ ho ⟨ys, hys, ht⟩ => ⟨ys, hys, hs.stack ht ho⟩).frame xs

theorem type (hs : o.Bears [] F s) : Grafts o 1 F (parse .type) (parse' .type) s
    fun type t => o.Bears [] F t ∧ t.types.Plain t.names type :=
  h .type F s hs

theorem stmt (hs : o.Bears [] F s) :
    Grafts o 0 F (parse .stmt) (parse' .stmt) s (o.BearsStmt F) :=
  h .stmt F s hs

theorem items (hs : o.Bears [] F s) :
    Grafts o 0 F (parse .items) (parse' .items) s (o.BearsStmts F) :=
  h .items F s hs

end Parse.Grafting

/-- A step that changes tables, but no tree. -/
theorem ParseState.Bears.tables (h : o.Bears [] F s) (hp : Steady k p)
    (hm : Meets p s (fun a t => t.tree = s.tree ∧ (t.Sound → o.Reading t ∧ Q a t))
      fun _ t => t.tree = s.tree ∧ (t.Sound → o.Reading t)) :
    Grafts o k F p p s fun a t => o.Bears [] F t ∧ Q a t := by
  refine ⟨rfl, meets_intro (fun a t hrun => ?_) fun e t hrun => ?_⟩
  · have ho := hp.ok hrun h.reading.sound
    obtain ⟨htree, hread⟩ := hm.of_ok hrun
    obtain ⟨hr, hQ⟩ := hread ho.sound
    exact ⟨ho, ⟨hr, htree ▸ h.holds, nofun⟩, hQ⟩
  · have ho := (hp.error hrun h.reading.sound).1
    obtain ⟨htree, hread⟩ := hm.of_error hrun
    exact ⟨ho, hread ho.sound, fun _ => htree ▸ h.holds⟩

theorem ParseState.Bears.still (h : o.Bears [] F s) (hp : Steady k p)
    (hs : Keeps Still (fun s _ t => s.Still t) p) :
    Grafts o k F p p s fun _ t => o.Bears [] F t := by
  refine ⟨rfl, meets_intro (fun a t hrun => ?_) fun e t hrun => ?_⟩
  · have ho := hp.ok hrun h.reading.sound
    have hstill := hs.ok hrun
    exact ⟨ho, h.reading.onto ho hstill.toSameTables, hstill.tree ▸ h.holds, nofun⟩
  · have ho := (hp.error hrun h.reading.sound).1
    have hstill := hs.error hrun
    exact ⟨ho, h.reading.onto ho hstill.toSameTables, fun _ => hstill.tree ▸ h.holds⟩

/-! ### Names -/

/-- A name that was read, alone or qualified: it is none of a basic type, unless it was cut off. -/
def ParseState.Names (s : ParseState) (name : Name) : Prop :=
  ∃ text, s.names.Has name text ∧ ∀ k : ValueKind, text = k.basic.text → s.window.Late

namespace ParseState.Reading

theorem names (h : o.Reading s) (hn : s.Names name) (ho : s.Onto k t) : t.Names name := by
  obtain ⟨text, hhas, hlate⟩ := hn
  obtain ⟨n, hn⟩ := ho.window
  obtain ⟨whole, hreads⟩ := h.text
  exact ⟨text, ho.names _ _ hhas, fun k hk => hn ▸ (hlate k hk).drop hreads n⟩

theorem names_expectName (h : o.Reading s) {r : Name × Span} (hrun : expectName s = .ok r t) :
    t.Names r.1 := by
  obtain ⟨hident, hwindow, -, -, hhas⟩ := expectName_ok hrun h.sound
  obtain ⟨whole, hreads⟩ := h.text
  obtain ⟨n, hn, -⟩ := s.window.bump.skipErrors_eq
  refine ⟨_, hhas, fun k hk => ?_⟩
  rw [hwindow, show s.advanced.window = s.window.bump.drop n from congrArg Prod.snd hn]
  exact (hreads.not_typeName hident k hk).drop hreads.bump n

theorem names_declaredName (h : o.Reading s) (hn : s.Names name)
    (hrun : declaredName name s = .ok stored t) : t.Names stored := by
  obtain ⟨_, _, hget, hrun⟩ := bind_eq_ok hrun
  cases hget
  cases hscope : s.scope.namespace? with
  | some outer =>
    rw [hscope] at hrun
    obtain ⟨_, _, hget, hrun⟩ := bind_eq_ok hrun
    cases hget
    obtain ⟨r, _, hmake, hrun⟩ := bind_eq_ok hrun
    obtain ⟨hmake, rfl⟩ := ofStorage_ok hmake
    cases hrun
    exact ⟨_, Qualified.has_make h.sound.names hmake,
      fun k hk => absurd hk (BasicType.text_ne_qualified _ _ _)⟩
  | none =>
    rw [hscope] at hrun
    cases hrun
    exact hn

end ParseState.Reading

/-! ### Types -/

theorem grafts_namedType (h : o.Bears [] F s) : Grafts o k F namedType namedType s
    fun type t => o.Bears [] F t ∧ t.types.Plain t.names type := by
  refine h.before idle_expectName fun r t hrun ht => .reads (get_eq t) ?_
  cases hr : t.env.resolveType r.1 with
  | some type =>
    have ho := (idle_expectName.steady 1).ok hrun h.reading.sound
    have hplain (hlate : ¬s.window.Late) id d (hd : t.types.desc id = .ok d) :
        t.types.Plain t.names id := by
      rw [(idle_expectName.still.ok hrun).types] at hd
      exact (h.reading.plain hlate id d hd).mono ho.types ho.names
    have hname (hlate : s.window.Late) : t.names.Has r.1 "" :=
      hlate.lexeme ▸ (expectName_ok hrun h.reading.sound).2.2.2.2
    exact .pure ht.reading ⟨ht, t.env.plain_resolveType ht.reading.named hplain
      ht.reading.sound.names hname hr⟩
  | none =>
    refine ht.before (idle_quote r.1) fun quoted u _ hu => ?_
    refine hu.before (idle_report (by decide) ..) fun _ v _ hv => ?_
    exact .pure hv.reading ⟨hv, hv.reading.basics.plain .invalid⟩

theorem grafts_addFunction (h : o.Bears [] F s) (signature : Signature) :
    Grafts o k F (addFunction signature) (addFunction signature) s
      fun type t => o.Bears [] F t ∧ t.types.Plain t.names type := by
  have hsound := h.reading.sound
  refine h.tables (steady_addFunction signature)
    (meets_addFunction (meets_intro (fun id t hrun => ?_) fun e t hrun => ?_))
  · obtain ⟨types, names⟩ := t
    obtain ⟨-, hg, -, hn, ⟨text, full, hd, hhas, hfull⟩, hall⟩ :=
      (addFunction_outcome hsound.types hsound.names ..).of_ok hrun
    have hplain : types.Plain names id := ⟨_, full, hd, hhas, fun k he =>
      absurd he (TypeTable.functionText_ne hfull k.basic)⟩
    exact ⟨rfl, fun hs => ⟨h.reading.addType hs hn hg hall nofun fun _ => hplain, hplain⟩⟩
  · obtain ⟨types, names⟩ := t
    obtain ⟨rfl, -, hn, -⟩ := (addFunction_outcome hsound.types hsound.names ..).of_error hrun
    exact ⟨rfl, fun hs => h.reading.pass hs ⟨0, rfl⟩ hn ⟨rfl, rfl, rfl, rfl⟩⟩

/-! ### Productions of types and names -/

namespace Parse.Grafting

variable (h : Grafting o parse parse')

include h

theorem signatureEnd (hs : o.Bears [] F s) (params : List (TypeId × Name) × Bool) :
    Grafts o 1 F (signatureEnd parse params) (signatureEnd parse' params) s
      fun type t => o.Bears [] F t ∧ t.types.Plain t.names type := by
  refine hs.before (idle_expect .closeParen) fun _ t _ ht => ?_
  refine ht.before (idle_eat .thinArrow) fun arrow u _ hu => ?_
  cases arrow with
  | true => exact (h.type hu).bind fun _ _ _ hv => grafts_addFunction hv.1 _
  | false => exact grafts_addFunction hu _

theorem signature (hs : o.Bears [] F s) :
    Grafts o 1 F (signature parse) (signature parse') s
      fun type t => o.Bears [] F t ∧ t.types.Plain t.names type := by
  refine hs.before (idle_expect .openParen) fun _ t _ ht => ?_
  refine ht.before (idle_currentIs .closeParen) fun none u _ hu => ?_
  cases none with
  | true => exact h.signatureEnd hu ([], false)
  | false => exact (h .params F u hu).bind fun params _ _ hv => h.signatureEnd hv params

theorem typeName (hs : o.Bears [] F s) : Grafts o 1 F (typeName parse) (typeName parse') s
    fun type t => o.Bears [] F t ∧ t.types.Plain t.names type := by
  refine hs.before idle_current fun token t _ ht => ?_
  cases hbasic : basicType? token.kind with
  | some type =>
    obtain ⟨b, -, rfl⟩ := exists_basicType hbasic
    exact ht.before idle_advance fun _ u _ hu => .pure hu.reading ⟨hu, hu.reading.basics.plain b⟩
  | none =>
    dsimp only
    split
    · exact ht.before idle_advance fun _ u _ hu => h.signature hu
    · split
      · exact grafts_namedType ht
      · split
        · exact ht.reject (by decide) ..
        · exact ht.expected (by decide) ..

theorem params (hs : o.Bears [] F s) : Grafts o 1 F (params parse) (params parse') s
    fun _ t => o.Bears [] F t := by
  refine hs.before (idle_eat .ellipsis) fun dots t _ ht => ?_
  cases dots with
  | true => exact .pure ht.reading ht
  | false =>
    refine (h.type ht).bind fun type u _ ⟨hu, _⟩ => ?_
    refine hu.before idle_paramName fun name v _ hv => ?_
    refine hv.before (idle_eat .comma) fun more w _ hw => ?_
    cases more with
    | true => exact (h .params F w hw).bind fun _ _ _ hx => .pure hx.reading hx
    | false => exact .pure hw.reading hw

theorem fields (hs : o.Bears [] F s) (done : List Field) :
    Grafts o 1 F (fields parse done) (fields parse' done) s fun _ t => o.Bears [] F t := by
  refine hs.before (idle_currentIs .closeBrace) fun closed t _ ht => ?_
  cases closed with
  | true => exact .pure ht.reading ht
  | false =>
    refine ht.before idle_atEnd fun atEnd u _ hu => ?_
    cases atEnd with
    | true => exact .pure hu.reading hu
    | false =>
      refine hu.before idle_expectName fun r v _ hv => ?_
      refine hv.before (idle_expect .colon) fun _ v _ hv => ?_
      refine (h.type hv).bind fun type v _ ⟨hv, _⟩ => ?_
      refine hv.before (idle_expect .semicolon) fun _ w _ hw => ?_
      split
      · refine hw.before (idle_quote _) fun _ x _ hx => ?_
        exact hx.before (idle_report (by decide) ..) fun _ y _ hy => h (.fields done) F y hy
      · exact h (.fields _) F w hw

theorem variants (hs : o.Bears [] F s) : Grafts o 1 F (variants parse) (variants parse') s
    fun _ t => o.Bears [] F t := by
  refine hs.before (idle_currentIs .closeBrace) fun closed t _ ht => ?_
  cases closed with
  | true => exact .pure ht.reading ht
  | false =>
    refine ht.before idle_expectName fun r u _ hu => ?_
    refine hu.before (idle_eat .comma) fun more v _ hv => ?_
    cases more with
    | true => exact (h .variants F v hv).bind fun _ _ _ hw => .pure hw.reading hw
    | false => exact .pure hv.reading hv

theorem path (hs : o.Bears [] F s) (name : Name) :
    Grafts o 1 F (path parse name) (path parse' name) s fun _ t => o.Bears [] F t := by
  refine hs.before (idle_eat .dot) fun dot t _ ht => ?_
  cases dot with
  | true =>
    refine ht.before idle_expectName fun r u _ hu => ?_
    exact hu.before (idle_qualify ..) fun name v _ hv => h (.path name) F v hv
  | false => exact .pure ht.reading ht

end Parse.Grafting

end FrontEnd
