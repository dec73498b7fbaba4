import FrontEnd.Grammar.Declaration
import FrontEnd.Grammar.Expression
import FrontEnd.Proofs.Pair.ParseRuns

/-!
Two runs of reading one text: declarations, scopes, and what follows a statement that failed.
-/

namespace FrontEnd

open Tie

variable {D : Prop} {n : Nat} {α β : Type}

/-! ### Overloads -/

section

variable {t u : TypeTable} (h : t.desc = u.desc)

include h

theorem FuncTable.extend_eq (o : Overload) (chain : List Overload) :
    extend t o chain = extend u o chain := by
  induction chain with
  | nil => rfl
  | cons p rest ih =>
    simp only [extend, Overload.sameParams, TypeTable.equal_eq h, ih]

theorem FuncTable.declare_eq (funcs : FuncTable) : declare funcs t = declare funcs u := by
  funext key o
  simp only [declare, extend_eq h]

end

namespace Parse

variable {p : Parse α} {f : Except Stop α → Parse β} {s t : ParseState}

/-! ### Declarations -/

theorem key_bind (name : Name) (f : ScopedKey → Parse α) (s : ParseState) :
    (key name >>= f) s = f ⟨name, s.scope.depth⟩ s := rfl

theorem steps_declareVariable (name : Name) (type : TypeId) (isConst : Bool)
    (value : Option Value) : (tie D n).Steps (declareVariable name type isConst value) := by
  refine steps_get_bind (fun s => ?_) fun s t h => ?_
  · cases value with
    | none => exact leads_of_reports rfl
    | some v =>
      cases isConst with
      | false => exact leads_of_reports rfl
      | true =>
        rw [key_bind]
        dsimp only
        cases s.types.equal v.kind.type type with
        | ok same => exact leads_of_reports rfl
        | error f => exact leads_of_reports rfl
  · have hequal := TypeTable.equal_eq h.types.desc_eq
    rw [key_bind, key_bind, ← hequal, ← h.symbols, ← h.folder, ← h.scope]
    cases value with
    | none => exact .ok { h with symbols := rfl, scope := rfl, folder := rfl }
    | some v =>
      cases isConst with
      | false => exact .ok { h with symbols := rfl, scope := rfl, folder := rfl }
      | true =>
        dsimp only
        cases s.types.equal v.kind.type type with
        | ok same => exact .ok { h with symbols := rfl, scope := rfl, folder := rfl }
        | error f => exact .stop h

theorem steps_declareParams (signature : Signature) :
    (tie D n).Steps (declareParams signature) := by
  refine steps_modify (fun _ => leads_of_reports rfl) fun s t h => .inl ?_
  rw [← h.symbols, ← h.scope]
  exact { h with symbols := rfl, scope := rfl }

theorem steps_declareFunction (stored : Name) (type : TypeId) (signature : Signature)
    (isNative : Bool) : (tie D n).Steps (declareFunction stored type signature isNative) := by
  have hdeclare (funcs : FuncTable) (types : TypeTable) (mangled : Name) : (tie D n).Steps (do
      let overload : Overload :=
        { mangled, params := signature.params, variadic := signature.variadic, isNative
          ret := signature.ret, type }
      let r ← ofFault (FuncTable.declare funcs types (← key stored) overload)
      modify fun s => { s with symbols := { s.symbols with funcs := r.2 } }
      return mangled) := by
    refine (steps_key stored).bind fun key => (steps_ofFault _).bind fun r => ?_
    refine Lockstep.bind ?_ fun _ => steps_pure _
    refine steps_modify (fun _ => leads_of_reports rfl) fun s t h => .inl ?_
    rw [← h.symbols]
    exact { h with symbols := rfl }
  refine steps_get_bind (fun s => ?_) fun s t h => ?_
  · refine leads_answer (ofHalting_eq _ s) (fun _ => leads_of_reports rfl) fun r _ => ?_
    have hnames : (tie D n).leads (none, s) (none, { s with names := r.2 }) := leads_of_reports rfl
    exact Lawful.trans hnames ((hdeclare s.symbols.funcs s.types r.1).left _)
  · refine pair_answer ofHalt_ne_reported (ofHalting_eq _ s) (ofHalting_eq _ t) h
      (LinkName.make_answers h.types h.names stored signature.params signature.variadic) ?_
    rintro ⟨mangled, names⟩ ⟨mangled', names'⟩ ⟨hname, hnames⟩
    obtain rfl : mangled = mangled' := hname
    have hsame : FuncTable.declare t.symbols.funcs t.types =
        FuncTable.declare s.symbols.funcs s.types := by
      rw [h.symbols, FuncTable.declare_eq h.types.desc_eq]
    rw [hsame]
    exact (hdeclare s.symbols.funcs s.types mangled).pair { s with names }
      { t with names := names' }
      { h with names := hnames }

theorem steps_declareType (name : Name)
    {add : TypeTable → Name → Except StorageError (TypeId × TypeTable)}
    (hadd : ∀ (t u : TypeTable) (stored : Name), t.Matches D u →
      Answers D (fun x y => x.1 = y.1 ∧ x.2.Matches D y.2) (add t stored) (add u stored)) :
    (tie D n).Steps (declareType name add) := by
  refine (steps_declaredName name).bind fun stored => ?_
  refine steps_get_bind (fun s => ?_) fun s t h => ?_
  · exact leads_answer (ofStorage_eq _ s) (fun _ => leads_of_reports rfl)
      fun _ _ => leads_of_reports rfl
  · refine pair_answer nofun (ofStorage_eq _ s) (ofStorage_eq _ t) h (hadd _ _ stored h.types) ?_
    rintro ⟨type, types⟩ ⟨type', types'⟩ ⟨htype, htypes⟩
    obtain rfl : type = type' := htype
    dsimp only
    rw [key_bind, key_bind, ← h.symbols, ← h.scope]
    exact .ok { h with types := htypes, symbols := rfl, scope := rfl }

/-! ### Lookups -/

theorem steps_usingTarget (path : Name) : (tie D n).Steps (usingTarget path) :=
  lockstep_look (fun _ => steps_pure _) fun _ _ h => by simp only [h.scope, h.names.find?_eq]

theorem steps_isConstantName (name : Name) : (tie D n).Steps (isConstantName name) := by
  refine lockstep_look (fun s => ?_) fun _ _ h => by rw [h.symbols, h.scope, h.folder]
  split
  · exact steps_pure _
  · exact steps_pure _

theorem steps_namedType : (tie D n).Steps namedType := by
  refine steps_expectName.bind fun name => lockstep_look (fun s => ?_) fun _ _ h => ?_
  · split
    · exact steps_pure _
    · exact (steps_quote _).bind fun _ => (steps_report (by decide) ..).bind fun _ => steps_pure _
  · rw [(matches_env h).resolveType_eq]

/-! ### Scopes -/

theorem steps_pushUsing (target : Name) :
    (tie D n).Steps (modify fun s => { s with scope := s.scope.pushUsing target } : Parse Unit) :=
  steps_modify (fun _ => leads_of_reports rfl) fun _ _ h => .inl
    { h with scope := congrArg (Scope.pushUsing · target) h.scope }

/-- What is put back after a run leaves its reports alone. -/
theorem steps_ensuring {after : ParseState → ParseState} (hp : (tie D n).Steps p)
    (hreports : ∀ s, (after s).reports = s.reports)
    (hstep : ∀ s t, s.InStep D n t → (after s).InStep D n (after t)) :
    (tie D n).Steps (ensuring p after) := by
  have hafter (e : Option Stop) (s : ParseState) : (tie D n).leads (e, s) (e, after s) := by
    refine ⟨show Queue.Later _ (after s).reports from hreports s ▸ .refl _, fun hs => ?_⟩
    cases hs with
    | told hr hcode => exact .told ((hreports s).symm ▸ hr) hcode
    | refused hq => exact .refused ((hreports s).symm ▸ hq)
    | fault => exact .fault
  have hend (s : ParseState) : (tie D n).leads (ending (p s)) (ending (ensuring p after s)) := by
    unfold ensuring
    cases p s with
    | ok a u => exact hafter none u
    | error e u => exact hafter (some e) u
  refine .mk (fun s => Lawful.trans (hp.left s) (hend s)) fun s t h => ?_
  have hpair := hp.pair s t h
  have hs := hend s
  have ht := hend t
  unfold ensuring at hs ht ⊢
  generalize p s = x at hpair hs ⊢
  generalize p t = y at hpair ht ⊢
  cases hpair with
  | ok hu => exact .ok (hstep _ _ hu)
  | stop hu => exact .stop (hstep _ _ hu)
  | parted hparted => exact .parted (Lawful.right (Lawful.left hparted hs) ht)

theorem steps_inScope (hp : (tie D n).Steps p) : (tie D n).Steps (inScope p) := by
  refine Lockstep.bind ?_ fun _ => steps_ensuring hp (fun _ => rfl) fun _ _ h => ?_
  · exact steps_modify (fun _ => leads_of_reports rfl) fun _ _ h => .inl
      { h with scope := congrArg Scope.enter h.scope }
  · unfold leaveScope
    rw [← h.scope, ← h.symbols, ← h.folder]
    exact { h with scope := rfl, symbols := rfl, folder := rfl }

theorem steps_returning (ret : TypeId) (hp : (tie D n).Steps p) :
    (tie D n).Steps (returning ret p) := by
  refine Lockstep.bind ?_ fun _ => steps_ensuring hp (fun _ => rfl) fun s t h =>
    { h with returns := congrArg List.tail h.returns }
  exact steps_modify (fun _ => leads_of_reports rfl) fun s t h => .inl
    { h with returns := congrArg (ret :: ·) h.returns }

theorem steps_inNamespace (name : Name) (hp : (tie D n).Steps p) : (tie D n).Steps (do
    modify fun s => { s with scope := s.scope.pushNamespace name }
    ensuring p fun s => { s with scope := s.scope.popNamespace.2 }) := by
  refine Lockstep.bind ?_ fun _ => steps_ensuring hp (fun _ => rfl) fun s t h =>
    { h with scope := congrArg (·.popNamespace.2) h.scope }
  exact steps_modify (fun _ => leads_of_reports rfl) fun s t h => .inl
    { h with scope := congrArg (Scope.pushNamespace · name) h.scope }

/-! ### Recovery -/

theorem steps_skipToBoundary (limit : Nat) : (tie D n).Steps (skipToBoundary limit) := by
  induction limit with
  | zero => exact steps_pure _
  | succ limit ih =>
    refine steps_current.bind fun token => ?_
    dsimp only
    split
    · exact steps_advance.bind fun _ => steps_pure _
    · split
      · exact steps_advance.bind fun _ => ih
      · exact steps_pure _

theorem steps_synchronize (start : Span) : (tie D n).Steps (synchronize start) := by
  have hskip : (tie D n).Steps (do skipToBoundary (← get).window.unread) :=
    lockstep_look (fun s => steps_skipToBoundary _) fun _ _ h => by rw [h.window]
  refine steps_currentSpan.bind fun span => steps_atEnd.bind fun atEnd => ?_
  dsimp only
  split
  · exact steps_advance.bind fun _ => hskip
  · exact hskip

theorem attempt_bind (p : Parse α) (f : Except Stop α → Parse β) (s : ParseState) :
    (attempt p >>= f) s = match p s with
      | .ok a u => f (.ok a) u
      | .error e u => f (.error e) u := by
  cases hr : p s with
  | ok a u => exact bind_of_ok (show attempt p s = .ok (.ok a) u by rw [attempt, hr])
  | error e u => exact bind_of_ok (show attempt p s = .ok (.error e) u by rw [attempt, hr])

/-- A run that catches a stop still tells of a storage that ran out. -/
theorem steps_attempt (hp : (tie D n).Steps p) (hf : ∀ r, (tie D n).Steps (f r))
    (hcaught : ∀ e s, (tie D n).leads (some e, s) (ending (f (.error e) s))) :
    (tie D n).Steps (attempt p >>= f) := by
  have hend (s : ParseState) :
      (tie D n).leads (ending (p s)) (ending ((attempt p >>= f) s)) := by
    rw [attempt_bind]
    cases p s with
    | ok a u => exact (hf _).left u
    | error e u => exact hcaught e u
  refine .mk (fun s => Lawful.trans (hp.left s) (hend s)) fun s t h => ?_
  have hpair := hp.pair s t h
  have hs := hend s
  have ht := hend t
  rw [attempt_bind] at hs ht ⊢
  rw [attempt_bind]
  generalize p s = x at hpair hs ⊢
  generalize p t = y at hpair ht ⊢
  cases hpair with
  | ok hu => exact (hf _).pair _ _ hu
  | stop hu => exact (hf _).pair _ _ hu
  | parted hparted => exact .parted (Lawful.right (Lawful.left hparted hs) ht)

end Parse

end FrontEnd
