import FrontEnd.Proofs.Name.InternerGrowth
import FrontEnd.Symbol.LinkName
import FrontEnd.Types.Table

/-! Texts that are composed from pieces: of qualified names, link names and function types. -/

namespace FrontEnd

theorem Draft.finish_eq_ok {d : Draft} {text : String} :
    d.finish = .ok text ↔ d.complete = true ∧ d.text = text := by
  unfold finish
  split <;> simp_all

namespace Draft

variable {d : Draft} {piece text : String}

/-- A draft that is complete after a step was complete before, and has left nothing out. -/
theorem complete_put (h : (d.put piece).complete = true) :
    d.complete = true ∧ (d.put piece).text = d.text ++ piece := by
  unfold put at h ⊢
  split at h
  next hfits =>
    rw [if_pos hfits]
    exact ⟨h, rfl⟩
  next => cases h

theorem complete_puts {pieces : List String} (h : (d.puts pieces).complete = true) :
    d.complete = true ∧ (d.puts pieces).text = d.text ++ String.join pieces := by
  induction pieces generalizing d with
  | nil => exact ⟨h, String.append_empty.symm⟩
  | cons piece pieces ih =>
    unfold puts at h ⊢
    split at h
    next hfits =>
      obtain ⟨hc, htext⟩ := ih h
      obtain ⟨hd, hput⟩ := complete_put hc
      rw [if_pos hfits, htext, hput, String.join_cons, String.append_assoc]
      exact ⟨hd, rfl⟩
    next => cases h

theorem complete_groups {groups : List (List String)}
    (h : (groups.foldl puts d).complete = true) : d.complete = true ∧
      (groups.foldl puts d).text = d.text ++ String.join groups.flatten := by
  induction groups generalizing d with
  | nil => exact ⟨h, String.append_empty.symm⟩
  | cons group groups ih =>
    obtain ⟨hc, htext⟩ := ih h
    obtain ⟨hd, hputs⟩ := complete_puts hc
    rw [List.foldl_cons, htext, hputs, List.flatten_cons, String.join_append, String.append_assoc]
    exact ⟨hd, rfl⟩

/-- Pieces that all fit are all written. -/
theorem puts_of_fits {pieces : List String}
    (h : d.size + (String.join pieces).utf8ByteSize ≤ d.reserve) :
    d.puts pieces = { d with text := d.text ++ String.join pieces } := by
  induction pieces generalizing d with
  | nil => exact congrArg (Draft.mk · d.reserve d.complete) String.append_empty.symm
  | cons piece pieces ih =>
    rw [String.join_cons, String.utf8ByteSize_append] at h
    have hfits : d.size + piece.utf8ByteSize ≤ d.reserve := by omega
    have hrest : { d with text := d.text ++ piece }.size + (String.join pieces).utf8ByteSize ≤
        d.reserve := by
      rw [size, String.utf8ByteSize_append]
      exact (Nat.add_assoc ..).trans_le h
    rw [puts, if_pos hfits, put, if_pos hfits, ih hrest, String.join_cons, String.append_assoc]

theorem groups_of_fits {groups : List (List String)}
    (h : d.size + (String.join groups.flatten).utf8ByteSize ≤ d.reserve) :
    groups.foldl puts d = { d with text := d.text ++ String.join groups.flatten } := by
  induction groups generalizing d with
  | nil => exact congrArg (Draft.mk · d.reserve d.complete) String.append_empty.symm
  | cons group groups ih =>
    rw [List.flatten_cons, String.join_append, String.utf8ByteSize_append] at h
    have hrest : { d with text := d.text ++ String.join group }.size +
        (String.join groups.flatten).utf8ByteSize ≤ d.reserve := by
      rw [size, String.utf8ByteSize_append]
      exact (Nat.add_assoc ..).trans_le h
    rw [List.foldl_cons, puts_of_fits (by omega), ih hrest, List.flatten_cons, String.join_append,
      String.append_assoc]

/-- A draft that was finished holds all its pieces. -/
theorem text_of_finish {pieces : List String} (h : (d.puts pieces).finish = .ok text) :
    text = d.text ++ String.join pieces := by
  obtain ⟨hc, rfl⟩ := finish_eq_ok.1 h
  exact (complete_puts hc).2

end Draft

/-! ### Qualified names -/

theorem Qualified.has_make {names names' : Interner} {scratch : Nat} {outer name n : Name}
    (h : names.Sound) (hm : make names scratch outer name = .ok (n, names')) :
    names'.Has n (names.lookup outer ++ "::" ++ names.lookup name) := by
  unfold make draft at hm
  cases hd : ((Draft.withReserve scratch).puts
      [names.lookup outer, "::", names.lookup name]).finish with
  | error e => simp [hd, Bind.bind, Except.bind] at hm
  | ok text =>
    simp only [hd, Bind.bind, Except.bind] at hm
    obtain ⟨-, hhas, -⟩ := h.intern hm
    have := Draft.text_of_finish hd
    simpa [this, Draft.withReserve, String.append_assoc] using hhas

theorem Qualified.has_find? {names : Interner} {scratch : Nat} {outer name n : Name}
    (hn : names.Sound) (h : find? names scratch outer name = some n) :
    names.Has n (names.lookup outer ++ "::" ++ names.lookup name) := by
  obtain ⟨text, htext, hget⟩ := Option.bind_eq_some_iff.1 h
  unfold draft at htext
  cases hd : ((Draft.withReserve scratch).puts
      [names.lookup outer, "::", names.lookup name]).finish with
  | error e => simp [hd, Except.toOption] at htext
  | ok full =>
    obtain rfl : full = text := by simpa [hd, Except.toOption] using htext
    have := Draft.text_of_finish hd
    simpa [this, Draft.withReserve, String.append_assoc] using hn.get? hget

/-- No basic type goes by the text of a qualified name. -/
theorem BasicType.text_ne_qualified (b : BasicType) (outer inner : String) :
    outer ++ "::" ++ inner ≠ b.text := by
  intro he
  have hmem : ':' ∈ b.text.toList := by simp [← he]
  revert hmem
  cases b <;> decide

/-! ### Link names -/

theorem LinkName.exists_of_make {types : TypeTable} {names names' : Interner} {scratch : Nat}
    {name n : Name} {params : List TypeId} {variadic : Bool}
    (hm : make types names scratch name params variadic = .ok (n, names')) : ∃ d text,
      draft types names scratch name params variadic = .ok d ∧ d.finish = .ok text ∧
        names.intern text = .ok (n, names') := by
  unfold make at hm
  cases hd : draft types names scratch name params variadic with
  | error e => simp [hd, Halt.liftFault, Bind.bind, Except.bind] at hm
  | ok d =>
    cases hf : d.finish with
    | error e => simp [hd, hf, Halt.liftFault, Halt.liftCause, Bind.bind, Except.bind] at hm
    | ok text =>
      cases hi : names.intern text with
      | error e => simp [hd, hf, hi, Halt.liftFault, Halt.liftCause, Bind.bind, Except.bind] at hm
      | ok r =>
        simp only [hd, hf, hi, Halt.liftFault, Halt.liftCause, Bind.bind, Except.bind,
          Except.ok.injEq] at hm
        exact ⟨d, text, rfl, hf, hm ▸ hi⟩

/-! ### Function types -/

namespace TypeTable

variable {types : TypeTable} {names : Interner} {scratch : Nat} {signature : Signature}
  {text : String}

/-- The text of a function type is put together from those of its parameters and of its result. -/
theorem exists_of_functionText (h : types.functionText names scratch signature = .ok text) :
    ∃ params ret, signature.params.mapM (types.text names) = .ok params ∧
      types.text names signature.ret = .ok ret ∧
      text = String.join (functionPieces params signature.variadic ret).flatten := by
  unfold functionText at h
  cases hp : signature.params.mapM (types.text names) with
  | error f => simp [hp, Halt.liftFault, Bind.bind, Except.bind] at h
  | ok params =>
    cases hr : types.text names signature.ret with
    | error f => simp [hp, hr, Halt.liftFault, Bind.bind, Except.bind] at h
    | ok ret =>
      simp only [hp, hr, Halt.liftFault, Bind.bind, Except.bind] at h
      cases hd : ((functionPieces params signature.variadic ret).foldl Draft.puts
          (Draft.withReserve scratch)).finish with
      | error e => simp [hd, Halt.liftCause] at h
      | ok full =>
        simp only [hd, Halt.liftCause, Except.ok.injEq] at h
        obtain ⟨hc, hfull⟩ := Draft.finish_eq_ok.1 hd
        refine ⟨params, ret, rfl, rfl, ?_⟩
        rw [← h, ← hfull, (Draft.complete_groups hc).2]
        exact String.empty_append

/-- The text of a function type is composed if it fits. -/
theorem functionText_of_fits {params : List String} {ret : String}
    (hparams : signature.params.mapM (types.text names) = .ok params)
    (hret : types.text names signature.ret = .ok ret)
    (htext : String.join (functionPieces params signature.variadic ret).flatten = text)
    (hfits : text.utf8ByteSize ≤ min scratch maxOffset) :
    types.functionText names scratch signature = .ok text := by
  have hsize : (Draft.withReserve scratch).size +
      (String.join (functionPieces params signature.variadic ret).flatten).utf8ByteSize ≤
        (Draft.withReserve scratch).reserve := by
    rw [htext]
    exact (Nat.zero_add _).trans_le hfits
  unfold functionText
  simp only [hparams, hret, Halt.liftFault, Bind.bind, Except.bind, Draft.groups_of_fits hsize,
    Draft.finish, htext]
  exact congrArg Except.ok String.empty_append

/-- Composing the text of a function type is no fault where the texts of its parts are known. -/
theorem functionText_ne_fault {params : List String} {ret : String} {f : Fault}
    (hparams : signature.params.mapM (types.text names) = .ok params)
    (hret : types.text names signature.ret = .ok ret) :
    types.functionText names scratch signature ≠ .error (.fault f) := by
  unfold functionText
  simp only [hparams, hret, Halt.liftFault, Bind.bind, Except.bind]
  cases ((functionPieces params signature.variadic ret).foldl Draft.puts
    (Draft.withReserve scratch)).finish <;> exact nofun

/-- No basic type goes by the text of a function type. -/
theorem functionText_ne (h : types.functionText names scratch signature = .ok text)
    (b : BasicType) : text ≠ b.text := by
  obtain ⟨params, ret, -, -, rfl⟩ := exists_of_functionText h
  intro he
  have hmem : '(' ∈ b.text.toList := by
    rw [← he]
    cases params <;> simp [functionPieces]
  revert hmem
  cases b <;> decide

end TypeTable

end FrontEnd
