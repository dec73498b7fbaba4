import FrontEnd.Compilation
import FrontEnd.Proofs.Grammar.LinkTwins
import FrontEnd.Proofs.Grammar.Opening
import FrontEnd.Proofs.Program.Laws
import FrontEnd.Proofs.Syntax.Paths

/-! The statements of a compiled program are the roots of a forest of live nodes. -/

namespace FrontEnd

namespace ParseState.Opens

variable {text : String} {settings : Settings} {s : ParseState} {late quiet : Prop}

/-- At first there are the basic types, and no symbols. -/
theorem furnished (h : s.Opens text settings) :
    s.symbols.Furnished s.types s.names late quiet := by
  obtain ⟨hb, hall⟩ := TypeTable.holdsBasics_withMaxSlots
    (Interner.sound_withReserve settings.arenaReserve) h.basics
  have hkind (id : TypeId) (kind : TypeKind) (hk : s.types.kind id = .ok kind) :
      ∃ b : BasicType, id = b.id ∧ kind = .basic b := by
    obtain ⟨d, hd, rfl⟩ := TypeTable.desc_of_kind hk
    obtain ⟨b, rfl⟩ := hall id d hd
    obtain ⟨text, hd', -⟩ := hb b
    rw [hd] at hd'
    exact ⟨b, rfl, congrArg TypeDesc.kind (Except.ok.inj hd')⟩
  have hvar (key : ScopedKey) : s.symbols.vars.get? key = none :=
    h.symbols ▸ OpenTable.holds_empty.get? key
  have htype (key : ScopedKey) : s.symbols.types.get? key = none :=
    h.symbols ▸ OpenTable.holds_empty.get? key
  have hfunc (key : ScopedKey) : FuncTable.overloads s.symbols.funcs key = [] := by
    have hget : s.symbols.funcs.get? key = none := h.symbols ▸ OpenTable.holds_empty.get? key
    rw [FuncTable.overloads, hget]
    rfl
  refine ⟨hb, fun id b hk => ?_, fun _ id d hd => ?_, fun key type hk => ?_, fun key type hk => ?_,
    fun key o ho => ?_, fun key o ho => ?_, fun id signature hk => ?_, fun id name fields hk => ?_⟩
  · obtain ⟨c, rfl, he⟩ := hkind id _ hk
    rw [TypeKind.basic.inj he]
  · obtain ⟨b, rfl⟩ := hall id d hd
    exact hb.plain b
  · simp [htype] at hk
  · simp [hvar] at hk
  · simp [hfunc] at ho
  · simp [hfunc] at ho
  · obtain ⟨b, -, he⟩ := hkind id _ hk
    cases he
  · obtain ⟨b, -, he⟩ := hkind id _ hk
    cases he

end ParseState.Opens

namespace Pass

open Link

variable {P : Pass} {settings : Settings} {s s₁ s₂ : ParseState}

/-- Two runs begin alike. -/
theorem rel_opens (h₁ : s₁.Opens P.text { settings with folds := P.first })
    (h₂ : s₂.Opens P.text { settings with folds := P.second }) : P.runs.Rel [] s₁ s₂ := by
  have hbasics := h₁.basics.symm.trans h₂.basics
  simp only [Except.ok.injEq, Prod.mk.injEq] at hbasics
  have hsame : s₁.Same s₂ := ⟨h₁.window.trans h₂.window.symm, h₁.lines.trans h₂.lines.symm,
    hbasics.1, hbasics.2, h₁.symbols.trans h₂.symbols.symm, h₁.scope.trans h₂.scope.symm,
    h₁.reports.trans h₂.reports.symm, h₁.returns.trans h₂.returns.symm,
    h₁.scratch.trans h₂.scratch.symm⟩
  have hunbound {s : ParseState} {settings : Settings} (h : s.Opens P.text settings)
      (key : ScopedKey) : s.folder.bindingAt key = none := h.folder ▸ Folder.bindingAt_empty key
  have hnamed {s : ParseState} {settings : Settings} (h : s.Opens P.text settings) : P.Named s := by
    intro key v hv
    simp [hunbound h] at hv
  have hholds {s : ParseState} {settings : Settings} (h : s.Opens P.text settings) :
      s.tree.Holds [] := h.sound.tree.holds_nil
  refine ⟨h₁.sound, h₂.sound, ⟨⟨hsame, h₁.folds, h₂.folds, ?_, hnamed h₁, hnamed h₂, h₁.furnished,
    by simp [h₁.returns]⟩, [[]], [], [], [], hholds h₁, hholds h₂, .nil, fun _ => ⟨⟨fun name => ?_,
    trivial⟩, ?_⟩, fun _ key o ho => ?_, by simp, fun _ => ?_, fun _ => h₁.returns⟩, fun d =>
      ⟨?_, List.forall_mem_nil _⟩⟩
  · obtain ⟨n, hn, -⟩ := (Window.ofText P.text).skipErrors_eq
    exact ⟨n, h₁.window.trans (congrArg Prod.snd hn)⟩
  · exact ⟨h₂.symbols ▸ OpenTable.holds_empty.get? _, hunbound h₂ _⟩
  · rw [h₂.scope]
    rfl
  · have hget : s₁.symbols.funcs.get? key = none := h₁.symbols ▸ OpenTable.holds_empty.get? key
    rw [FuncTable.overloads, hget] at ho
    cases ho
  · rw [h₁.tree]
    exact Tree.comprises_withMaxSlots _
  · rw [← d] at h₂
    exact Except.ok.inj ((ParseState.ofText_eq_ok.2 h₁).symm.trans (ParseState.ofText_eq_ok.2 h₂))

/-- Where a single run is, with all statements that it has read: those of a forest. -/
structure Ends (P : Pass) (ids : List StmtId) (t : ParseState) (bs : List Branch) : Prop where
  holds : t.tree.Holds bs
  roots : bs.map Branch.root = ids.map .stmt
  counts : P.Quiet t → t.tree.Comprises (Branch.roots bs)
  settled : P.Quiet t → ∃ os : List Overload, (∀ b ∈ bs, b.Settled P.types (· ∈ os)) ∧
    ∀ o ∈ os, o.Signed P.types ∧ ∃ s ∈ Branch.stmts bs, s.Declares o
  guarded : P.Quiet t → ∀ b ∈ bs, b.Guarded P.types none
  furnished : P.Quiet t → t.symbols.Furnished t.types t.names t.window.Late (P.Quiet t)

theorem solo_runs (hp : P.first = P.second) : P.runs.Solo :=
  solo_twin hp fun hp hparts => hparts.1 hp

/-- A forest for the statements of a program, however reading it ends. -/
theorem exists_ends {es : List Entry} {ids : List StmtId} {t : ParseState}
    (hes : Entry.Stmts es ids ids) (h : P.runs.Retains (es ++ []) t) :
    ∃ bs, P.Ends ids t bs := by
  have hleft {es : List Entry} {is js : List StmtId} (hes : Entry.Stmts es is js) :
      es.flatMap Entry.left = (is.map NodeId.stmt).reverse := by
    induction hes with
    | nil => rfl
    | snoc _ ih => simp [Entry.left, ih]
  rw [Retains, List.append_nil] at h
  rcases h with h | ⟨hpos, bs, hholds, hsub⟩
  · obtain ⟨hb, Γ, os, bs, cs, hst⟩ := h.rel.1
    have hpieces := hst.pieces
    rw [← List.append_nil es] at hpieces
    obtain ⟨Γ', ds, xs, ys, bs', cs', rfl, rfl, rfl, hnil, hlisted⟩ := hpieces.stmts hes
    cases hnil
    simp only [List.append_nil] at hst
    have hleft : t.tree.Holds xs := hst.left.perm (List.reverse_perm xs)
    have hright : t.tree.Holds ys := hst.right.perm (List.reverse_perm ys)
    obtain rfl := hleft.eq_of_roots hright (hlisted.left.trans hlisted.right.symm)
    have hperm := Branch.allIn_perm (List.reverse_perm xs)
    refine ⟨xs, hright, hlisted.right, fun hq => (hst.counts hq).perm (hperm.map _),
      fun hq => ⟨os, fun b hb => (hlisted.settled hq b hb).fits, fun o ho => ?_⟩,
      fun hq b hb => (hlisted.settled hq b hb).guarded, fun _ => hb.furnished⟩
    · obtain ⟨hsigned, hacc⟩ := hst.accounted hq o ho
      refine ⟨hsigned, ?_⟩
      rcases hacc with hmem | ⟨s, hs, hd⟩
      · exact absurd hmem (hes.not_function _ _)
      · exact ⟨s, (Branch.stmts_perm (List.reverse_perm xs)).mem_iff.1 hs, hd⟩
  · rw [hleft hes] at hsub
    obtain ⟨cs, hcs, hroots⟩ := List.sublist_map_iff.1 hsub
    refine ⟨cs.reverse, (hholds.sublist hcs).perm (List.reverse_perm cs).symm, ?_,
      fun hq => absurd hq (not_quiet hpos), fun hq => absurd hq (not_quiet hpos),
      fun hq => absurd hq (not_quiet hpos), fun hq => absurd hq (not_quiet hpos)⟩
    rw [List.map_reverse, ← hroots, List.reverse_reverse]

/-- A run with itself. -/
def solo (folds : Bool) (text : String) (types : TypeTable) : Pass := ⟨folds, folds, text, types⟩

end Pass

namespace Compilation

open Parse Link

variable {text : String} {settings : Settings} {c : Compilation} {s t : ParseState}

/-- A compilation takes up what is left of reading. -/
theorem ofText_eq (hs : ParseState.ofText text settings = .ok s) : ofText text settings =
    match production .program s with
    | .ok items t => .ok ⟨t.tree, t.types, t.names, items, t.reports.flush.1, t.reports.truncated⟩
    | .error (.fault f) _ => .error (.fault f)
    | .error (.exhausted cause) _ => .error (.cause cause)
    | .error .reported _ => .error (.fault .endless) := by
  rw [ofText, hs]
  simp only [Halt.liftCause, Bind.bind, Except.bind, EStateM.run]
  cases production .program s with
  | ok items t => rfl
  | error e t => cases e <;> rfl

theorem exists_compiled (h : ofText text settings = .ok c) : ∃ s t, s.Opens text settings ∧
    production .program s = .ok c.items t ∧ c.tree = t.tree ∧ c.types = t.types ∧
    c.names = t.names ∧ c.reports = t.reports.flush.1 := by
  cases hs : ParseState.ofText text settings with
  | error e =>
    rw [ofText, hs] at h
    cases h
  | ok s =>
    rw [ofText_eq hs] at h
    split at h
    · rename_i items t hrun
      cases h
      exact ⟨s, t, ParseState.ofText_eq_ok.1 hs, hrun, rfl, rfl, rfl, rfl⟩
    · cases h
    · cases h
    · cases h

theorem exists_ok {ids : List StmtId} (hs : s.Opens text settings)
    (hrun : production .program s = .ok ids t) :
    ∃ c, ofText text settings = .ok c ∧ c.items = ids ∧ c.tree = t.tree ∧
      c.reports = t.reports.flush.1 :=
  ⟨_, by rw [ofText_eq (ParseState.ofText_eq_ok.2 hs), hrun], rfl, rfl, rfl⟩

theorem flush_eq_nil {q : Queue} (h : q.reports = #[]) : q.flush.1 = [] := by
  change q.reports.toList.mergeSort Report.before = []
  rw [h]
  exact List.mergeSort_nil

/-- Where reading ends without reports, the queue is empty. -/
theorem reports_eq_empty {q : Queue} (h : q.flush.1 = []) : q.reports = #[] := by
  have hlen := (List.mergeSort_perm q.reports.toList Report.before).length_eq
  rw [show q.reports.toList.mergeSort Report.before = [] from h] at hlen
  exact Array.eq_empty_of_size_eq_zero (by simpa using hlen.symm)

/-- What a single compilation does, whether it ends or not. -/
theorem solo_program (types : TypeTable) (hs : s.Opens text settings) :
    Meets (production .program) s
      (fun ids t => ∃ bs, (Pass.solo settings.folds text types).Ends ids t bs)
      fun e _ => ∃ f, e = .fault f ∧ ∃ verb, f = .overflow verb := by
  have hrel := Pass.rel_opens (P := .solo settings.folds text types) hs hs
  refine ((Pass.solo_runs rfl).program hrel).imp (fun ids t h => ?_) fun e t h => h
  obtain ⟨es, hes, hk⟩ := h
  exact Pass.exists_ends hes hk

/-- What is kept of a text that was read to its end. -/
def compiled (items : List StmtId) (s : ParseState) : Compilation :=
  ⟨s.tree, s.types, s.names, items, s.reports.flush.1, s.reports.truncated⟩

/-- Once reading has begun, it only fails where a number leaves its range. -/
theorem compiles_or_overflows (hs : s.Opens text settings) :
    (∃ items t, production .program s = .ok items t ∧
      ofText text settings = .ok (compiled items t)) ∨
    ∃ verb t, production .program s = .error (.fault (.overflow verb)) t ∧
      ofText text settings = .error (.fault (.overflow verb)) := by
  have htext := ofText_eq (ParseState.ofText_eq_ok.2 hs)
  cases hrun : production .program s with
  | ok items t =>
    rw [hrun] at htext
    exact .inl ⟨items, t, rfl, htext⟩
  | error e t =>
    obtain ⟨f, rfl, verb, rfl⟩ := (solo_program s.types hs).of_error hrun
    rw [hrun] at htext
    exact .inr ⟨verb, t, rfl, htext⟩

/-- A text of errors alone is read to its end at once. -/
theorem compiled_atEnd (hs : s.Opens text settings) (hend : s.window.atEnd = true) :
    ofText text settings = .ok (compiled [] s) := by
  rw [ofText_eq (ParseState.ofText_eq_ok.2 hs), program_atEnd hs.sound hend]
  rfl

/-- A text whose storages can be made is compiled, unless an operation overflows. -/
theorem compiles {Q : Compilation → Prop} (h : ∀ s items t, s.Opens text settings →
      production .program s = .ok items t → Q (compiled items t)) :
    match ofText text settings with
    | .ok c => Q c
    | .error (.cause e) => ParseState.ofText text settings = .error e
    | .error (.fault f) => ∃ verb, f = .overflow verb := by
  cases hs : ParseState.ofText text settings with
  | error e =>
    rw [ofText, hs]
    rfl
  | ok s =>
    have hopens := ParseState.ofText_eq_ok.1 hs
    rcases compiles_or_overflows hopens with ⟨items, t, hrun, htext⟩ | ⟨verb, t, -, htext⟩
    · rw [htext]
      exact h s items t hopens hrun
    · rw [htext]
      exact ⟨verb, rfl⟩

/-- The statements of a compilation, however it ends, are the roots of a forest of live nodes.
Without reports, the pools hold no other nodes. Reading uses no dead slot. -/
theorem items_root_forest (text : String) (settings : Settings) :
    match ofText text settings with
    | .ok c => c.tree.Forest (c.items.map .stmt) ∧
      (c.reports = [] → ∃ nodes : List NodeId, nodes.Nodup ∧
        (∀ id, id ∈ nodes ↔ ∃ ks, c.tree.Path (c.items.map .stmt) ks id) ∧ c.tree.Counts nodes)
    | .error (.cause e) => ParseState.ofText text settings = .error e
    | .error (.fault f) => ∃ verb, f = .overflow verb := by
  refine compiles fun s items t hopens hrun => ?_
  obtain ⟨bs, h⟩ := (solo_program t.types hopens).of_ok hrun
  refine ⟨h.roots ▸ h.holds.forest, fun hr => ⟨Branch.roots bs, h.holds.apart, fun id => ?_,
    (h.counts ⟨reports_eq_empty hr, .refl _⟩).counts⟩⟩
  change id ∈ Branch.roots bs ↔ ∃ ks, t.tree.Path (items.map .stmt) ks id
  rw [← h.roots]
  exact ⟨h.holds.exists_path, fun ⟨_, hp⟩ => h.holds.mem_roots_of_path hp⟩

end Compilation

end FrontEnd
