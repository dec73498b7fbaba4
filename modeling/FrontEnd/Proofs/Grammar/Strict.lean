import FrontEnd.Proofs.Grammar.LinkTwins

/-!
Reading without recovery and without loss: a statement that fails ends it, and so does one that is
not in the final tree as it was read. Where reading leaves no report, it is the same.
-/

namespace FrontEnd

namespace Parse

section

variable (final : Tree) (parse : Productions)

/-- A statement that was read and stays as it is. -/
def lasting (id : StmtId) : Parse StmtId := do
  let stmt ← ofFault ((← get).tree.stmt id)
  if final.node? (.stmt id) = some (.stmt stmt) then return id else throw .reported

def strictStatement : Parse StmtId := do lasting final (← statement parse)

/-- The statements of a body, of which none fails. -/
def strictItems : Parse (List StmtId) := do
  if ← eat .closeBrace then return []
  if ← atEnd then unexpected "`\x7d`"
  let id ← parse .stmt
  return id :: (← parse .items)

/-- Statements up to the end of the text, of which none fails. -/
def strictProgram : Parse (List StmtId) := do
  if ← atEnd then return []
  let id ← parse .stmt
  return id :: (← parse .program)

/-- One production, given the parsing of all. -/
def strictStep : Productions
  | .stmt => strictStatement final parse
  | .items => strictItems parse
  | .program => strictProgram parse
  | q => step parse q

end

/-- Productions that go through at most so many others. -/
def strictWithin (final : Tree) : Nat → Productions
  | 0 => fun _ => throw (.fault .endless)
  | depth + 1 => strictStep final (strictWithin final depth)

/-- A production, read without recovery. Every statement in it is in the final tree. -/
def strictly (final : Tree) (q : Production) : Parse q.Result := do
  strictWithin final (8 * ((← get).window.unread + 1)) q

variable {α β : Type} {i n : Nat} {final : Tree} {s t : ParseState} {p : Parse α}
  {f : Except Stop α → Parse β} {parse parse' : Productions}

/-! ### Calm results -/

/-- A calm result begins so. -/
theorem Quietly.start (h : Quietly final p s) (hp : Steady i p) (hs : s.Sound) : Calm final s :=
  let ⟨_, _, hrun, ht⟩ := h
  ht.of_grows (hp.ok hrun hs).grows

/-- What was tried succeeded, if there is no calm result after a failure. -/
theorem Quietly.tried (h : Quietly final (attempt p >>= f) s)
    (hf : ∀ e t, p s = .error e t → ¬Quietly final (f (.error e)) t) :
    ∃ a t, p s = .ok a t ∧ Quietly final (f (.ok a)) t := by
  obtain ⟨b, u, hb, hu⟩ := h
  cases hr : p s with
  | ok a t =>
    rw [bind_of_ok (a := .ok a) (u := t) (by simp only [attempt, hr])] at hb
    exact ⟨a, t, rfl, b, u, hb, hu⟩
  | error e t =>
    rw [bind_of_ok (a := .error e) (u := t) (by simp only [attempt, hr])] at hb
    exact absurd ⟨b, u, hb, hu⟩ (hf e t hr)

theorem not_quietly_throw {e : Stop} : ¬Quietly final (throw e : Parse α) s := by
  rintro ⟨_, _, h, -⟩
  cases h

/-! ### Statements -/

/-- A statement that is read in calm stays. -/
theorem tracks_strictStatement (h : ∀ q, Steady q.reach (parse q)) (hs : s.Sound)
    (hc : Tracks (some final) 1 (statement parse) (statement parse') s) :
    Tracks (some final) 1 (statement parse) (strictStatement final parse') s := by
  refine { hc with eq := fun hq => ?_ }
  obtain ⟨id, t, hrun, ht⟩ := hq final rfl
  have hrun' : statement parse' s = .ok id t := hc.eq hq ▸ hrun
  obtain ⟨node, hnode⟩ := (stores_statement h).stored s id t hrun hs
  obtain ⟨stmt, hstmt, rfl⟩ := Option.map_eq_some_iff.1 hnode
  have hread : t.tree.stmt id = .ok stmt := Pool.read_eq_ok.2 hstmt
  have hlasting : lasting final id t = .ok id t := by
    unfold lasting
    rw [bind_of_ok (get_eq t), hread]
    exact congrFun (if_pos (ht.remains id _ hnode)) t
  rw [hrun, strictStatement, bind_of_ok hrun', hlasting]

/-- Statements go on after one that was tried, in calm: it did not fail. -/
theorem tried_eq {f : Except Stop StmtId → Parse (List StmtId)} {g : StmtId → Parse (List StmtId)}
    (hp : Steady 0 (parse .stmt)) (hf : ∀ r, Steady 0 (f r))
    (hc : Tracks (some final) 1 (parse .stmt) (parse' .stmt) s) (hs : s.Sound)
    (hstop : ∀ e t, t.Sound → e ≠ .reported → ¬Quietly final (f (.error e)) t)
    (hok : ∀ id t, t.Sound → t.window.left < s.window.left →
      Tracks (some final) 0 (f (.ok id)) (g id) t)
    (hq : Quietly final (attempt (parse .stmt) >>= f) s) :
    (attempt (parse .stmt) >>= f) s = (parse' .stmt >>= g) s := by
  obtain ⟨id, t, hrun, hrest⟩ := hq.tried fun e t he hquiet => by
    obtain ⟨ho, hpos⟩ := hp.error he hs
    by_cases hreported : e = .reported
    · have := Array.size_eq_zero_iff.2 (hquiet.start (hf _) ho.sound).reports
      have := hpos hreported
      omega
    · exact hstop e t ho.sound hreported hquiet
  obtain ⟨ht, hlt⟩ := hc.takes id t hrun
  have hrun' : parse' .stmt s = .ok id t := by
    rw [← hc.eq fun d hd => ⟨id, t, hrun, Option.some.inj hd ▸ hrest.start (hf _) ht⟩, hrun]
  rw [bind_of_ok (a := .ok id) (u := t) (by simp only [attempt, hrun]), bind_of_ok hrun']
  exact (hok id t ht hlt).eq fun d hd => Option.some.inj hd ▸ hrest

section

variable (h : Descends (some final) n parse parse') (hs : s.Sound)
  (hc : Tracks (some final) 1 (parse .stmt) (parse' .stmt) s) (hn : s.window.left ≤ n)

include h hs hc hn

theorem tracks_strictItems : Tracks (some final) 0 (items parse) (strictItems parse') s := by
  refine tracks_of_eq (steady_items h.steady) hs fun hq => ?_
  have hquiet := hq final rfl
  by_cases hk : s.window.current.kind = .closeBrace
  · unfold items strictItems
    rw [bind_of_ok (eat_eq hk), bind_of_ok (eat_eq hk)]
    rfl
  have htruncated : truncated s = .ok false s := congrArg (EStateM.Result.ok · s)
    (hs.reports (hquiet.start (steady_items h.steady) hs).reports).2
  cases hend : s.window.atEnd with
  | true =>
    have hat : atEnd s = .ok true s := congrArg (EStateM.Result.ok · s) hend
    obtain ⟨ids, t, hrun, -⟩ := hquiet
    unfold items at hrun
    rw [bind_of_ok (eat_ne hk)] at hrun
    cases ((bind_of_ok htruncated).trans (bind_of_ok hat)).symm.trans hrun
  | false =>
    have hat : atEnd s = .ok false s := congrArg (EStateM.Result.ok · s) hend
    have hitems : items parse s =
        (attempt (parse .stmt) >>= afterItem parse s.window.current.span) s := by
      unfold items
      exact (bind_of_ok (eat_ne hk)).trans ((bind_of_ok htruncated).trans (bind_of_ok hat))
    have hstrict : strictItems parse' s =
        (parse' .stmt >>= fun id => do return id :: (← parse' .items)) s := by
      unfold strictItems
      exact (bind_of_ok (eat_ne hk)).trans (bind_of_ok hat)
    rw [hitems, hstrict]
    refine tried_eq (h.steady .stmt) (steady_afterItem h.steady _) hc hs (fun e t _ he => ?_)
      (fun id t ht hlt => (h.call .items ht (by omega)).then (i := 0) fun _ => keeps_pure _)
      (by rwa [Quietly, hitems] at hquiet)
    cases e with
    | reported => exact absurd rfl he
    | exhausted cause => exact not_quietly_throw
    | fault f => exact not_quietly_throw

theorem tracks_strictProgram : Tracks (some final) 0 (program parse) (strictProgram parse') s := by
  refine tracks_of_eq (steady_program h.steady) hs fun hq => ?_
  have hquiet := hq final rfl
  have htruncated : truncated s = .ok false s := congrArg (EStateM.Result.ok · s)
    (hs.reports (hquiet.start (steady_program h.steady) hs).reports).2
  cases hend : s.window.atEnd with
  | true =>
    have hat : atEnd s = .ok true s := congrArg (EStateM.Result.ok · s) hend
    unfold program strictProgram
    rw [bind_of_ok hat, bind_of_ok hat]
    rfl
  | false =>
    have hat : atEnd s = .ok false s := congrArg (EStateM.Result.ok · s) hend
    have hprogram : program parse s =
        (attempt (parse .stmt) >>= afterStmt parse s.window.current.span) s := by
      unfold program
      exact (bind_of_ok hat).trans (bind_of_ok htruncated)
    have hstrict : strictProgram parse' s =
        (parse' .stmt >>= fun id => do return id :: (← parse' .program)) s := by
      unfold strictProgram
      exact bind_of_ok hat
    rw [hprogram, hstrict]
    refine tried_eq (h.steady .stmt) (steady_afterStmt h.steady _) hc hs (fun e t ht he => ?_)
      (fun id t ht hlt => (h.call .program ht (by omega)).then (i := 0) fun _ => keeps_pure _)
      (by rwa [Quietly, hprogram] at hquiet)
    cases e with
    | reported => exact absurd rfl he
    | fault f => exact not_quietly_throw
    | exhausted cause =>
      rintro ⟨ids, u, hrun, hu⟩
      obtain ⟨_, v, hreport, hrun⟩ := bind_eq_ok hrun
      cases hrun
      have hpos := ((meets_reportExhausted (E := fun _ => True) (fun _ => trivial) ht cause).of_ok
        hreport).1
      simp [hu.reports] at hpos

end

/-! ### All productions -/

/-- A production calls others on fewer tokens or of a lower rank, read without recovery or not. -/
theorem tracks_strictStep (h : ∀ q, Steady q.reach (parse q)) (hs : s.Sound) (q : Production)
    (hq : ∀ q' t, t.Sound → 3 * t.window.left + q'.rank < 3 * s.window.left + q.rank →
      Tracks (some final) q'.least (parse q') (parse' q') t) :
    Tracks (some final) q.least (step parse q) (strictStep final parse' q) s := by
  obtain ⟨hd, hlower⟩ := descends_below h hq
  have hstmt (hrank : Production.stmt.rank < q.rank) := hlower .stmt hrank s hs (Nat.le_refl _)
  cases q with
  | stmt => exact tracks_strictStatement h hs (tracks_form h hs .stmt nofun nofun hq)
  | items => exact tracks_strictItems hd hs (hstmt (by decide)) (Nat.le_refl _)
  | program => exact tracks_strictProgram hd hs (hstmt (by decide)) (Nat.le_refl _)
  | _ => exact tracks_form h hs _ nofun nofun hq

theorem tracks_strictWithin (depth : Nat) (q : Production) (hs : s.Sound) :
    Tracks (some final) q.least (within depth q) (strictWithin final depth q) s := by
  induction depth generalizing q s with
  | zero => exact tracks_of_error rfl
  | succ depth ih => exact tracks_strictStep (steady_within depth) hs q fun q' _ ht _ => ih q' ht

/-- Where reading leaves no report, it is the same without recovery, and all statements stay. -/
theorem strictly_of_quiet {q : Production} {a : q.Result} (hs : s.Sound)
    (hrun : production q s = .ok a t) (hq : t.reports.reports = #[]) :
    strictly t.tree q s = .ok a t :=
  ((tracks_strictWithin (8 * (s.window.unread + 1)) q hs).eq fun _ hd =>
    Option.some.inj hd ▸ ⟨a, t, hrun, hq, .refl _⟩).symm.trans hrun

/-- A program that is read without recovery is read to its end. -/
theorem atEnd_of_strictWithin {depth : Nat} {ids : List StmtId}
    (hrun : strictWithin final depth .program s = .ok ids t) : t.window.atEnd = true := by
  induction depth generalizing s ids with
  | zero => cases hrun
  | succ depth ih =>
    obtain ⟨ended, u, hend, hrun⟩ := bind_eq_ok hrun
    cases hend
    cases hat : s.window.atEnd with
    | true =>
      simp only [hat, if_true] at hrun
      cases hrun
      exact hat
    | false =>
      simp only [hat, Bool.false_eq_true, if_false] at hrun
      obtain ⟨id, u, -, hrun⟩ := bind_eq_ok hrun
      obtain ⟨rest, v, hrest, hrun⟩ := bind_eq_ok hrun
      cases hrun
      exact ih hrest

end Parse

end FrontEnd
