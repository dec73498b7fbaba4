import FrontEnd.Proofs.Grammar.LinkTwins
import FrontEnd.Proofs.Grammar.Opening
import Mathlib.Logic.Relation
import Mathlib.Order.WellFounded

/-!
Why parsing ends. Recovery comes to rest before the end of the text, every round of a loop over
statements moves the window forward, and a production calls others only with fewer tokens left, or
with as many if they are of a lower rank.
-/

namespace FrontEnd

namespace Window

variable {w v u : Window} {n : Nat}

/-- `v` stands further on, and the end of the text is not between. -/
def Within (w v : Window) : Prop :=
  ∃ n, v = w.drop n ∧ ∀ i < n, (w.drop i).current.kind ≠ .eof

theorem Within.refl (w : Window) : w.Within w := ⟨0, rfl, fun _ hi => absurd hi (Nat.not_lt_zero _)⟩

theorem Within.trans (h : w.Within v) (h' : v.Within u) : w.Within u := by
  obtain ⟨n, rfl, hn⟩ := h
  obtain ⟨m, rfl, hm⟩ := h'
  refine ⟨n + m, drop_drop w n m, fun i hi => ?_⟩
  by_cases hlt : i < n
  · exact hn i hlt
  · have hrest := hm (i - n) (by omega)
    rwa [drop_drop, Nat.add_sub_cancel' (Nat.le_of_not_lt hlt)] at hrest

theorem within_bump (h : w.current.kind ≠ .eof) : w.Within w.bump := by
  refine ⟨1, rfl, fun i hi => ?_⟩
  obtain rfl := Nat.lt_one_iff.1 hi
  exact h

theorem within_skipErrors (w : Window) : w.Within w.skipErrors.2 := by
  induction hn : w.unread using Nat.strongRecOn generalizing w with
  | ind n ih =>
    by_cases hk : w.current.kind = .error
    · have heof : w.current.kind ≠ .eof := by simp [hk]
      rw [skipErrors_error hk]
      exact (within_bump heof).trans (ih _ (hn ▸ unread_bump heof) w.bump rfl)
    · rw [skipErrors_of_ne hk]
      exact .refl w

/-- Where recovery comes to rest: in front of a boundary, or right behind a semicolon. -/
def Rests (w v : Window) : Prop :=
  KindSet.boundary.contains v.current.kind ∨
    ∃ u, w.Within u ∧ u.current.kind = .semicolon ∧ v = u.bump.skipErrors.2

theorem Rests.after (h : w.Within v) (hr : v.Rests u) : w.Rests u := by
  obtain hb | ⟨x, hx, hkind, hu⟩ := hr
  · exact .inl hb
  · exact .inr ⟨x, h.trans hx, hkind, hu⟩

end Window

namespace Parse

variable {s t u : ParseState} {q q' : Production} {parse : Productions}

/-! ### Recovery -/

theorem within_advanced (h : s.window.current.kind ≠ .eof) :
    s.window.Within s.advanced.window :=
  (Window.within_bump h).trans (Window.within_skipErrors _)

/-- As many tokens as are left are enough to come to a boundary. -/
theorem skipToBoundary_rests {limit : Nat} (hlimit : s.window.left ≤ limit) :
    ∃ t, skipToBoundary limit s = .ok ⟨⟩ t ∧ s.window.Within t.window ∧
      s.window.Rests t.window := by
  induction limit generalizing s with
  | zero =>
    have heof : s.window.current.kind = .eof := by
      unfold Window.left at hlimit
      by_contra hne
      have hone : (s.window.current.kind != .eof).toNat = 1 := by simp [hne]
      omega
    exact ⟨s, rfl, .refl _, .inl (by rw [heof]; decide)⟩
  | succ limit ih =>
    rw [skipToBoundary, bind_of_ok (current_eq s)]
    by_cases hsemicolon : s.window.current.kind = .semicolon
    · have heof : s.window.current.kind ≠ .eof := by simp [hsemicolon]
      rw [if_pos hsemicolon]
      exact ⟨s.advanced, rfl, within_advanced heof, .inr ⟨_, .refl _, hsemicolon, rfl⟩⟩
    · rw [if_neg hsemicolon]
      cases hb : KindSet.boundary.contains s.window.current.kind with
      | true => exact ⟨s, rfl, .refl _, .inl hb⟩
      | false =>
        have heof : s.window.current.kind ≠ .eof := fun h => by
          rw [h] at hb
          exact absurd hb (by decide)
        have hwithin := within_advanced heof
        have hfewer : s.advanced.window.left < s.window.left := by
          obtain ⟨n, hn, -⟩ := Window.within_skipErrors s.window.bump
          have hle := Window.left_drop_le s.window.bump n
          rw [← hn] at hle
          exact hle.trans_lt (Window.left_bump_lt heof)
        obtain ⟨t, ht, hw, hr⟩ := ih (s := s.advanced) (by omega)
        refine ⟨t, ?_, hwithin.trans hw, hr.after hwithin⟩
        simp only [Bool.not_false, if_true]
        exact (bind_of_ok (advance_eq s)).trans ht

/-- Recovery always comes to rest, and not behind the end of the text. -/
theorem synchronize_rests (start : Span) (s : ParseState) :
    ∃ t, synchronize start s = .ok ⟨⟩ t ∧ s.window.Within t.window ∧
      s.window.Rests t.window := by
  have hskip (s : ParseState) : ∃ t,
      (do skipToBoundary (← get).window.unread : Parse Unit) s = .ok ⟨⟩ t ∧
        s.window.Within t.window ∧ s.window.Rests t.window :=
    skipToBoundary_rests s.window.left_le_unread
  have hspan : currentSpan s = .ok s.window.current.span s := rfl
  have hend : atEnd s = .ok s.window.atEnd s := rfl
  unfold synchronize
  rw [bind_of_ok hspan, bind_of_ok hend]
  split
  next h =>
    have heof : s.window.current.kind ≠ .eof := fun he => by
      simp [Window.atEnd, Window.currentIs, he] at h
    obtain ⟨t, ht, hw, hr⟩ := hskip s.advanced
    have hwithin := within_advanced heof
    exact ⟨t, (bind_of_ok (advance_eq s)).trans ht, hwithin.trans hw, hr.after hwithin⟩
  next => exact hskip s

/-! ### Rounds of a loop -/

/-- `t` stands at least one token further on. -/
structure Further (s t : ParseState) : Prop where
  window : ∃ n, t.window = s.window.drop (n + 1)
  fewer : t.window.left < s.window.left

theorem further_of_drop (hw : ∃ n, t.window = s.window.drop n)
    (hlt : t.window.left < s.window.left) : Further s t := by
  obtain ⟨n, hn⟩ := hw
  cases n with
  | zero =>
    rw [hn] at hlt
    exact absurd hlt (Nat.lt_irrefl _)
  | succ n => exact ⟨⟨n, hn⟩, hlt⟩

/-- One round of a loop over statements, whatever the rounds after it would do: the loop ends with
this result, or it goes on further ahead with `again`, behind the statement that was read if one
was. -/
inductive Round (loop again : Productions → Parse (List StmtId)) (s : ParseState) : Prop
  | ends (r : EStateM.Result Stop ParseState (List StmtId)) :
      (∀ parse, parse .stmt = production .stmt → loop parse s = r) → Round loop again s
  | goesOn (ids : List StmtId) (t : ParseState) : t.Sound → Further s t →
      (∀ parse, parse .stmt = production .stmt →
        loop parse s = (do return ids ++ (← again parse)) t) → Round loop again s

/-- A round that tries a statement. -/
theorem round_tried {loop again : Productions → Parse (List StmtId)}
    (after : Productions → Except Stop StmtId → Parse (List StmtId)) (hs : s.Sound)
    (hend : s.window.atEnd = false)
    (hloop : ∀ parse, loop parse s = (attempt (parse .stmt) >>= after parse) s)
    (hok : ∀ parse id, after parse (.ok id) = do return id :: (← again parse))
    (hreported : ∀ parse, after parse (.error .reported) = do
      synchronize s.window.current.span
      again parse)
    (hstop : ∀ e, e ≠ .reported → ∃ p, ∀ parse, after parse (.error e) = p) :
    Round loop again s := by
  cases hr : production .stmt s with
  | ok id t =>
    obtain ⟨ht, hlt⟩ := production_takes hs hr
    have ho := (steady_production .stmt).ok hr hs
    have hnext := further_of_drop ho.window (Nat.lt_of_succ_le hlt)
    refine .goesOn [id] t ht hnext fun parse hp => ?_
    have hattempt : attempt (parse .stmt) s = .ok (.ok id) t := by simp only [attempt, hp, hr]
    rw [hloop, bind_of_ok hattempt, hok]
    rfl
  | error e t =>
    have hattempt (parse : Productions) (hp : parse .stmt = production .stmt) :
        attempt (parse .stmt) s = .ok (.error e) t := by simp only [attempt, hp, hr]
    by_cases he : e = .reported
    · subst he
      have ho := ((steady_production .stmt).error hr hs).1
      obtain ⟨u, hu, hwithin, -⟩ := synchronize_rests s.window.current.span t
      obtain ⟨hsound, hlt⟩ := left_synchronize hend ho.sound ho.window hu
      obtain ⟨n, hn⟩ := ho.window
      obtain ⟨m, hm, -⟩ := hwithin
      have hnext := further_of_drop ⟨n + m, by rw [hm, hn, Window.drop_drop]⟩ hlt
      refine .goesOn [] u hsound hnext fun parse hp => ?_
      rw [hloop, bind_of_ok (hattempt parse hp), hreported, bind_of_ok hu]
      change _ = (do return [] ++ (← again parse) : Parse (List StmtId)) u
      simp
    · obtain ⟨p, hp⟩ := hstop e he
      refine .ends (p t) fun parse hparse => ?_
      rw [hloop, bind_of_ok (hattempt parse hparse), hp]

theorem round_program (hs : s.Sound) : Round program (· .program) s := by
  cases hend : s.window.atEnd with
  | true =>
    have hat : atEnd s = .ok true s := congrArg (EStateM.Result.ok · s) hend
    exact .ends (.ok [] s) fun parse _ => bind_of_ok hat
  | false =>
    have hat : atEnd s = .ok false s := congrArg (EStateM.Result.ok · s) hend
    cases htrunc : s.reports.truncated with
    | true =>
      have htruncated : truncated s = .ok true s := congrArg (EStateM.Result.ok · s) htrunc
      exact .ends (.ok [] s) fun parse _ => (bind_of_ok hat).trans (bind_of_ok htruncated)
    | false =>
      have htruncated : truncated s = .ok false s := congrArg (EStateM.Result.ok · s) htrunc
      refine round_tried (fun parse => afterStmt parse s.window.current.span) hs hend
        (fun parse => (bind_of_ok hat).trans (bind_of_ok htruncated)) (fun _ _ => rfl)
        (fun _ => rfl) fun e he => ?_
      cases e with
      | reported => exact absurd rfl he
      | exhausted cause => exact ⟨_, fun _ => rfl⟩
      | fault f => exact ⟨_, fun _ => rfl⟩

theorem round_items (hs : s.Sound) : Round items (· .items) s := by
  have heat : eat .closeBrace s = .ok (s.window.currentIs .closeBrace)
      (if s.window.currentIs .closeBrace then s.advanced else s) := by
    cases hc : s.window.currentIs .closeBrace <;>
      simp [eat, currentIs, hc, Bind.bind, EStateM.bind, get_eq, advance_eq, Pure.pure,
        EStateM.pure]
  cases hclose : s.window.currentIs .closeBrace with
  | true =>
    rw [hclose] at heat
    exact .ends (.ok [] s.advanced) fun parse _ => bind_of_ok heat
  | false =>
    rw [hclose] at heat
    cases htrunc : s.reports.truncated with
    | true =>
      have htruncated : truncated s = .ok true s := congrArg (EStateM.Result.ok · s) htrunc
      exact .ends (.ok [] s) fun parse _ => (bind_of_ok heat).trans (bind_of_ok htruncated)
    | false =>
      have htruncated : truncated s = .ok false s := congrArg (EStateM.Result.ok · s) htrunc
      cases hend : s.window.atEnd with
      | true =>
        have hat : atEnd s = .ok true s := congrArg (EStateM.Result.ok · s) hend
        obtain ⟨t, ht⟩ : ∃ t, (unexpected "`\x7d`" : Parse PUnit) s = .error .reported t :=
          ⟨_, rfl⟩
        exact .ends (.error .reported t) fun parse _ => (bind_of_ok heat).trans
          ((bind_of_ok htruncated).trans ((bind_of_ok hat).trans (bind_of_error ht)))
      | false =>
        have hat : atEnd s = .ok false s := congrArg (EStateM.Result.ok · s) hend
        refine round_tried (fun parse => afterItem parse s.window.current.span) hs hend
          (fun parse => (bind_of_ok heat).trans
            ((bind_of_ok htruncated).trans (bind_of_ok hat))) (fun _ _ => rfl) (fun _ => rfl)
          fun e he => ?_
        cases e with
        | reported => exact absurd rfl he
        | exhausted cause => exact ⟨_, fun _ => rfl⟩
        | fault f => exact ⟨_, fun _ => rfl⟩

/-! ### Calls -/

/-- A production that is started in some state. -/
abbrev Start := Production × ParseState

/-- What the first production finds hangs on what the second one finds. -/
def Calls (c c' : Start) : Prop :=
  ∃ parse : Productions, (∀ q s, (q, s) ≠ c' → parse q s = production q s) ∧
    step parse c.1 c.2 ≠ production c.1 c.2

/-- A production calls one whose faults become its own. -/
theorem calls_of_fault {c c' : Start} (h : ∀ (parse : Productions) (f : Fault),
    parse c'.1 c'.2 = .error (.fault f) c'.2 →
      step parse c.1 c.2 = .error (.fault f) c'.2) : Calls c c' := by
  classical
  by_contra hnot
  -- Whatever fault is put in place of the callee, the caller ends as without it.
  have hends (f : Fault) : production c.1 c.2 = .error (.fault f) c'.2 := by
    let trap : Productions := fun q s =>
      if (q, s) = c' then .error (.fault f) s else production q s
    have htrap : trap c'.1 c'.2 = .error (.fault f) c'.2 := if_pos rfl
    rw [← h trap f htrap]
    by_contra hne
    exact hnot ⟨trap, fun q s hqs => if_neg hqs, Ne.symm hne⟩
  cases (hends .endless).symm.trans (hends (.deadSlot 0))

/-- Where a program goes on, it calls a statement. -/
theorem program_calls_stmt (hend : s.window.atEnd = false) (htrunc : s.reports.truncated = false) :
    Calls (.program, s) (.stmt, s) := by
  refine calls_of_fault fun parse f h => ?_
  have hat : atEnd s = .ok false s := congrArg (EStateM.Result.ok · s) hend
  have htruncated : truncated s = .ok false s := congrArg (EStateM.Result.ok · s) htrunc
  have hattempt : attempt (parse .stmt) s = .ok (.error (.fault f)) s := by
    simp only [attempt, h]
  change program parse s = _
  unfold program
  refine (bind_of_ok hat).trans ((bind_of_ok htruncated).trans ?_)
  change (attempt (parse .stmt) >>= afterStmt parse s.window.current.span) s = _
  exact bind_of_ok hattempt

/-- A statement that begins with a literal calls an expression. -/
theorem stmt_calls_expr {v : Value} (hlit : literalValue? s.window.current.kind
    (s.window.current.lexeme s.window.source) = some v) :
    Calls (.stmt, s) (.expr .assign false, { s with reports := s.reports.beginStatement }) := by
  refine calls_of_fault fun parse f h => ?_
  let r : ParseState := { s with reports := s.reports.beginStatement }
  have hexpr : exprStmt parse r = .error (.fault f) r := bind_of_error h
  have hbegin : beginStatement s = .ok ⟨⟩ r := rfl
  change statement parse s = _
  unfold statement
  rw [bind_of_ok hbegin, bind_of_ok (current_eq r)]
  change literalValue? r.window.current.kind _ = _ at hlit
  rcases Term.kind_of_literal hlit with hk | hk | hk | hk | hk | hk | hk
  all_goals
    rw [hk]
    exact hexpr

/-- Fewer tokens are left, or as many and the production is of a lower rank. -/
def Below (c' c : Start) : Prop :=
  c'.2.window.left < c.2.window.left ∨
    c'.2.window.left = c.2.window.left ∧ c'.1.rank < c.1.rank

theorem Below.measure {c c' : Start} (h : Below c' c) :
    3 * c'.2.window.left + c'.1.rank < 3 * c.2.window.left + c.1.rank := by
  have := c'.1.rank_le
  obtain h | ⟨h, h'⟩ := h <;> omega

theorem below_of_measure {c c' : Start}
    (h : 3 * c'.2.window.left + c'.1.rank < 3 * c.2.window.left + c.1.rank) : Below c' c := by
  have := c.1.rank_le
  unfold Below
  omega

theorem Below.trans {c c' c'' : Start} (h : Below c'' c') (h' : Below c' c) : Below c'' c := by
  unfold Below at *
  omega

theorem wellFounded_below : WellFounded Below :=
  Subrelation.wf (fun h => Below.measure h)
    (InvImage.wf (fun c : Start => 3 * c.2.window.left + c.1.rank) wellFounded_lt)

/-- A production only hangs on those below it. -/
theorem step_congr (hs : s.Sound) (h : ∀ q' t, t.Sound → Below (q', t) (q, s) →
    parse q' t = production q' t) : step parse q s = production q s := by
  rw [production_eq_step q hs]
  refine (tracks_step steady_production hs q fun q' t ht hlt => ?_).same.symm
  have hsame : Tracks none q'.least (production q') (production q') t := by
    refine ⟨fun _ => rfl, fun a u hu => production_takes ht hu, fun a u hu => ?_⟩
    exact ((steady_production q').ok hu ht).grows
  exact hsame.congr rfl (h q' t ht (below_of_measure hlt))

theorem Calls.below {c c' : Start} (h : Calls c c') (hs : c.2.Sound) :
    c'.2.Sound ∧ Below c' c := by
  obtain ⟨parse, hsame, hne⟩ := h
  by_contra hnot
  refine hne (step_congr hs fun q' t ht hbelow => hsame q' t fun he => hnot ?_)
  rw [← he]
  exact ⟨ht, hbelow⟩

theorem below_of_chain {c c' : Start} (h : Relation.TransGen Calls c c') (hs : c.2.Sound) :
    c'.2.Sound ∧ Below c' c := by
  induction h with
  | single h => exact h.below hs
  | tail _ h ih =>
    obtain ⟨hsound, hbelow⟩ := h.below ih.1
    exact ⟨hsound, hbelow.trans ih.2⟩

/-- Calls do not go on for ever. -/
theorem acc_calls (c : Start) (hs : c.2.Sound) : Acc (fun c' c => Calls c c') c := by
  induction c using wellFounded_below.induction with
  | h c ih =>
    refine .intro c fun c' h => ?_
    obtain ⟨hsound, hbelow⟩ := h.below hs
    exact ih c' hbelow hsound

/-- What refers to each other as the productions do is the productions. -/
theorem production_unique (h : ∀ q s, s.Sound → parse q s = step parse q s) (q : Production)
    (hs : s.Sound) : parse q s = production q s := by
  induction hc : (q, s) using wellFounded_below.induction generalizing q s with
  | h c ih =>
    subst hc
    rw [h q s hs]
    exact step_congr hs fun q' t ht hbelow => ih (q', t) hbelow q' ht rfl

/-- The productions that are started while a text is read, and where. -/
inductive Started (text : String) (settings : Settings) : Start → Prop
  | first {s : ParseState} : ParseState.ofText text settings = .ok s →
      Started text settings (.program, s)
  | call {c c' : Start} : Started text settings c → Calls c c' → Started text settings c'

theorem Started.sound {text : String} {settings : Settings} {c : Start}
    (h : Started text settings c) : c.2.Sound := by
  induction h with
  | first h => exact (ParseState.ofText_eq_ok.1 h).sound
  | call _ h ih => exact (h.below ih).1

/-- Why a production that is started ends. -/
structure Terminates (c : Start) : Prop where
  /-- A round of the program, or of a body, is the last one or moves the window forward. -/
  program : Round program (· .program) c.2
  items : Round items (· .items) c.2
  /-- Recovery, after whatever statement, comes to rest, at the latest before the end. -/
  rests : ∀ start t, ∃ u, synchronize start t = .ok ⟨⟩ u ∧ t.window.Within u.window ∧
    t.window.Rests u.window
  /-- Calls go down, first in the number of tokens left, then in rank; so they do not go on for
  ever, and on the way back to the same production a token is taken. -/
  below : ∀ c', Calls c c' → Below c' c
  acc : Acc (fun c' c => Calls c c') c
  cycle : ∀ t, Relation.TransGen Calls c (c.1, t) → t.window.left < c.2.window.left
  /-- The productions are the only ones that refer to each other as they do. -/
  unique : ∀ parse : Productions, (∀ q s, s.Sound → parse q s = step parse q s) →
    parse c.1 c.2 = production c.1 c.2
  /-- A bound on the depth of calls is never met, so it does not matter what would happen there. -/
  unbounded : ∀ bottom depth, 3 * c.2.window.left + c.1.rank < depth →
    production c.1 c.2 = upTo bottom depth c.1 c.2

/-- Reading any text, under any settings, comes to an end. -/
theorem parsing_terminates (text : String) (settings : Settings) (c : Start)
    (h : Started text settings c) : Terminates c := by
  have hs := h.sound
  refine ⟨round_program hs, round_items hs, synchronize_rests, fun c' hc => (hc.below hs).2,
    acc_calls c hs, fun t hc => ?_, fun parse hp => production_unique hp c.1 hs,
    fun bottom depth hd => production_eq_upTo bottom c.1 hs hd⟩
  obtain hlt | ⟨-, hlt⟩ := (below_of_chain hc hs).2
  · exact hlt
  · exact absurd hlt (Nat.lt_irrefl _)

/-- A statement that is given up is read to an end as well. -/
theorem unfinished_terminates : ∃ s, Started "x = ( ; int" .standard (.program, s) ∧
    Terminates (.program, s) := by
  obtain ⟨s, hs, -⟩ := ParseState.exists_opens "x = ( ; int" .standard (n := 0) (by decide)
    (by decide)
  have hstarted := Started.first (ParseState.ofText_eq_ok.2 hs)
  exact ⟨s, hstarted, parsing_terminates _ _ _ hstarted⟩

end Parse

end FrontEnd
