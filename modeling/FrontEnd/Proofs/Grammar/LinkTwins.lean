import FrontEnd.Proofs.Grammar.LinkPrograms
import FrontEnd.Proofs.Grammar.LinkSteps

/-!
A run that is linked with itself: whatever link it is, both states stay the same. So a link tells of
a single run as well, and of a whole program also where a storage runs out.
-/

namespace FrontEnd

namespace Entry

variable {x : Entry} {es es' : List Entry}

/-- Both runs have the same for an entry. -/
def Twin : Entry → Prop
  | .raw i j .. | .checked i j _ => i = j
  | .object i j x y .. => i = j ∧ x = y
  | .folded i j v w _ => i = j ∧ v = w
  | .stmt i j | .bodyStmt _ i j => i = j
  | .scoped is js | .bodied _ is js => is = js
  | .function .. | .enter | .params .. | .declared .. => True

/-- Both runs have the same for all entries. -/
abbrev Twins (es : List Entry) : Prop := ∀ x ∈ es, x.Twin

theorem Twins.left (h : Twins (es' ++ es)) : Twins es' := fun x hx =>
  h x (List.mem_append_left _ hx)

theorem Twins.right (h : Twins (es' ++ es)) : Twins es :=
  fun x hx => h x (List.mem_append_right _ hx)

theorem Twins.head (h : Twins (x :: es)) : x.Twin := h x List.mem_cons_self

theorem Twins.tail (h : Twins (x :: es)) : Twins es := fun y hy => h y (List.mem_cons_of_mem _ hy)

theorem Twins.cons (h : Twins es) (hx : x.Twin) : Twins (x :: es) := List.forall_mem_cons.2 ⟨hx, h⟩

theorem Raws.twin {is js : List ExprId} (h : Raws es is js) (ht : Twins es) : is = js := by
  induction h with
  | nil => rfl
  | snoc _ ih =>
    obtain rfl := ih ht.tail
    obtain rfl : _ = _ := ht.head
    rfl

theorem Stmts.twin {is js : List StmtId} (h : Stmts es is js) (ht : Twins es) : is = js := by
  induction h with
  | nil => rfl
  | snoc _ ih =>
    obtain rfl := ih ht.tail
    obtain rfl : _ = _ := ht.head
    rfl

theorem Forms.twin {ret : Option TypeId} {j k : StmtKind} (h : Forms ret es j k) (ht : Twins es) :
    j = k := by
  cases h <;> simp_all [Twins, Twin]

theorem Closes.twin {is js : List StmtId} {form : ListRange → StmtKind}
    {entry : StmtId → StmtId → Entry} (h : Closes es is js form entry) (ht : Twins es) :
    is = js ∧ ∀ m, (entry m m).Twin := by
  cases h with
  | block | body => exact ⟨ht.head, fun _ => rfl⟩
  | namesp hs => exact ⟨hs.twin ht, fun _ => rfl⟩
  | empty => exact ⟨rfl, fun _ => rfl⟩

end Entry

namespace Link

open Entry

variable {l : Link} {D : Prop} {α : Type} {x : Entry} {es : List Entry} {s₁ s₂ t₁ t₂ : ParseState}
  {p₁ p₂ : Parse α} {R R' : α → α → ParseState → ParseState → Prop}

/-- The link between two runs that are one if `D` holds. -/
def twin (l : Link) (D : Prop) : Link :=
  { l with rel := fun es s₁ s₂ => l.rel es s₁ s₂ ∧ (D → s₁ = s₂ ∧ Twins es) }

theorem Rel.core (h : (l.twin D).Rel es s₁ s₂) : l.Rel es s₁ s₂ := ⟨h.sound₁, h.sound₂, h.rel.1⟩

theorem Sees.core {w : Window} (h : (l.twin D).Sees w) : l.Sees w := by
  obtain ⟨es, s₁, s₂, h, hw⟩ := h
  exact ⟨es, s₁, s₂, h.core, hw⟩

theorem Taken.core {isConst : Bool} {a : Window} (h : (l.twin D).Taken isConst a s₁) :
    l.Taken isConst a s₁ := by
  obtain ⟨hsees, hk, hc, hn⟩ := h
  refine ⟨hsees.core, hk, fun hconst => ?_, hn⟩
  obtain ⟨w, hw, hrest⟩ := hc hconst
  exact ⟨w, hw.core, hrest⟩

theorem Called.core {isConst : Bool} {name : Name} (h : (l.twin D).Called isConst name s₁) :
    l.Called isConst name s₁ := by
  obtain ⟨a, ha, hn⟩ := h
  exact ⟨a, ha.core, hn⟩

theorem Origin.core {isConst : Bool} {stored : Name} (h : (l.twin D).Origin isConst stored s₁) :
    l.Origin isConst stored s₁ := by
  obtain ⟨a, ha, hn⟩ := h
  exact ⟨a, ha.core, hn⟩

/-- The same program in the same state does the same. -/
theorem Firm.twin (h : l.Firm es p₁ p₂ s₁ s₂ R) (hD : D → (p₁ = p₂ ∧ s₁ = s₂) ∧ Twins es)
    (hR : ∀ a b t₁ t₂, R a b t₁ t₂ → (D → a = b ∧ t₁ = t₂ ∧ Twins es) → R' a b t₁ t₂) :
    (l.twin D).Firm es p₁ p₂ s₁ s₂ R' := by
  have hsame (d : D) : p₁ s₁ = p₂ s₂ := by
    obtain ⟨⟨rfl, rfl⟩, -⟩ := hD d
    rfl
  cases h with
  | ok h₁ h₂ h =>
    refine .ok h₁ h₂ (hR _ _ _ _ h fun d => ?_)
    have heq := hsame d
    rw [h₁, h₂] at heq
    injection heq with ha ht
    exact ⟨ha, ht, (hD d).2⟩
  | stop h₁ h₂ h hpos =>
    refine .stop h₁ h₂ ⟨h, fun d => ?_⟩ hpos
    have heq := hsame d
    rw [h₁, h₂] at heq
    injection heq with _ ht
    exact ⟨ht, (hD d).2⟩
  | fault h₁ h₂ hf => exact .fault h₁ h₂ hf
  | @first e t h₁ hb => exact .first h₁ (by cases e <;> exact hb)
  | @second e t h₂ hb => exact .second h₂ (by cases e <;> exact hb)

theorem Pair.twin (h : l.Pair es p₁ p₂ s₁ s₂ R) (hD : D → (p₁ = p₂ ∧ s₁ = s₂) ∧ Twins es)
    (hR : ∀ a b t₁ t₂, R a b t₁ t₂ → (D → a = b ∧ t₁ = t₂ ∧ Twins es) → R' a b t₁ t₂) :
    (l.twin D).Pair es p₁ p₂ s₁ s₂ R' := by
  cases h with
  | firm h => exact .firm (h.twin hD hR)
  | apart h => exact .apart ⟨h.sound₁, h.sound₂, h.parts, h.reports⟩

theorem rel_twin {a b : α} (h : l.rel es t₁ t₂) (hd : D → a = b ∧ t₁ = t₂ ∧ Twins es) :
    (l.twin D).rel es t₁ t₂ :=
  ⟨h, fun d => (hd d).2⟩

theorem rel_cons_twin {a b : α} (h : l.rel (x :: es) t₁ t₂)
    (hd : D → a = b ∧ t₁ = t₂ ∧ Twins es) (hx : a = b → x.Twin) :
    (l.twin D).rel (x :: es) t₁ t₂ :=
  ⟨h, fun d => ⟨(hd d).2.1, (hd d).2.2.cons (hx (hd d).1)⟩⟩

instance [l.Moves] : (l.twin D).Moves where
  same h := Moves.same h.1
  owns h := Moves.owns h.1
  known h := Moves.known (l := l) h
  overflow := Moves.overflow (l := l)
  knows h := Moves.knows (l := l) h
  shed h hpos := ⟨Moves.shed h.1 hpos, fun d => ⟨(h.2 d).1, (h.2 d).2.tail⟩⟩
  glide h hw h₁ h₂ := ⟨Moves.glide h.core hw h₁ h₂, fun d => by
    obtain ⟨rfl, ht⟩ := h.rel.2 d
    exact ⟨rfl, ht⟩⟩
  shift h hd := ⟨Moves.shift h.core hd, fun d => by
    obtain ⟨rfl, ht⟩ := h.rel.2 d
    exact ⟨rfl, ht⟩⟩
  resign h hpos := ⟨Moves.resign h.core hpos, fun d => by
    obtain ⟨rfl, ht⟩ := h.rel.2 d
    exact ⟨rfl, ht⟩⟩

end Link

/-! ### Single runs -/

section

open Entry

theorem Entry.Twins.left_eq {es : List Entry} (h : Twins es) :
    es.flatMap Entry.left = es.flatMap Entry.right := by
  refine List.flatMap_congr fun x hx => ?_
  have hx := h x hx
  cases x <;> simp_all [Twin, Entry.left, Entry.right]

namespace Parse

variable {s t : ParseState}

/-! ### Recovery never stops -/

theorem meets_skipToBoundary (limit : Nat) (s : ParseState) :
    Meets (skipToBoundary limit) s (fun _ _ => True) fun _ _ => False := by
  induction limit generalizing s with
  | zero => exact meets_pure trivial
  | succ limit ih =>
    refine meets_bind_of_ok (current_eq s) ?_
    dsimp only
    split
    · exact meets_bind_of_ok (advance_eq s) (meets_pure trivial)
    · split
      · exact meets_bind_of_ok (advance_eq s) (ih _)
      · exact meets_pure trivial

theorem exists_synchronize (start : Span) (s : ParseState) :
    ∃ t, synchronize start s = .ok ⟨⟩ t := by
  have h : Meets (synchronize start) s (fun _ _ => True) fun _ _ => False := by
    refine meets_bind_of_ok (a := s.window.current.span) (t := s) rfl ?_
    refine meets_bind_of_ok (a := s.window.atEnd) (t := s) rfl ?_
    have hskip (s : ParseState) : Meets (do skipToBoundary (← get).window.unread) s
        (fun _ _ => True) fun _ _ => False := meets_bind_of_ok (get_eq s) (meets_skipToBoundary _ s)
    dsimp only
    split
    · exact meets_bind_of_ok (advance_eq s) (hskip _)
    · exact hskip s
  cases hr : synchronize start s with
  | ok a t => exact ⟨t, rfl⟩
  | error e t => exact (h.of_error hr).elim

/-- What a storage that ran out leaves: a report, and the same nodes. -/
theorem meets_reportExhausted {E : Fault → Prop} (hE : ∀ verb, E (.overflow verb)) (hs : s.Sound)
    (cause : StorageError) : Meets (reportExhausted cause) s
      (fun _ t => 0 < t.reports.reports.size ∧ t.tree = s.tree ∧
        ∃ r : Report, r.code = .exhausted ∧ t.reports = s.reports.beginStatement.add r)
      fun e _ => ∃ f, e = .fault f ∧ E f := by
  have hsound := hs.reports.beginStatement
  refine meets_bind_of_ok (a := ⟨⟩) (t := { s with reports := s.reports.beginStatement }) rfl ?_
  refine meets_bind_of_ok (a := s.window.current.span)
    (t := { s with reports := s.reports.beginStatement }) rfl ?_
  refine Meets.bind (meets_get (Q := fun a t => a = t ∧
    t = { s with reports := s.reports.beginStatement }) ⟨rfl, rfl⟩) ?_
  rintro _ _ ⟨rfl, rfl⟩
  refine Meets.bind (R := fun reports _ => ∃ r : Report, r.code = .exhausted ∧
      reports = s.reports.beginStatement.add r)
    (meets_ofFault (fun reports hr => ?_) fun f hf => ⟨f, rfl, ?_⟩) ?_
  · obtain ⟨line, col, rfl, -⟩ := Queue.emitSpanned_placed hr
    exact ⟨_, rfl, rfl⟩
  · exact Queue.faults_emitSpanned hE _ _ _ f hf
  · rintro _ _ ⟨r, hcode, rfl⟩
    exact meets_set ⟨hsound.size_add_pos r, rfl, r, hcode, rfl⟩

end Parse

namespace Link

open Parse

/-- The link of a run with itself. -/
structure Solo (l : Link) : Prop where
  one {es s₁ s₂} : l.rel es s₁ s₂ → s₁ = s₂ ∧ Twins es
  whole : ¬l.parts

theorem solo_twin {l : Link} {D : Prop} (hD : D) (h : D → ¬l.parts) : (l.twin D).Solo where
  one h := h.2 hD
  whole := h hD

variable {l : Link} {α : Type} {es : List Entry} {s t : ParseState} {p : Parse α}
  {R : α → α → ParseState → ParseState → Prop}

/-- How a single run can stop. -/
def Stops (l : Link) (es : List Entry) : Stop → ParseState → Prop
  | .reported, t => l.rel es t t ∧ 0 < t.reports.reports.size
  | .exhausted _, t => t.tree.Owns (es.flatMap left)
  | .fault f, _ => l.fails f

theorem Solo.meets (hl : l.Solo) (hr : l.rel es s s) (h : l.Pair es p p s s R) :
    Meets p s (fun a t => R a a t t) (l.Stops es) := by
  cases h with
  | apart h => exact absurd h.parts hl.whole
  | firm h =>
    cases h with
    | ok h₁ h₂ h =>
      rw [h₁] at h₂
      cases h₂
      exact meets_of_ok h₁ h
    | stop h₁ h₂ h hpos =>
      rw [h₁] at h₂
      cases h₂
      exact meets_of_error h₁ ⟨h, hpos⟩
    | fault h₁ _ hf => exact meets_of_error h₁ hf
    | @first e t h₁ hb =>
      refine meets_of_error h₁ ?_
      cases e with
      | reported => exact hb.elim
      | exhausted cause => exact hb
      | fault f => exact absurd hb hl.whole
    | @second e t h₂ hb =>
      refine meets_of_error h₂ ?_
      cases e with
      | reported => exact hb.elim
      | exhausted cause =>
        show t.tree.Owns _
        rw [(hl.one hr).2.left_eq]
        exact hb
      | fault f => exact absurd hb hl.whole

/-- Statements that were read are there, and reading goes on, or a storage ran out. -/
def Retains (l : Link) (es : List Entry) (t : ParseState) : Prop :=
  l.Rel es t t ∨ 0 < t.reports.reports.size ∧ t.tree.Owns (es.flatMap left)

/-- A whole program, however it ends. -/
theorem Solo.program [l.Lawful] (hl : l.Solo) (hr : l.Rel es s s) :
    Meets (production .program) s
      (fun ids t => ∃ es', Stmts es' ids ids ∧ l.Retains (es' ++ es) t)
      fun e _ => ∃ f, e = .fault f ∧ l.fails f := by
  induction hn : s.window.left using Nat.strongRecOn generalizing es s with
  | ind n ih =>
    have h : l.Linked production := linked_production
    have hnone {s : ParseState} (hk : l.Retains es s) : Meets (pure [] : Parse (List StmtId)) s
        (fun ids t => ∃ es', Stmts es' ids ids ∧ l.Retains (es' ++ es) t)
        fun e _ => ∃ f, e = .fault f ∧ l.fails f := meets_pure ⟨[], .nil, hk⟩
    refine Meets.congr ?_ (production_eq_step .program hr.sound₁)
    refine meets_bind_of_ok (a := s.window.atEnd) (t := s) rfl ?_
    cases hend : s.window.atEnd with
    | true => exact hnone (.inl hr)
    | false =>
      refine meets_bind_of_ok (a := s.reports.truncated) (t := s) rfl ?_
      cases s.reports.truncated with
      | true => exact hnone (.inl hr)
      | false =>
        refine meets_bind_of_ok (a := s.window.current.span) (t := s) rfl ?_
        have hstmt := hl.meets hr.rel (h.stmt hr)
        cases hrun : production .stmt s with
        | ok id t =>
          have hlt := (production_takes hr.sound₁ hrun).2
          refine meets_bind_of_ok (a := .ok id) (t := t) (by simp only [attempt, hrun]) ?_
          refine Meets.bind (ih _ (hn ▸ hlt) (hstmt.of_ok hrun) rfl) ?_
          rintro ids u ⟨es', hes, hk⟩
          exact meets_pure ⟨es' ++ [.stmt id id], hes.cons, by rwa [List.append_assoc]⟩
        | error e t =>
          refine meets_bind_of_ok (a := .error e) (t := t) (by simp only [attempt, hrun]) ?_
          have hstops := hstmt.of_error hrun
          have ho := ((h.steady .stmt).error hrun hr.sound₁).1
          cases e with
          | reported =>
            have ht : l.Rel es t t := ⟨ho.sound, ho.sound, hstops.1⟩
            obtain ⟨u, hu⟩ := exists_synchronize s.window.current.span t
            have hlt := (left_synchronize hend ho.sound ho.window hu).2
            have hu' := (hl.meets ht.rel (.firm (firm_synchronize ht _))).of_ok hu
            exact meets_bind_of_ok hu (ih _ (hn ▸ hlt) hu' rfl)
          | exhausted cause =>
            refine Meets.bind (meets_reportExhausted (fun _ => Moves.overflow) ho.sound cause) ?_
            rintro _ u ⟨hpos, htree, -⟩
            exact hnone (.inr ⟨hpos, htree ▸ hstops⟩)
          | fault f => exact meets_throw ⟨f, rfl, hstops⟩

end Link

end

end FrontEnd
