import FrontEnd.Proofs.Grammar.LinkPrograms
import FrontEnd.Proofs.Program.Pieces

/-!
How the states of two runs over one text are related: they differ in their trees and in the values
of constants, and what they have read so far says the same.
-/

namespace FrontEnd

namespace Pass

variable (P : Pass)

/-- Nothing was reported, and the types are on the way to those at the end. -/
def Quiet (s : ParseState) : Prop := s.reports.reports = #[] ∧ s.types.Grows P.types

def view (s : ParseState) (overloads : List Overload) : View :=
  { types := s.types, names := s.names, quiet := P.Quiet s, overloads }

/-- What has a value was declared after `const`, or is a member of a namespace. -/
def Named (s : ParseState) : Prop :=
  ∀ key v, s.folder.bindingAt key = some v → ∃ text, s.names.Has key.name text ∧
    (Window.ConstantName P.text text ∨ ∃ outer inner, text = outer ++ "::" ++ inner)

/-- What holds of both runs at any time. -/
structure Base (s₁ s₂ : ParseState) : Prop where
  same : s₁.Same s₂
  first : s₁.folds = P.first
  second : s₂.folds = P.second
  window : s₁.window.In P.text
  named₁ : P.Named s₁
  named₂ : P.Named s₂
  furnished : s₁.symbols.Furnished s₁.types s₁.names s₁.window.Late (P.Quiet s₁)
  returns : ∀ type ∈ s₁.returns, ∃ d, s₁.types.desc type = .ok d

/-- An overload has its statement, or it is still read. -/
def Accounted (es : List Entry) (cs : List Branch) (o : Overload) : Prop :=
  .function o.mangled o.type ∈ es ∨ ∃ s ∈ Branch.stmts cs, s.Declares o

/-- What both runs have read so far, for the variables in sight and the overloads declared. -/
structure Stands (es : List Entry) (Γ : Sight) (overloads : List Overload) (bs cs : List Branch)
    (s₁ s₂ : ParseState) : Prop where
  left : s₁.tree.Holds bs
  right : s₂.tree.Holds cs
  pieces : Pieces P (P.view s₁ overloads) Γ es bs cs
  sight : P.Quiet s₁ → Sight.Agrees s₂.symbols.vars s₂.folder Γ ∧ Γ.length = s₂.scope.depth + 1
  known : P.Quiet s₁ → ∀ key, ∀ o ∈ FuncTable.overloads s₁.symbols.funcs key, o ∈ overloads
  accounted : P.Quiet s₁ → ∀ o ∈ overloads, o.Signed P.types ∧ Accounted es cs o
  counts : P.Quiet s₁ → s₁.tree.Comprises (Branch.roots bs)
  returns : P.Quiet s₁ → s₁.returns = P.returns es

/-- The runs may part where something declared after `const` is assigned. Nothing fails, but numbers
may leave their range. -/
def link : Link where
  rel es s₁ s₂ := P.Base s₁ s₂ ∧ ∃ Γ overloads bs cs, P.Stands es Γ overloads bs cs s₁ s₂
  knows type s := s.types.Knows s.names (P.Quiet s) type
  parts := P.first ≠ P.second ∧ Window.AssignsConstant P.text
  fails fault := ∃ verb, fault = .overflow verb

variable {P} {s t s₁ s₂ : ParseState} {es es' : List Entry} {Γ : Sight} {x : Entry}
  {os : List Overload} {bs cs bs' cs' : List Branch} {k : Nat}

theorem Quiet.of_later (h : P.Quiet t) (ht : s.types.Grows t.types)
    (hr : s.reports.reports.size ≤ t.reports.reports.size) : P.Quiet s := by
  refine ⟨Array.size_eq_zero_iff.1 ?_, ht.trans h.2⟩
  have := Array.size_eq_zero_iff.2 h.1
  omega

theorem Quiet.of_onto (h : P.Quiet t) (ho : s.Onto k t) : P.Quiet s :=
  h.of_later ho.types ho.reports

/-- After a report all is lost. -/
theorem not_quiet (h : 0 < s.reports.reports.size) : ¬P.Quiet s := by
  intro hq
  have := Array.size_eq_zero_iff.2 hq.1
  omega

theorem view_leads (ho : s.Onto k t) : (P.view s os).Leads (P.view t os) :=
  ⟨ho.types, ho.names, fun hq => hq.of_onto ho, List.Subset.refl _⟩

theorem Named.grows (h : P.Named s) (hn : s.names.Grows t.names)
    (hf : ∀ key v, t.folder.bindingAt key = some v → s.folder.bindingAt key = some v) :
    P.Named t := by
  intro key v hv
  obtain ⟨text, hhas, htext⟩ := h key v (hf key v hv)
  exact ⟨text, hn _ _ hhas, htext⟩

/-! ### Other places, and the trees -/

theorem Base.glide {window : Window} {names : Interner} {reports : Queue} (h : P.Base s₁ s₂)
    (hw : window = s₁.window ∨ window = s₁.window.after)
    (h₁ : s₁.Onto k (s₁.glide window names reports))
    (h₂ : s₂.Onto k (s₂.glide window names reports)) :
    P.Base (s₁.glide window names reports) (s₂.glide window names reports) where
  same := { h.same with window := rfl, names := rfl, reports := rfl }
  first := h.first
  second := h.second
  window := by
    rcases hw with rfl | rfl
    · exact h.window
    · exact h.window.after
  named₁ := h.named₁.grows h₁.names fun _ _ hv => hv
  named₂ := h.named₂.grows h₂.names fun _ _ hv => hv
  furnished := by
    refine h.furnished.mono h₁.names (fun hl => ?_) fun hq => hq.of_onto h₁
    rcases hw with rfl | rfl
    · exact hl
    · obtain ⟨n, hn⟩ := s₁.window.after_eq_drop
      show s₁.window.after.Late
      exact hn ▸ hl.drop h.window.reads _
  returns := h.returns

theorem Base.trees {t u : Tree} (h : P.Base s₁ s₂) :
    P.Base { s₁ with tree := t } { s₂ with tree := u } :=
  ⟨{ h.same with }, h.first, h.second, h.window, h.named₁, h.named₂, h.furnished, h.returns⟩

/-- A function body is given up or left. -/
theorem Base.resign (h : P.Base s₁ s₂) :
    P.Base (s₁.shift id List.tail) (s₂.shift id List.tail) where
  same := { h.same with returns := congrArg List.tail h.same.returns }
  first := h.first
  second := h.second
  window := h.window
  named₁ := h.named₁
  named₂ := h.named₂
  furnished := h.furnished
  returns type ht := h.returns type (List.mem_of_mem_tail ht)

theorem Stands.tail (h : P.Stands (x :: es) Γ os bs cs s₁ s₂)
    (hpos : 0 < s₁.reports.reports.size) :
    ∃ Γ' bs' cs', P.Stands es Γ' os bs' cs' s₁ s₂ := by
  obtain ⟨Γ', bs', cs', hp, hbs, hcs⟩ := h.pieces.tail
  exact ⟨Γ', bs', cs', h.left.sublist hbs, h.right.sublist hcs, hp,
    fun hq => absurd hq (not_quiet hpos), fun hq => absurd hq (not_quiet hpos),
    fun hq => absurd hq (not_quiet hpos), fun hq => absurd hq (not_quiet hpos),
    fun hq => absurd hq (not_quiet hpos)⟩

/-- Other trees, which hold what other entries stand for. -/
theorem Stands.trees {t u : Tree} (h : P.Stands es Γ os bs cs s₁ s₂) (ht : t.Holds bs')
    (hu : u.Holds cs') (hp : Pieces P (P.view s₁ os) Γ es' bs' cs')
    (ha : P.Quiet s₁ → ∀ o, Accounted es cs o → Accounted es' cs' o)
    (hc : P.Quiet s₁ → t.Comprises (Branch.roots bs'))
    (hr : P.Quiet s₁ → P.returns es' = P.returns es) :
    P.Stands es' Γ os bs' cs' { s₁ with tree := t } { s₂ with tree := u } :=
  ⟨ht, hu, hp, h.sight, h.known, fun hq o ho => (h.accounted hq o ho).imp_right (ha hq o), hc,
    fun hq => hr hq ▸ h.returns hq⟩

/-- The trees hold what was read. -/
theorem Stands.owns (h : P.Stands es Γ os bs cs s₁ s₂) :
    s₁.tree.Owns (es.flatMap Entry.left) ∧ s₂.tree.Owns (es.flatMap Entry.right) := by
  obtain ⟨hl, hr⟩ := h.pieces.roots_eq
  exact ⟨hl ▸ h.left.owns, hr ▸ h.right.owns⟩

instance : P.link.Moves where
  same h := h.1.same
  owns h := by
    obtain ⟨-, Γ, os, bs, cs, hs⟩ := h
    exact hs.owns
  known h := by
    obtain ⟨d, hd⟩ := h.uses.1
    exact faults_of_ok hd
  overflow := ⟨_, rfl⟩
  knows h ht hn hr := h.mono ht hn fun hq => hq.of_later ht hr
  shed h hpos := by
    obtain ⟨hbase, Γ, os, bs, cs, hs⟩ := h
    obtain ⟨Γ', bs', cs', hs⟩ := hs.tail hpos
    exact ⟨hbase, Γ', os, bs', cs', hs⟩
  glide h hw h₁ h₂ := by
    obtain ⟨hbase, Γ, os, bs, cs, hs⟩ := h.rel
    refine ⟨hbase.glide hw h₁ h₂, Γ, os, bs, cs, hs.left, hs.right,
      (view_leads h₁).pieces hs.pieces, fun hq => ?_, fun hq => ?_, fun hq => ?_, fun hq => ?_,
      fun hq => ?_⟩
    · exact hs.sight (hq.of_onto h₁)
    · exact hs.known (hq.of_onto h₁)
    · exact hs.accounted (hq.of_onto h₁)
    · exact hs.counts (hq.of_onto h₁)
    · exact hs.returns (hq.of_onto h₁)
  shift {es s₁ s₂ scope} h hd := by
    obtain ⟨hbase, Γ, os, bs, cs, hs⟩ := h.rel
    refine ⟨⟨{ hbase.same with scope := congrArg scope hbase.same.scope }, hbase.first,
      hbase.second, hbase.window, hbase.named₁, hbase.named₂, hbase.furnished, hbase.returns⟩, Γ,
      os, bs, cs, hs.left, hs.right, hs.pieces, fun hq => ?_, hs.known, hs.accounted, hs.counts,
      hs.returns⟩
    exact ⟨(hs.sight hq).1, (hs.sight hq).2.trans (congrArg (· + 1) (hd _).symm)⟩
  resign h hpos := by
    obtain ⟨hbase, Γ, os, bs, cs, hs⟩ := h.rel
    exact ⟨hbase.resign, Γ, os, bs, cs, hs.left, hs.right, hs.pieces, hs.sight, hs.known,
      hs.accounted, hs.counts, fun hq => absurd hq (not_quiet hpos)⟩

end Pass

end FrontEnd
