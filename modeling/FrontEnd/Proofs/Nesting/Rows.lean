import FrontEnd.Proofs.Constant.Replacements
import FrontEnd.Proofs.Program.Pieces

/-!
Spans that stand in a row, branches whose parts stand in a row inside them, and the row of tokens
that a window runs along. Neither checking nor folding moves a branch.
-/

namespace FrontEnd

/-! ### Spans in a row -/

namespace Span

variable {lo lo' mid hi hi' : Nat} {s t : Span} {ss ts : List Span}

/-- Spans one after the other, from one offset to another. -/
def Row : Nat → List Span → Nat → Prop
  | lo, [], hi => lo ≤ hi
  | lo, s :: ss, hi => lo ≤ s.start ∧ s.start ≤ s.stop ∧ Row s.stop ss hi

theorem Row.le (h : Row lo ss hi) : lo ≤ hi := by
  induction ss generalizing lo with
  | nil => exact h
  | cons s ss ih =>
    obtain ⟨hlo, hs, hrest⟩ := h
    exact hlo.trans (hs.trans (ih hrest))

theorem Row.mono (h : Row lo ss hi) (hlo : lo' ≤ lo) (hhi : hi ≤ hi') : Row lo' ss hi' := by
  induction ss generalizing lo lo' with
  | nil => exact hlo.trans (Nat.le_trans h hhi)
  | cons s ss ih => exact ⟨hlo.trans h.1, h.2.1, ih h.2.2 le_rfl⟩

theorem Row.append (h : Row lo ss mid) (h' : Row mid ts hi) : Row lo (ss ++ ts) hi := by
  induction ss generalizing lo with
  | nil => exact h'.mono h le_rfl
  | cons s ss ih => exact ⟨h.1, h.2.1, ih h.2.2⟩

theorem row_singleton (hlo : lo ≤ s.start) (hs : s.start ≤ s.stop) (hhi : s.stop ≤ hi) :
    Row lo [s] hi :=
  ⟨hlo, hs, hhi⟩

theorem Row.mem (h : Row lo ss hi) (hs : s ∈ ss) :
    lo ≤ s.start ∧ s.start ≤ s.stop ∧ s.stop ≤ hi := by
  induction ss generalizing lo with
  | nil => cases hs
  | cons r ss ih =>
    obtain ⟨hlo, hr, hrest⟩ := h
    rcases List.mem_cons.1 hs with rfl | hs
    · exact ⟨hlo, hr, hrest.le⟩
    · obtain ⟨hstart, hle, hstop⟩ := ih hrest hs
      exact ⟨hlo.trans (hr.trans hstart), hle, hstop⟩

theorem Row.pairwise (h : Row lo ss hi) : ss.Pairwise fun s t => s.stop ≤ t.start := by
  induction ss generalizing lo with
  | nil => exact .nil
  | cons s ss ih => exact .cons (fun t ht => (h.2.2.mem ht).1) (ih h.2.2)

/-- What covers two spans of a row reaches from the first to the second. -/
theorem Row.merge_eq (h : Row lo [s, t] hi) : s.merge t = ⟨s.start, t.stop⟩ := by
  obtain ⟨-, hs, hst, ht, -⟩ := h
  rw [merge, Nat.min_eq_left (by omega), Nat.max_eq_right (by omega)]

end Span

/-! ### Branches -/

/-- The part of the text that a node was read from. -/
def Node.span : Node → Span
  | .expr e => e.span
  | .stmt s => s.span

/-- Children, or what stands for them, in the order of the text: the condition of a `do` loop
stands behind the body. -/
def Node.inOrder {α : Type} : Node → List α → List α
  | .stmt ⟨.doLoop .., _⟩, children => children.reverse
  | _, children => children

theorem Node.inOrder_map {α β : Type} (n : Node) (f : α → β) (children : List α) :
    n.inOrder (children.map f) = (n.inOrder children).map f := by
  unfold inOrder
  split <;> simp

theorem Node.inOrder_inOrder {α : Type} (n : Node) (children : List α) :
    n.inOrder (n.inOrder children) = children := by
  unfold inOrder
  split <;> simp

theorem Node.inOrder_perm {α : Type} (n : Node) (children : List α) :
    (n.inOrder children).Perm children := by
  unfold inOrder
  split
  · exact List.reverse_perm _
  · exact .refl _

namespace Branch

variable {b c x : Branch} {bs : List Branch} {root root' : NodeId} {node node' : Node}
  {parts parts' : List Branch} {hole : Hole}

def extent (b : Branch) : Span := b.node.span

/-- Here and everywhere below, the parts of a branch stand in a row inside its span. -/
def Nested (b : Branch) : Prop :=
  ∀ x ∈ b.all, Span.Row x.extent.start (x.node.inOrder (x.parts.map extent)) x.extent.stop

theorem nested_mk : Nested ⟨root, node, parts⟩ ↔
    Span.Row node.span.start (node.inOrder (parts.map extent)) node.span.stop ∧
      ∀ p ∈ parts, p.Nested := by
  have hall : (∀ x ∈ allIn parts, Span.Row x.extent.start (x.node.inOrder (x.parts.map extent))
      x.extent.stop) ↔ ∀ p ∈ parts, p.Nested := by
    constructor
    · exact fun h p hp x hx => h x (mem_allIn.2 ⟨p, hp, hx⟩)
    · intro h x hx
      obtain ⟨p, hp, hx⟩ := mem_allIn.1 hx
      exact h p hp x hx
  rw [Nested, all_mk, List.forall_mem_cons, hall]
  rfl

theorem Nested.of_mem (h : b.Nested) (hx : x ∈ b.all) : x.Nested :=
  fun y hy => h y (all_trans hx hy)

theorem Nested.le (h : b.Nested) : b.extent.start ≤ b.extent.stop := (h b b.mem_all_self).le

theorem Nested.of_part (h : b.Nested) (hx : x ∈ b.parts) :
    x.Nested ∧ b.extent.start ≤ x.extent.start ∧ x.extent.stop ≤ b.extent.stop := by
  obtain ⟨root, node, parts⟩ := b
  obtain ⟨hrow, hparts⟩ := nested_mk.1 h
  have hmem : x.extent ∈ node.inOrder (parts.map extent) :=
    (node.inOrder_perm _).mem_iff.2 (List.mem_map_of_mem hx)
  exact ⟨hparts x hx, (hrow.mem hmem).1, (hrow.mem hmem).2.2⟩

/-- All that stands below a branch is enclosed by it. -/
theorem Nested.all (h : b.Nested) (hx : x ∈ b.all) :
    b.extent.start ≤ x.extent.start ∧ x.extent.stop ≤ b.extent.stop := by
  induction b using induct with
  | mk root node parts ih =>
    rw [all_mk] at hx
    rcases List.mem_cons.1 hx with rfl | hx
    · exact ⟨le_rfl, le_rfl⟩
    · obtain ⟨p, hp, hx⟩ := mem_allIn.1 hx
      obtain ⟨hnested, hstart, hstop⟩ := h.of_part hp
      obtain ⟨hstart', hstop'⟩ := ih p hp hnested hx
      exact ⟨hstart.trans hstart', hstop'.trans hstop⟩

/-- Other parts with the same spans. -/
theorem Nested.congr (h : Nested ⟨root, node, parts⟩) (hspan : node'.span = node.span)
    (horder : node'.inOrder (parts'.map extent) = node.inOrder (parts.map extent))
    (hparts : ∀ p ∈ parts', p.Nested) : Nested ⟨root', node', parts'⟩ := by
  rw [nested_mk] at h ⊢
  rw [hspan, horder]
  exact ⟨h.1, hparts⟩

/-- Parts that were changed where they stand. -/
theorem nested_parts {R : Branch → Branch → Prop} (h : List.Forall₂ R parts parts')
    (hR : ∀ p ∈ parts, ∀ q, R p q → q.extent = p.extent ∧ q.Nested) :
    parts'.map extent = parts.map extent ∧ ∀ q ∈ parts', q.Nested := by
  induction h with
  | nil => exact ⟨rfl, nofun⟩
  | cons hpq _ ih =>
    obtain ⟨hextent, hnested⟩ := hR _ List.mem_cons_self _ hpq
    obtain ⟨hrest, hall⟩ := ih fun p hp => hR p (List.mem_cons_of_mem _ hp)
    exact ⟨by rw [List.map_cons, List.map_cons, hextent, hrest],
      List.forall_mem_cons.2 ⟨hnested, hall⟩⟩

/-! ### Checking and folding -/

theorem Folds.extent_eq {bindings : Name → Option Value} (h : Folds bindings b c) :
    c.extent = b.extent := by
  cases h <;> rfl

/-- Folding puts literals where constants stood. -/
theorem Folds.nested {bindings : Name → Option Value} (h : Folds bindings b c) (hb : b.Nested) :
    c.Nested := by
  induction b using induct generalizing c with
  | mk root node parts ih =>
    cases h with
    | same => exact hb
    | value => exact nested_mk.2 ⟨hb.le, nofun⟩
    | node _ hparts =>
      obtain ⟨hextents, hnested⟩ := nested_parts hparts fun p hp q hpq =>
        ⟨hpq.extent_eq, ih p hp hpq ((nested_mk.1 hb).2 p hp)⟩
      exact hb.congr rfl (congrArg _ hextents) hnested

theorem Retyped.extent_eq (h : b.Retyped c) : c.extent = b.extent := by
  cases h with
  | mk _ _ _ hspan => exact hspan

theorem Retyped.nested (h : b.Retyped c) (hb : b.Nested) : c.Nested := by
  induction b using induct generalizing c with
  | mk root node parts ih =>
    cases h with
    | @mk _ x _ _ _ _ _ _ hspan hlambda hother =>
      cases hx : x.kind.isLambda with
      | true =>
        obtain rfl := hlambda hx
        exact hb.congr hspan rfl (nested_mk.1 hb).2
      | false =>
        obtain ⟨hextents, hnested⟩ := nested_parts (hother hx) fun p hp q hpq =>
          ⟨hpq.extent_eq, ih p hp hpq ((nested_mk.1 hb).2 p hp)⟩
        exact hb.congr hspan hextents hnested

/-! ### Branches inside others -/

/-- Wherever a branch stands, there is a forest around it. -/
theorem exists_plug (hx : x ∈ allIn bs) : ∃ hole : Hole, hole.plug x = bs := by
  have hinside (b : Branch) (hb : x ∈ b.all) (outer : Hole) : ∃ hole : Hole,
      hole.plug x = outer.plug b := by
    induction b using induct generalizing outer with
    | mk root node parts ih =>
      rw [all_mk] at hb
      rcases List.mem_cons.1 hb with rfl | hb
      · exact ⟨outer, rfl⟩
      · obtain ⟨p, hp, hx⟩ := mem_allIn.1 hb
        obtain ⟨before, after, rfl⟩ := List.append_of_mem hp
        exact ih p hp hx (.inside outer root node before after)
  obtain ⟨b, hb, hin⟩ := mem_allIn.1 hx
  obtain ⟨before, after, rfl⟩ := List.append_of_mem hb
  exact hinside b hin (.top before after)

theorem parts_subset_allIn (hb : b ∈ allIn bs) : b.parts ⊆ allIn bs := by
  obtain ⟨a, ha, hba⟩ := mem_allIn.1 hb
  obtain ⟨root, node, parts⟩ := b
  refine fun p hp => mem_allIn.2 ⟨a, ha, all_trans hba ?_⟩
  rw [all_mk]
  exact List.mem_cons_of_mem _ (mem_allIn.2 ⟨p, hp, p.mem_all_self⟩)

theorem mem_allIn_plug (hole : Hole) (b : Branch) : b ∈ allIn (hole.plug b) := by
  induction hole generalizing b with
  | top before after => exact mem_allIn.2 ⟨b, by simp [Hole.plug], b.mem_all_self⟩
  | inside outer root node before after ih =>
    exact parts_subset_allIn (ih ⟨root, node, before ++ b :: after⟩) (by simp)

/-- Among branches, one changes and keeps its span. -/
theorem nested_replaced {before after : List Branch} (hextent : c.extent = b.extent)
    (hc : c.Nested) (h : ∀ x ∈ before ++ b :: after, x.Nested) :
    (before ++ c :: after).map extent = (before ++ b :: after).map extent ∧
      ∀ x ∈ before ++ c :: after, x.Nested := by
  refine ⟨by simp [hextent], fun x hx => ?_⟩
  rcases List.mem_append.1 hx with hx | hx
  · exact h x (List.mem_append_left _ hx)
  · rcases List.mem_cons.1 hx with rfl | hx
    · exact hc
    · exact h x (List.mem_append_right _ (List.mem_cons_of_mem _ hx))

/-- The same anywhere inside a forest. -/
theorem nested_plug (hextent : c.extent = b.extent) (hc : c.Nested)
    (h : ∀ x ∈ hole.plug b, x.Nested) :
    (hole.plug c).map extent = (hole.plug b).map extent ∧ ∀ x ∈ hole.plug c, x.Nested := by
  induction hole generalizing b c with
  | top before after => exact nested_replaced hextent hc h
  | inside outer root node before after ih =>
    obtain ⟨x, hx, hin⟩ := mem_allIn.1 (mem_allIn_plug outer ⟨root, node, before ++ b :: after⟩)
    have hnode := (h x hx).of_mem hin
    obtain ⟨hextents, hnested⟩ := nested_replaced hextent hc (nested_mk.1 hnode).2
    exact ih (b := ⟨root, node, before ++ b :: after⟩) rfl
      (hnode.congr rfl (congrArg _ hextents) hnested) h

theorem map_root_plug (hole : Hole) (h : c.root = b.root) :
    (hole.plug c).map Branch.root = (hole.plug b).map Branch.root := by
  induction hole generalizing b c with
  | top before after => simp [Hole.plug, h]
  | inside outer root node before after ih => exact ih rfl

end Branch

/-! ### Tokens -/

namespace Window

variable {w : Window} {text : String} {span : Span}

/-- A token stands inside the text, and in front of the next one. -/
theorem Reads.current_le (h : w.Reads text) : w.current.span.start ≤ w.current.span.stop ∧
    w.current.span.stop ≤ text.utf8ByteSize ∧
    w.current.span.stop ≤ w.bump.current.span.start := by
  obtain ⟨-, s, hp, hc, hn, -⟩ := h
  obtain ⟨hpasses, start, -, hstop, hspan⟩ := Scanner.finds_next s
  obtain ⟨-, start', hstart', -, hspan'⟩ := Scanner.finds_next s.next.2
  obtain ⟨k, hk, -, hoffset⟩ := (hp.trans hpasses).drops
  have hsize : k ≤ text.utf8ByteSize := hk
  have hzero : (Scanner.ofBytes text.toUTF8.data.toList).offset = 0 := rfl
  have := hstop.offset_le
  have := hstart'.offset_le
  have hbump : w.bump.current = s.next.2.next.1 := hn
  rw [hc, hbump, hspan, hspan']
  simp only [Span.ofRange]
  omega

/-- The span of the last token that left the window ends in front of the current token. -/
theorem In.previous_le (h : w.In text) : w.previous.start ≤ w.previous.stop ∧
    w.previous.stop ≤ w.current.span.start := by
  obtain ⟨n, rfl⟩ := h
  cases n with
  | zero => exact ⟨le_rfl, Nat.zero_le _⟩
  | succ n =>
    obtain ⟨hstart, -, hstop⟩ := ((reads_ofText text).drop n).current_le
    rw [← bump_drop]
    exact ⟨hstart, hstop⟩

/-- A span that ends with a token that has left the window, or in front of it, and starts no later
than that token. -/
structure Past (w : Window) (span : Span) : Prop where
  start : span.start ≤ w.previous.start
  stop : span.stop ≤ w.previous.stop

theorem Past.bump (h : w.Past span) (hw : w.In text) : w.bump.Past span := by
  obtain ⟨hle, hcurrent⟩ := hw.previous_le
  have hspan := hw.reads.current_le.1
  have hprevious : w.bump.previous = w.current.span := rfl
  exact ⟨hprevious ▸ h.start.trans (hle.trans hcurrent),
    hprevious ▸ h.stop.trans (hcurrent.trans hspan)⟩

theorem Past.drop (h : w.Past span) (hw : w.In text) (n : Nat) : (w.drop n).Past span := by
  induction n generalizing w with
  | zero => exact h
  | succ n ih => exact ih (h.bump hw) (hw.drop 1)

/-- What a token that is past begins reaches up to the last token. -/
theorem Past.merge_eq (h : w.Past span) :
    span.merge w.previous = ⟨span.start, w.previous.stop⟩ := by
  rw [Span.merge, Nat.min_eq_left h.start, Nat.max_eq_right h.stop]

/-- A token is past as soon as it is taken. -/
theorem In.past_after (h : w.In text) (hspan : span.start ≤ w.current.span.start)
    (hstop : span.stop ≤ w.current.span.stop) : w.after.Past span := by
  obtain ⟨n, hn⟩ := w.after_eq_drop
  have hbump : w.bump.Past span := ⟨hspan, hstop⟩
  rw [hn, drop_succ]
  exact hbump.drop (h.drop 1) n

end Window

end FrontEnd
