import FrontEnd.Proofs.Grammar.Accepting
import FrontEnd.Proofs.Grammar.Opening

/-! Reading of an expression accepts exactly the terms in precedence order. -/

namespace FrontEnd

namespace Parse

variable {s : ParseState}

/-- A literal in front of a token of no level is read if there is room for one node. -/
theorem exists_ok_literal {value : Value} (h : s.Sound)
    (hv : literalValue? s.window.current.kind (s.window.lexeme s.window.current) = some value)
    (herror : s.window.bump.current.kind ≠ .error)
    (hnone : Level.of s.window.bump.current.kind = .none) (hroom : s.tree.Roomy 1) :
    ∃ id t, production (.expr .assign false) s = .ok id t := by
  obtain ⟨id, tree, ha, -⟩ := hroom.addExpr
    { Expr.new (.literal value) s.window.current.span with isConstant := true }
  have hadv := ParseState.took_advanced h herror
  have hliteral : literal s.window.current s = .ok id { s.advanced with tree } := by
    unfold literal
    rw [bind_of_ok (get_eq s), bind_of_ok (advance_eq s)]
    simp only [hv]
    exact addNode_eq ha
  refine ⟨id, { s.advanced with tree }, ?_⟩
  unfold production
  rw [bind_of_ok (get_eq s)]
  obtain ⟨k, hk⟩ : ∃ k, 8 * (s.window.unread + 1) = k + 2 := ⟨8 * s.window.unread + 6, by omega⟩
  rw [hk]
  change (unary (within (k + 1)) >>= fun left => infixes (within k) left .assign false) s = _
  rw [bind_of_ok ((primary_literal hv).trans hliteral)]
  refine infixes_stop (.inl ?_)
  change Level.of s.advanced.window.current.kind = .none
  rw [hadv.window]
  exact hnone

end Parse

end FrontEnd
