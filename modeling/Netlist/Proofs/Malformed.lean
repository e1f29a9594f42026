import Netlist.Proofs.Canonical
import Netlist.Proofs.Nesting

/-! # Malformed and unsupported right-hand sides

The right-hand side of an assignment can be refused for two reasons. It can be no expression at all
(`IsExpression`), which is a grammar error, or one that describes no gate, which is a pattern error.
Where its parentheses are nowhere too deep the kind of the error tells which. Main statement:
`Gate.kind_of_ofLexemes`. -/

namespace Netlist

/-! ### The tokens of expressions -/

/-- One or more pieces, with an operator between any two neighbours. -/
inductive IsSequence (P : List Token → Prop) : List Token → Prop
  | single {ts : List Token} : P ts → IsSequence P ts
  | cons {ts us : List Token} (op : BinOp) : P ts → IsSequence P us →
      IsSequence P (ts ++ .punct op.punct :: us)

/-- A literal, or literals in parentheses with operators between them. -/
inductive IsWrittenOperand : List Token → Prop
  | literal {ts : List Token} {s : Signal} : IsLiteral ts s → IsWrittenOperand ts
  | group {ts : List Token} : IsSequence (fun us => ∃ s, IsLiteral us s) ts →
      IsWrittenOperand (.punct .openParen :: (ts ++ [.punct .closeParen]))

/-- Operands with operators between them. -/
def IsExpression (ts : List Token) : Prop := IsSequence IsWrittenOperand ts

namespace Expr

variable {depth : Nat} {ts : List Token} {P : List Token → Prop}

theorem exists_operands_of_isSequence
    (hP : ∀ ts, P ts → ∃ e, IsRegularOperand depth e ∧ ts.map Token.asSignal = e.written)
    (h : IsSequence P ts) : ∃ (operands : List (Expr × BinOp)) (last : Expr),
      (∀ p ∈ operands, IsRegularOperand depth p.1) ∧ IsRegularOperand depth last ∧
        ts.map Token.asSignal =
          writtenChain (operands.map Prod.fst ++ [last]) (operands.map Prod.snd) := by
  induction h with
  | single hts =>
    obtain ⟨e, he, hw⟩ := hP _ hts
    exact ⟨[], e, List.forall_mem_nil _, he, hw.trans (writtenChain_singleton e).symm⟩
  | cons op hts _ ih =>
    obtain ⟨e, he, hw⟩ := hP _ hts
    obtain ⟨operands, last, hall, hlast, hrest⟩ := ih
    exact ⟨(e, op) :: operands, last, List.forall_mem_cons.mpr ⟨he, hall⟩, hlast,
      map_asSignal_eq_writtenChain_iff.mpr ⟨_, _, rfl, hw, hrest⟩⟩

theorem isSequence_of_operands
    (hP : ∀ e ts, IsRegularOperand depth e → ts.map Token.asSignal = e.written → P ts)
    {operands : List (Expr × BinOp)} {last : Expr}
    (h : ∀ e ∈ operands.map Prod.fst ++ [last], IsRegularOperand depth e)
    (hts : ts.map Token.asSignal =
      writtenChain (operands.map Prod.fst ++ [last]) (operands.map Prod.snd)) :
    IsSequence P ts := by
  induction operands generalizing ts with
  | nil =>
    rw [List.map_nil, List.map_nil, List.nil_append, writtenChain_singleton] at hts
    exact .single (hP last ts (h last (by simp)) hts)
  | cons p operands ih =>
    obtain ⟨us, ws, rfl, hus, hws⟩ := map_asSignal_eq_writtenChain_iff.mp hts
    obtain ⟨he, hall⟩ := List.forall_mem_cons.mp h
    exact .cons p.2 (hP p.1 us he hus) (ih hall hws)

/-- If the pieces are the operands in which groups nest at most `depth` deep, the sequences are the
expressions in which they do. -/
theorem isSequence_iff
    (hP : ∀ ts, P ts ↔ ∃ e, IsRegularOperand depth e ∧ ts.map Token.asSignal = e.written) :
    IsSequence P ts ↔ ∃ e : Expr, e.Regular depth ∧ ts.map Token.asSignal = e.written := by
  constructor
  · intro h
    obtain ⟨operands, last, hall, hlast, hts⟩ :=
      exists_operands_of_isSequence (fun ts => (hP ts).mp) h
    refine ⟨close operands.reverse last,
      regular_close (fun p hp => hall p (List.mem_reverse.mp hp)) hlast, ?_⟩
    rw [hts, writtenChain_append, written_close, writtenPending, List.reverse_reverse]
  · rintro ⟨e, he, hts⟩
    cases he with
    | literal s => exact .single ((hP ts).mpr ⟨_, ⟨rfl, .literal s⟩, hts⟩)
    | group he => exact .single ((hP ts).mpr ⟨_, ⟨rfl, .group he⟩, hts⟩)
    | chain _ hops hoperand hregular =>
      obtain ⟨pairs, last, rfl, rfl⟩ := exists_pairs hops
      exact isSequence_of_operands (fun e us he hus => (hP us).mpr ⟨e, he, hus⟩)
        (fun e he => ⟨hoperand e he, hregular e he⟩) hts

theorem exists_isLiteral_iff : (∃ s, IsLiteral ts s) ↔
    ∃ e, IsRegularOperand 0 e ∧ ts.map Token.asSignal = e.written := by
  constructor
  · rintro ⟨s, h⟩
    exact ⟨.literal s, ⟨rfl, .literal s⟩, isLiteral_iff.mp h⟩
  · rintro ⟨e, ⟨hoperand, hregular⟩, hts⟩
    cases hregular with
    | literal s => exact ⟨s, isLiteral_iff.mpr hts⟩
    | chain => cases hoperand

theorem isWrittenOperand_iff : IsWrittenOperand ts ↔
    ∃ e, IsRegularOperand maxGroupDepth e ∧ ts.map Token.asSignal = e.written := by
  have hinner (us : List Token) : IsSequence (fun us => ∃ s, IsLiteral us s) us ↔
      ∃ e : Expr, e.Regular 0 ∧ us.map Token.asSignal = e.written :=
    isSequence_iff fun _ => exists_isLiteral_iff
  constructor
  · rintro (h | h)
    · exact ⟨_, ⟨rfl, .literal _⟩, isLiteral_iff.mp h⟩
    · obtain ⟨e, he, hts⟩ := (hinner _).mp h
      exact ⟨_, ⟨rfl, .group he⟩, map_asSignal_eq_group_iff.mpr ⟨_, rfl, hts⟩⟩
  · rintro ⟨e, ⟨hoperand, hregular⟩, hts⟩
    cases hregular with
    | literal s => exact .literal (isLiteral_iff.mpr hts)
    | group he =>
      obtain ⟨us, rfl, hus⟩ := map_asSignal_eq_group_iff.mp hts
      exact .group ((hinner us).mpr ⟨_, he, hus⟩)
    | chain => cases hoperand

/-- **Expressions are what is read.** -/
theorem isExpression_iff : IsExpression ts ↔ ∃ e, Reading [] [] none ts e := by
  simp only [reading_iff]
  exact isSequence_iff fun _ => isWrittenOperand_iff

end Expr

/-! ### Errors -/

namespace Gate

/-- **Malformed or unsupported.** Where parentheses are nowhere too deep, lexemes are refused with a
grammar error exactly if their tokens are no expression, and with a pattern error exactly if they
are one that is the right-hand side of no gate. They are never refused with a lexical error. -/
theorem kind_of_ofLexemes (ls : List Lexeme) (limit : Span)
    (h : IsShallow 0 (ls.map Lexeme.token)) :
    ((∃ e, ofLexemes ls limit = .error e ∧ e.cause.kind = .grammar) ↔
      ¬ IsExpression (ls.map Lexeme.token)) ∧
    ((∃ e, ofLexemes ls limit = .error e ∧ e.cause.kind = .pattern) ↔
      IsExpression (ls.map Lexeme.token) ∧
        ∀ gate, ¬ IsRightHandSide (ls.map Lexeme.token) gate) ∧
    ∀ e, ofLexemes ls limit = .error e → e.cause.kind ≠ .lexical := by
  have hexpr : IsExpression (ls.map Lexeme.token) ↔ ∃ e, Expr.ofLexemes ls limit = .ok e := by
    simp only [Expr.isExpression_iff, Expr.ofLexemes_eq_ok_iff]
  have hgate (gate : Gate) : IsRightHandSide (ls.map Lexeme.token) gate ↔
      ofLexemes ls limit = .ok gate := isRightHandSide_iff.trans ofLexemes_eq_ok_iff.symm
  simp only [hexpr, hgate]
  rcases hread : Expr.ofLexemes ls limit with err | expr
  · have hof := ofLexemes_eq_error_iff.mpr (.inl hread)
    have hkind : err.cause.kind = .grammar := by
      cases Expr.isRefusal_of_ofLexemes hread with
      | grammar => rfl
      | nesting _ hdeep => exact absurd h hdeep
    simp [hof, hkind]
  · rcases hexpr' : ofExpr expr with p | gate
    · have hof := ofLexemes_eq_error_iff.mpr (.inr ⟨expr, p, hread, hexpr', rfl⟩)
      simp [hof, Cause.kind]
    · have hof : ofLexemes ls limit = .ok gate :=
        ofLexemes_eq_ok_iff.mpr ⟨expr, Expr.ofLexemes_eq_ok_iff.mp hread, hexpr'⟩
      simp [hof]

/-- In `a|)` an operand is missing, while `(a&b)|(c&d)` is an expression that no gate has. -/
theorem kind_of_ofLexemes_unsupported :
    let place (t : Token) : Lexeme := ⟨t, .empty .start⟩
    let name (s : String) : Token := .identifier s
    let malformed := [name "a", .punct .bar, .punct .closeParen].map place
    let unsupported := [.punct .openParen, name "a", .punct .amp, name "b", .punct .closeParen,
      .punct .bar, .punct .openParen, name "c", .punct .amp, name "d", .punct .closeParen].map place
    IsShallow 0 (malformed.map Lexeme.token) ∧ IsShallow 0 (unsupported.map Lexeme.token) ∧
      ¬ IsExpression (malformed.map Lexeme.token) ∧
      IsExpression (unsupported.map Lexeme.token) ∧
      ∀ gate, ¬ IsRightHandSide (unsupported.map Lexeme.token) gate := by
  intro place name malformed unsupported
  have hmalformed : IsShallow 0 (malformed.map Lexeme.token) := by decide
  have hunsupported : IsShallow 0 (unsupported.map Lexeme.token) := by decide
  exact ⟨hmalformed, hunsupported,
    (kind_of_ofLexemes malformed (.empty .start) hmalformed).1.mp ⟨_, rfl, rfl⟩,
    (kind_of_ofLexemes unsupported (.empty .start) hunsupported).2.1.mp ⟨_, rfl, rfl⟩⟩

end Gate

end Netlist
