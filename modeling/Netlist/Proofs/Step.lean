import Mathlib.Tactic.SplitIfs
import Netlist.Proofs.Name
import Netlist.Proofs.Reading
import Netlist.Read

/-! # Steps of a session

A lexeme that one state leaves is offered to the next state at once, so together the two states
either take it or refuse it (`Progress.settle`). `Progress.Step` lists all that a lexeme which is
taken can do (`Step.settle`), and nothing else can happen (`step_of_settle`). -/

namespace Netlist

namespace Progress

/-- What comes of a lexeme once it is taken or refused: the event that it completes or an error, and
the progress after it. After an error this is the start of the stage that failed. -/
def settle (p : Progress) (l : Lexeme) : Except ReadError (Option Event) × Progress :=
  match _h : p.move l with
  | .take next event => (.ok event, next)
  | .leave next => next.settle l
  | .reject e => (.error e, p.restart)
termination_by p.slack
decreasing_by exact slack_of_move_leave _h

theorem settle_eq (p : Progress) (l : Lexeme) : p.settle l =
    match p.move l with
    | .take next event => (.ok event, next)
    | .leave next => next.settle l
    | .reject e => (.error e, p.restart) := by
  rw [settle]
  split <;> rename_i h <;> simp only [h]

/-- What a lexeme that is taken does to the progress, and the event that it completes. -/
inductive Step : Progress → Lexeme → Option Event → Progress → Prop
  | comment {p : Progress} {l : Lexeme} {text : String} :
      l.token = .comment text → Step p l (some (.comment text)) p
  | module {l : Lexeme} : l.token = .keyword .module → Step beforeModule l none beforeName
  | name {l : Lexeme} {name : String} :
      l.token.name? = some name → Step beforeName l none (beforePorts name)
  | portsStart {l : Lexeme} {name : String} :
      l.token = .punct .openParen → Step (beforePorts name) l none (beforePort name #[])
  | port {l : Lexeme} {name port : String} {ports : Array String} :
      l.token.name? = some port →
        Step (beforePort name ports) l none (afterPort name (ports.push port))
  | portComma {l : Lexeme} {name : String} {ports : Array String} :
      l.token = .punct .comma → Step (afterPort name ports) l none (beforePort name ports)
  | portsEnd {l : Lexeme} {name : String} {ports : Array String} :
      l.token = .punct .closeParen → Step (afterPort name ports) l none (beforeHeaderEnd name ports)
  /-- The list was closed before, by the end of the input. -/
  | portsEndLate {l : Lexeme} {name : String} {ports : Array String} :
      l.token = .punct .closeParen →
        Step (beforePortsEnd name ports) l none (beforeHeaderEnd name ports)
  | headerEnd {l : Lexeme} {name : String} {ports : Array String} :
      l.token = .punct .semicolon →
        Step (beforeHeaderEnd name ports) l (some (.header name ports.toList)) beforeStatement
  | declaration {l : Lexeme} (direction : Direction) :
      l.token = .keyword direction.keyword →
        Step beforeStatement l none (beforeDeclared direction #[])
  | declared {l : Lexeme} {direction : Direction} {name : String} {names : Array String} :
      l.token.name? = some name →
        Step (beforeDeclared direction names) l none (afterDeclared direction (names.push name))
  | declaredComma {l : Lexeme} {direction : Direction} {names : Array String} :
      l.token = .punct .comma →
        Step (afterDeclared direction names) l none (beforeDeclared direction names)
  | declarationEnd {l : Lexeme} {direction : Direction} {names : Array String} :
      l.token = .punct .semicolon →
        Step (afterDeclared direction names) l (some (.declare direction names.toList))
          beforeStatement
  /-- The list was closed before, by the end of the input. -/
  | declarationEndLate {l : Lexeme} {direction : Direction} {names : Array String} :
      l.token = .punct .semicolon →
        Step (beforeDeclarationEnd direction names) l (some (.declare direction names.toList))
          beforeStatement
  | assignment {l : Lexeme} : l.token = .keyword .assign → Step beforeStatement l none beforeTarget
  | target {l : Lexeme} {name : String} :
      l.token.name? = some name → Step beforeTarget l none (beforeEquals name)
  | equals {l : Lexeme} {target : String} :
      l.token = .punct .equals → Step (beforeEquals target) l none (inExpression target 0 #[])
  | openParen {l : Lexeme} {target : String} {depth : Nat} {lexemes : Array Lexeme} :
      l.token = .punct .openParen → depth < maxGroupDepth →
        Step (inExpression target depth lexemes) l none
          (inExpression target (depth + 1) (lexemes.push l))
  | closeParen {l : Lexeme} {target : String} {depth : Nat} {lexemes : Array Lexeme} :
      l.token = .punct .closeParen →
        Step (inExpression target depth lexemes) l none
          (inExpression target (depth - 1) (lexemes.push l))
  | flat {l : Lexeme} {target : String} {depth : Nat} {lexemes : Array Lexeme} :
      l.token.isFlat = true →
        Step (inExpression target depth lexemes) l none
          (inExpression target depth (lexemes.push l))
  | gate {l : Lexeme} {target : String} {depth : Nat} {lexemes : Array Lexeme} {gate : Gate} :
      l.token = .punct .semicolon → Gate.ofLexemes lexemes.toList l.span = .ok gate →
        Step (inExpression target depth lexemes) l (some (.assign target gate)) beforeStatement
  | endmodule {l : Lexeme} :
      l.token = .keyword .endmodule → Step beforeStatement l (some .endmodule) finished

/-! ### Moves that take a lexeme -/

theorem want_eq_take_iff {p next q : Progress} {t : Token} {l : Lexeme} {e event : Option Event} :
    p.want t l next e = .take q event ↔ l.token = t ∧ next = q ∧ e = event := by
  unfold want refuse
  split_ifs with h <;> simp [h]

theorem wantName_eq_take_iff {p q : Progress} {l : Lexeme} {next : String → Progress}
    {event : Option Event} :
    p.wantName l next = .take q event ↔
      ∃ name, l.token.name? = some name ∧ next name = q ∧ event = none := by
  unfold wantName refuse
  split
  · rename_i name h
    simp [h, eq_comm]
  · rename_i h
    simp [h]

theorem startStatement_eq_take {l : Lexeme} {q : Progress} {event : Option Event}
    (h : startStatement l = .take q event) : Step beforeStatement l event q := by
  unfold startStatement at h
  split at h <;> rename_i hl
  · cases h; exact .declaration .input hl
  · cases h; exact .declaration .output hl
  · cases h; exact .declaration .wire hl
  · cases h; exact .assignment hl
  · cases h; exact .endmodule hl
  · simp [refuse] at h

theorem continueExpression_eq_take {target : String} {depth : Nat} {lexemes : Array Lexeme}
    {l : Lexeme} {q : Progress} {event : Option Event}
    (h : continueExpression target depth lexemes l = .take q event) :
    Step (inExpression target depth lexemes) l event q := by
  unfold continueExpression at h
  split at h <;> rename_i hl
  · split at h
    · rename_i gate hg
      cases h; exact .gate hl hg
    · simp at h
  · split_ifs at h with hd
    cases h; exact .openParen hl hd
  · cases h; exact .closeParen hl
  all_goals first
    | cases h; exact .flat (by rw [hl]; rfl)
    | simp [refuse] at h

theorem isSignificant_of_isFlat {t : Token} (h : t.isFlat = true) : t.isSignificant = true := by
  cases t <;> first | rfl | simp [Token.isFlat] at h

theorem move_of_isSignificant {l : Lexeme} (h : l.token.isSignificant = true) (p : Progress) :
    p.move l = p.moveSignificant l := by
  unfold move
  split
  · rename_i ht
    simp [ht, Token.isSignificant] at h
  · rfl

theorem settle_of_move_take {p q : Progress} {l : Lexeme} {event : Option Event}
    (h : p.move l = .take q event) : p.settle l = (.ok event, q) := by
  rw [settle_eq, h]

theorem settle_of_move_leave {p q : Progress} {l : Lexeme} (h : p.move l = .leave q) :
    p.settle l = q.settle l := by
  rw [settle_eq, h]

/-- A lexeme that is taken is taken by the state itself or by the one it is left for. -/
theorem settle_eq_ok {p q : Progress} {l : Lexeme} {event : Option Event}
    (h : p.settle l = (.ok event, q)) :
    p.move l = .take q event ∨ ∃ r, p.move l = .leave r ∧ r.settle l = (.ok event, q) := by
  rw [settle_eq] at h
  split at h
  · rename_i hm
    cases h
    exact .inl hm
  · rename_i r hm
    exact .inr ⟨r, hm, h⟩
  · cases h

theorem step_of_move_take {p q : Progress} {l : Lexeme} {event : Option Event}
    (h : p.move l = .take q event) : Step p l event q := by
  cases hs : l.token.isSignificant with
  | false =>
    obtain ⟨text, ht⟩ := Token.eq_comment_of_isSignificant hs
    simp only [move, ht] at h
    cases h
    exact .comment ht
  | true =>
    rw [move_of_isSignificant hs] at h
    cases p <;> simp only [moveSignificant, want_eq_take_iff, wantName_eq_take_iff] at h
    case beforeModule => obtain ⟨hl, rfl, rfl⟩ := h; exact .module hl
    case beforeName => obtain ⟨name, hl, rfl, rfl⟩ := h; exact .name hl
    case beforePorts => obtain ⟨hl, rfl, rfl⟩ := h; exact .portsStart hl
    case beforePort => obtain ⟨port, hl, rfl, rfl⟩ := h; exact .port hl
    case afterPort =>
      split_ifs at h with hl
      cases h; exact .portComma hl
    case beforePortsEnd => obtain ⟨hl, rfl, rfl⟩ := h; exact .portsEndLate hl
    case beforeHeaderEnd => obtain ⟨hl, rfl, rfl⟩ := h; exact .headerEnd hl
    case beforeStatement => exact startStatement_eq_take h
    case beforeDeclared => obtain ⟨name, hl, rfl, rfl⟩ := h; exact .declared hl
    case afterDeclared =>
      split_ifs at h with hl
      cases h; exact .declaredComma hl
    case beforeDeclarationEnd => obtain ⟨hl, rfl, rfl⟩ := h; exact .declarationEndLate hl
    case beforeTarget => obtain ⟨name, hl, rfl, rfl⟩ := h; exact .target hl
    case beforeEquals => obtain ⟨hl, rfl, rfl⟩ := h; exact .equals hl
    case inExpression => exact continueExpression_eq_take h
    case finished => simp [refuse] at h

/-- A lexeme is left at the end of a list of names, for the state that closes the list. -/
theorem move_eq_leave {p q : Progress} {l : Lexeme} (h : p.move l = .leave q) :
    (∃ name ports, p = afterPort name ports ∧ q = beforePortsEnd name ports) ∨
      ∃ direction names, p = afterDeclared direction names ∧
        q = beforeDeclarationEnd direction names := by
  unfold move at h
  split at h
  · simp at h
  · unfold moveSignificant at h
    split at h
    case h_5 name ports =>
      split_ifs at h
      cases h; exact .inl ⟨name, ports, rfl, rfl⟩
    case h_10 direction names =>
      split_ifs at h
      cases h; exact .inr ⟨direction, names, rfl, rfl⟩
    all_goals first
      | exact absurd h (want_ne_leave _ _ _ _ _ _)
      | exact absurd h (wantName_ne_leave _ _ _ _)
      | exact absurd h (startStatement_ne_leave _ _)
      | exact absurd h (continueExpression_ne_leave _ _ _ _ _)
      | simp [refuse] at h

/-- A lexeme that was left is not left again: it is taken by the state that closes the list. -/
theorem moveSignificant_of_leave {p r q : Progress} {l : Lexeme} {event : Option Event}
    (h : p.move l = .leave r) (hr : r.settle l = (.ok event, q)) :
    r.moveSignificant l = .take q event := by
  have hl : l.token.isSignificant = true := by
    cases hs : l.token <;> first | rfl | simp [move, hs] at h
  rcases settle_eq_ok hr with hm | ⟨_, hm, -⟩
  · rwa [move_of_isSignificant hl] at hm
  · rcases move_eq_leave h with ⟨_, _, -, rfl⟩ | ⟨_, _, -, rfl⟩ <;>
      rcases move_eq_leave hm with ⟨_, _, h1, -⟩ | ⟨_, _, h1, -⟩ <;> cases h1

theorem step_of_settle {p q : Progress} {l : Lexeme} {event : Option Event}
    (h : p.settle l = (.ok event, q)) : Step p l event q := by
  rcases settle_eq_ok h with hm | ⟨r, hm, hr⟩
  · exact step_of_move_take hm
  · have hclose := moveSignificant_of_leave hm hr
    rcases move_eq_leave hm with ⟨name, ports, rfl, rfl⟩ | ⟨direction, names, rfl, rfl⟩
    · obtain ⟨hl, rfl, rfl⟩ := want_eq_take_iff.mp hclose
      exact .portsEnd hl
    · obtain ⟨hl, rfl, rfl⟩ := want_eq_take_iff.mp hclose
      exact .declarationEnd hl

theorem Step.settle {p q : Progress} {l : Lexeme} {event : Option Event}
    (h : Step p l event q) : p.settle l = (.ok event, q) := by
  cases h with
  | comment hl => exact settle_of_move_take (by simp [move, hl])
  | name hl | port hl | declared hl | target hl =>
    refine settle_of_move_take ?_
    rw [move_of_isSignificant (Token.isSignificant_of_name? hl)]
    simp [moveSignificant, wantName, hl]
  | @portsEnd _ name ports hl =>
    have hm : (afterPort name ports).move l = .leave (beforePortsEnd name ports) := by
      simp [move, hl, moveSignificant]
    rw [settle_of_move_leave hm]
    exact settle_of_move_take (by simp [move, moveSignificant, want, hl])
  | @declarationEnd _ direction names hl =>
    have hm : (afterDeclared direction names).move l =
        .leave (beforeDeclarationEnd direction names) := by
      simp [move, hl, moveSignificant]
    rw [settle_of_move_leave hm]
    exact settle_of_move_take (by simp [move, moveSignificant, want, hl])
  | declaration d hl =>
    cases d <;>
      exact settle_of_move_take (by
        simp only [Direction.keyword] at hl
        simp [move, moveSignificant, startStatement, hl])
  | openParen hl hd =>
    exact settle_of_move_take (by simp [move, moveSignificant, continueExpression, hl, hd])
  | flat hl =>
    refine settle_of_move_take ?_
    rw [move_of_isSignificant (isSignificant_of_isFlat hl)]
    unfold moveSignificant continueExpression
    cases ht : l.token with
    | punct p => cases p <;> simp [ht, Token.isFlat] at hl ⊢
    | identifier | escaped | constant => rfl
    | keyword | comment => simp [ht, Token.isFlat] at hl
  | gate hl hg =>
    exact settle_of_move_take (by simp [move, moveSignificant, continueExpression, hl, hg])
  | _ hl =>
    exact settle_of_move_take (by
      simp [move, moveSignificant, startStatement, continueExpression, want, hl])

theorem Step.of_comment {p q : Progress} {l : Lexeme} {event : Option Event} {text : String}
    (h : Step p l event q) (hl : l.token = .comment text) :
    event = some (.comment text) ∧ q = p := by
  have hs : p.settle l = (.ok (some (.comment text)), p) := (Step.comment hl).settle
  rw [h.settle] at hs
  cases hs
  exact ⟨rfl, rfl⟩

end Progress

end Netlist
