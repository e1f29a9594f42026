import Netlist.Diagnostic

/-! # Expressions and gates

The right-hand side of an assignment: its lexemes are read as an expression (`Expr.ofLexemes`),
which is then recognised as a gate (`Gate.ofExpr`). -/

namespace Netlist

/-! ## Expressions

The right-hand side of an assignment as it is written: parentheses are kept as groups, and a chain
of operators stays flat, since no supported gate asks for precedence. -/

/-- The operators of two operands. -/
inductive BinOp where
  | and
  | or
  | xor
  deriving DecidableEq, Repr

namespace BinOp

def punct : BinOp → Punct
  | and => .amp
  | or => .bar
  | xor => .caret

def text (op : BinOp) : String := op.punct.text

/-- The operator that the token is. -/
def ofToken? : Token → Option BinOp
  | .punct .amp => some and
  | .punct .bar => some or
  | .punct .caret => some xor
  | _ => none

@[simp] theorem ofToken?_punct (op : BinOp) : ofToken? (.punct op.punct) = some op := by
  cases op <;> rfl

end BinOp

/-- An expression. A chain is `operands[0] ops[0] operands[1] ops[1] …`. -/
inductive Expr where
  | literal (s : Signal)
  | group (inner : Expr)
  | chain (operands : List Expr) (ops : List BinOp)
  deriving Repr

namespace Expr

/-- The signal of a literal, also of one in a single pair of parentheses. -/
def wrappedLiteral? : Expr → Option Signal
  | literal s => some s
  | group (literal s) => some s
  | _ => none

/-- The two signals of a parenthesized AND of two literals. -/
def andPair? : Expr → Option (Signal × Signal)
  | group (chain [literal a, literal b] [.and]) => some (a, b)
  | _ => none

end Expr

/-! ## Expressions from lexemes

An expression is read in one pass from left to right. The state is the chain being read, as the
operands that already have their operator, latest first, together with the chains around it, one
for each open group. Reading alternates between `operandNext`, which waits for an operand, and
`operatorNext`, which holds the latest operand and waits for what follows it. -/

namespace Expr

/-- The operands of a chain that is being read, each with the operator after it, latest first. -/
abbrev Pending := List (Expr × BinOp)

/-- The chain of the pending operands and a last one. A single operand is itself. -/
def close (pending : Pending) (last : Expr) : Expr :=
  match pending with
  | [] => last
  | _ => .chain (pending.reverse.map Prod.fst ++ [last]) (pending.reverse.map Prod.snd)

/-- An error in the grammar of an expression. -/
def refuse {α : Type} (e : GrammarError) (span : Span) : Except ReadError α :=
  .error ⟨.grammar e, span⟩

mutual

/-- Reads on where an operand has to come: a signal, an inverted signal, or a group. `outer` holds
the chains around the one being read, innermost first, and `limit` stands for the end. -/
def operandNext (limit : Span) (outer : List Pending) (pending : Pending) :
    List Lexeme → Except ReadError Expr
  | [] => refuse (.endOfExpression .operand) limit
  | ⟨.punct .tilde, span⟩ :: rest =>
    match rest with
    | [] => refuse .danglingTilde span
    | ⟨token, _⟩ :: rest =>
      match token.signalName? with
      | some name => operatorNext limit outer pending (.literal ⟨name, true⟩) rest
      | none => refuse .danglingTilde span
  | ⟨.punct .openParen, span⟩ :: rest =>
    if outer.length < maxGroupDepth then operandNext limit (pending :: outer) [] rest
    else .error (.nesting span)
  | ⟨token, span⟩ :: rest =>
    match token.signalName? with
    | some name => operatorNext limit outer pending (.literal ⟨name, false⟩) rest
    | none => refuse (.unexpected .operand token) span

/-- Reads on after the operand `last`: an operator, the end of the group, or the end of all. -/
def operatorNext (limit : Span) (outer : List Pending) (pending : Pending) (last : Expr) :
    List Lexeme → Except ReadError Expr
  | [] =>
    match outer with
    | [] => .ok (close pending last)
    | _ :: _ => refuse (.endOfExpression .groupEnd) limit
  | ⟨token, span⟩ :: rest =>
    match BinOp.ofToken? token with
    | some op => operandNext limit outer ((last, op) :: pending) rest
    | none =>
      match outer with
      | [] => refuse (.trailing token) span
      | around :: outer =>
        if token = .punct .closeParen then
          operatorNext limit outer around (.group (close pending last)) rest
        else refuse (.unexpected .groupEnd token) span

end

/-- The expression that the lexemes spell. `limit` is the place just after them, where an error of a
truncated expression is reported. -/
def ofLexemes (lexemes : List Lexeme) (limit : Span) : Except ReadError Expr :=
  match lexemes with
  | [] => refuse (.endOfExpression .expression) limit
  | _ => operandNext limit [] [] lexemes

end Expr

/-! ## Gates

The gates that an assignment can describe and how an expression is recognised as one of them
(`Gate.ofExpr`). The majority of three signals is written as an OR of three terms, each a
parenthesized AND of two of the signals, in any order. -/

/-- A gate without the net it drives. -/
inductive Gate where
  | copy (a : Signal)
  | binary (op : BinOp) (a b : Signal)
  | majority (a b c : Signal)
  deriving DecidableEq, Repr

namespace Gate

/-- How often each signal was seen, in the order of first sight. -/
abbrev Sightings := List (Signal × Nat)

/-- Counts one more sight of `s`. A signal is known by its name and has to keep its polarity. -/
def sight (s : Signal) : Sightings → Except PatternError Sightings
  | [] => .ok [(s, 1)]
  | (t, n) :: rest =>
    if t.name = s.name then
      if t.negated = s.negated then .ok ((t, n + 1) :: rest)
      else .error (.mixedPolarity s.name)
    else do return (t, n) :: (← sight s rest)

/-- Counts the signals of one term of a majority. -/
def sightTerm (seen : Sightings) (term : Expr) : Except PatternError Sightings :=
  match term.andPair? with
  | none => .error .compoundTerm
  | some (a, b) =>
    if a.name = b.name then .error (.selfPair a.name)
    else do sight b (← sight a seen)

/-- The majority gate that is the OR of the terms: three signals, each in two of the terms. -/
def ofTerms (terms : List Expr) : Except PatternError Gate := do
  match ← terms.foldlM sightTerm [] with
  | [(a, 2), (b, 2), (c, 2)] => return .majority a b c
  | _ => throw .notMajority

/-- The gate of two operands, each a literal that may stand in parentheses. -/
def ofPair (op : BinOp) (a b : Expr) : Except PatternError Gate :=
  match a.wrappedLiteral?, b.wrappedLiteral? with
  | some a, some b => .ok (.binary op a b)
  | _, _ => .error .compoundOperands

/-- The gate that the expression describes. -/
def ofExpr (e : Expr) : Except PatternError Gate :=
  match e.wrappedLiteral? with
  | some a => .ok (.copy a)
  | none =>
    match e with
    | .chain [a, b] [op] => ofPair op a b
    | .chain [a, b, c] ops =>
      if ops.all (· = .or) then ofTerms [a, b, c] else .error .mixedTriple
    | .chain operands _ => .error (.operandCount operands.length)
    | _ => .error .misplacedGroup

/-- The gate that the expression describes, or the error for the stretch of text it stands in. -/
def classify (e : Expr) (span : Span) : Except ReadError Gate :=
  match ofExpr e with
  | .ok gate => .ok gate
  | .error p => .error ⟨.pattern p, span⟩

end Gate

/-! ## Gates from lexemes -/

/-- The stretch from the first of the lexemes to the last, or `limit` if there are none. -/
def Span.ofLexemes (lexemes : List Lexeme) (limit : Span) : Span :=
  match lexemes.head?, lexemes.getLast? with
  | some first, some last => ⟨first.span.start, last.span.limit⟩
  | _, _ => limit

/-- The gate that the lexemes describe. `limit` is the place just after them. -/
def Gate.ofLexemes (lexemes : List Lexeme) (limit : Span) : Except ReadError Gate := do
  classify (← Expr.ofLexemes lexemes limit) (Span.ofLexemes lexemes limit)

end Netlist
