import Netlist.Token

/-! # Errors

Why reading stopped, as causes: bytes that form no token, tokens that do not follow the grammar,
and well-formed expressions that are no supported gate. `Cause.message` words them, and a
`Diagnostic` is an error in words. -/

namespace Netlist

/-- Bytes that form no token. -/
inductive LexicalError where
  | unexpectedByte (b : UInt8)
  | unknownDirective (word : String)
  | blockComment
  | unclosedBlockComment
  | loneSlash
  | unclosedEscape
  | emptyEscape
  | malformedEscape
  | missingBase (width : String)
  | wideConstant (width : String)
  | unsupportedConstant (digits : String)
  deriving DecidableEq, Repr

namespace LexicalError

def message : LexicalError → String
  | unexpectedByte b => s!"unexpected character '{Ascii.escaped b}'"
  | unknownDirective word => "unsupported directive '`" ++ word ++ "'"
  | blockComment => "block comments are not supported"
  | unclosedBlockComment => "unterminated block comment"
  | loneSlash => "unexpected '/'"
  | unclosedEscape => "unterminated escaped identifier; expected whitespace after name"
  | emptyEscape => "empty escaped identifier"
  | malformedEscape => "escaped identifier is not valid UTF-8"
  | missingBase width => s!"expected base specifier after '{width}''"
  | wideConstant width => s!"only single-bit constants are supported; got width {width}"
  | unsupportedConstant digits =>
    s!"unsupported constant '{digits}'; only single-bit 0 and 1 are accepted"

end LexicalError

/-- What the grammar waits for. -/
inductive Expected where
  | moduleKeyword
  | moduleName
  | portListStart
  | portName
  | portListEnd
  | headerEnd
  | statement
  | declaredName
  | declarationEnd
  | target
  | equals
  | assignEnd
  | expression
  | operand
  | groupEnd
  deriving DecidableEq, Repr

namespace Expected

def text : Expected → String
  | moduleKeyword => "'module' to begin module"
  | moduleName => "module name"
  | portListStart => "'(' after module name"
  | portName => "port name"
  | portListEnd => "')' to close port list"
  | headerEnd => "';' after port list"
  | statement => "'input', 'output', 'wire', 'assign' or 'endmodule'"
  | declaredName => "signal name in declaration"
  | declarationEnd => "';' after declaration"
  | target => "left-hand side of assign"
  | equals => "'=' after assign left-hand side"
  | assignEnd => "';' after assign"
  | expression => "expression after '='"
  | operand => "signal, '~' or '(' in expression"
  | groupEnd => "')' in expression"

/-- The shorter wording where the input ends. -/
def textAtEnd : Expected → String
  | statement => "statement or 'endmodule'"
  | e => e.text

end Expected

/-- Tokens that do not follow the grammar. -/
inductive GrammarError where
  /-- The input ended. -/
  | endOfInput (expected : Expected)
  /-- The tokens of an expression ended. -/
  | endOfExpression (expected : Expected)
  | unexpected (expected : Expected) (got : Token)
  | danglingTilde
  | trailing (got : Token)
  deriving DecidableEq, Repr

/-- The message for input that ended while something was still expected. -/
def endOfInputMessage (expectation : String) : String :=
  "unexpected end of input, " ++ expectation

namespace GrammarError

def message : GrammarError → String
  | endOfInput e => endOfInputMessage ("expected " ++ e.textAtEnd)
  | endOfExpression e => "expected " ++ e.text
  | unexpected e got => "expected " ++ e.text ++ s!", got '{got.text}'"
  | danglingTilde => "'~' must be followed by a signal name"
  | trailing got => s!"unexpected '{got.text}' in expression"

end GrammarError

/-- The deepest nesting of parentheses that any supported gate uses. -/
def maxGroupDepth : Nat := 1

/-- Well-formed expressions that are no supported gate. -/
inductive PatternError where
  | nesting
  | misplacedGroup
  | compoundOperands
  | mixedTriple
  | operandCount (n : Nat)
  | compoundTerm
  | selfPair (name : String)
  | mixedPolarity (name : String)
  | notMajority
  deriving DecidableEq, Repr

namespace PatternError

def message : PatternError → String
  | nesting => s!"parentheses nested more than {maxGroupDepth} level deep match no supported gate"
  | misplacedGroup => "parentheses may only wrap a single literal or a majority AND term"
  | compoundOperands => "two-operand gates must combine single literals"
  | mixedTriple => "three-operand expressions are only accepted as an OR of three AND pairs"
  | operandCount n => s!"expression with {n} operands matches no supported gate"
  | compoundTerm => "majority terms must each be a parenthesized AND of two literals"
  | selfPair name => s!"majority term pairs signal '{name}' with itself"
  | mixedPolarity name =>
    s!"signal '{name}' appears with inconsistent polarity in majority terms"
  | notMajority => "majority terms must be the three pairwise combinations of three signals"

end PatternError

/-- The stages of reading that can refuse their input. -/
inductive ErrorKind where
  | lexical
  | grammar
  | pattern
  deriving DecidableEq, Repr

namespace ErrorKind

def text : ErrorKind → String
  | lexical => "lexical"
  | grammar => "syntax"
  | pattern => "pattern"

end ErrorKind

/-- Why reading stopped. -/
inductive Cause where
  | lexical (e : LexicalError)
  | grammar (e : GrammarError)
  | pattern (e : PatternError)
  deriving DecidableEq, Repr

namespace Cause

def kind : Cause → ErrorKind
  | lexical _ => .lexical
  | grammar _ => .grammar
  | pattern _ => .pattern

def message : Cause → String
  | lexical e => e.message
  | grammar e => e.message
  | pattern e => e.message

end Cause

/-- Why reading stopped, and where. -/
structure ReadError where
  cause : Cause
  span : Span
  deriving DecidableEq, Repr

namespace ReadError

/-- The error for parentheses nested too deep, at the parenthesis that is one too many. -/
def nesting (span : Span) : ReadError := ⟨.pattern .nesting, span⟩

end ReadError

/-! ## Diagnostics -/

/-- An error in words: its kind, its message and its place. -/
structure Diagnostic where
  kind : ErrorKind
  message : String
  span : Span
  deriving DecidableEq, Repr

namespace Diagnostic

/-- The diagnostic for input that ended at `pos`. -/
def endOfInput (expectation : String) (pos : Pos) : Diagnostic :=
  ⟨.grammar, endOfInputMessage expectation, .empty pos⟩

/-- The whole diagnostic in one line. -/
def text (d : Diagnostic) : String :=
  s!"{d.kind.text} error: {d.message} @ {d.span.text}"

end Diagnostic

namespace ReadError

/-- The error in words. -/
def diagnostic (e : ReadError) : Diagnostic := ⟨e.cause.kind, e.cause.message, e.span⟩

end ReadError

end Netlist
