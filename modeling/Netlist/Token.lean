import Netlist.Source

/-! # Tokens

The tokens of netlists in structural Verilog and how they are written, lexemes, which are tokens
with the stretch of text they were read from, and the signals that tokens name. -/

namespace Netlist

/-! ## Spellings

How names and single-bit constants are written. A simple name stands for itself; any other name is
written as an escaped name, with a backslash in front and white space after it. -/

/-- The words of the grammar. None of them is a simple name. -/
inductive Keyword where
  | module
  | input
  | output
  | wire
  | assign
  | endmodule
  deriving DecidableEq, Repr

namespace Keyword

def text : Keyword → String
  | module => "module"
  | input => "input"
  | output => "output"
  | wire => "wire"
  | assign => "assign"
  | endmodule => "endmodule"

def all : List Keyword := [module, input, output, wire, assign, endmodule]

/-- The keyword that is written so. -/
def ofText? (s : String) : Option Keyword := all.find? (·.text == s)

@[simp] theorem ofText?_text (k : Keyword) : ofText? k.text = some k := by cases k <;> rfl

/-- No two keywords share a spelling. -/
theorem text_eq_of_ofText? {s : String} {k : Keyword} (h : ofText? s = some k) : k.text = s := by
  simpa using List.find?_some h

end Keyword

/-- The character may start a simple name: an ASCII letter or an underscore. -/
def isNameStart (c : Char) : Bool := c.isAlpha || c == '_'

/-- The character may go on in a simple name: an ASCII letter, a digit or an underscore. -/
def isNamePart (c : Char) : Bool := c.isAlphanum || c == '_'

/-- The name can be written without a backslash, if it is no keyword. -/
def isSimpleName (s : String) : Bool :=
  match s.toList with
  | [] => false
  | c :: rest => isNameStart c && rest.all isNamePart

/-- The name as it is written: as it is if it is simple and no keyword, and else behind a
backslash. White space has to follow. -/
def quoteName (s : String) : String :=
  if isSimpleName s && (Keyword.ofText? s).isNone then s else "\\" ++ s

/-- The spelling of a single-bit constant, which is also the name of the signal it stands for. -/
def constantName (value : Bool) : String := if value then "1'b1" else "1'b0"

/-! ## Tokens and lexemes -/

/-- The marks of one character. -/
inductive Punct where
  | openParen
  | closeParen
  | comma
  | semicolon
  | equals
  | amp
  | bar
  | caret
  | tilde
  deriving DecidableEq, Repr

namespace Punct

def symbol : Punct → Char
  | openParen => '('
  | closeParen => ')'
  | comma => ','
  | semicolon => ';'
  | equals => '='
  | amp => '&'
  | bar => '|'
  | caret => '^'
  | tilde => '~'

def all : List Punct :=
  [openParen, closeParen, comma, semicolon, equals, amp, bar, caret, tilde]

def byte (p : Punct) : UInt8 := UInt8.ofNat p.symbol.toNat

def text (p : Punct) : String := String.singleton p.symbol

/-- The mark that the byte is. -/
def ofByte? (b : UInt8) : Option Punct := all.find? (·.byte == b)

@[simp] theorem ofByte?_byte (p : Punct) : ofByte? p.byte = some p := by cases p <;> decide

theorem byte_of_ofByte? {b : UInt8} {p : Punct} (h : ofByte? b = some p) : p.byte = b := by
  simpa using List.find?_some h

end Punct

/-- A token. An escaped name is kept without its backslash, a comment without its slashes. -/
inductive Token where
  | identifier (name : String)
  | escaped (name : String)
  | keyword (k : Keyword)
  | constant (value : Bool)
  | punct (p : Punct)
  | comment (text : String)
  deriving DecidableEq, Repr

namespace Token

/-- The token as it is written. An escaped name ends with a space, a comment with its line. -/
def text : Token → String
  | identifier name => name
  | escaped name => "\\" ++ name ++ " "
  | keyword k => k.text
  | constant value => constantName value
  | punct p => p.text
  | comment text => "//" ++ text ++ "\n"

/-- The name that a plain or an escaped name gives. -/
def name? : Token → Option String
  | identifier name => some name
  | escaped name => some name
  | _ => none

/-- The name of the signal that the token stands for in an expression: a name its own, a constant
its spelling. -/
def signalName? : Token → Option String
  | constant value => some (constantName value)
  | t => t.name?

end Token

/-- A token and where it stands. -/
structure Lexeme where
  token : Token
  span : Span
  deriving DecidableEq, Repr

/-! ## Signals -/

/-- An operand of a gate: the name of a net, or the spelling of a constant, and whether it is
inverted. -/
structure Signal where
  name : String
  negated : Bool
  deriving DecidableEq, Repr

namespace Signal

/-- The signal itself, not inverted. -/
def positive (name : String) : Signal := ⟨name, false⟩

/-- A written name with the tilde of an inverted signal. -/
def mark (negated : Bool) (written : String) : String :=
  if negated then "~" ++ written else written

/-- The name, behind a tilde if the signal is inverted. -/
def text (s : Signal) : String := mark s.negated s.name

/-- The name is the spelling of a constant. -/
def isConstant (s : Signal) : Bool :=
  s.name == constantName false || s.name == constantName true

/-- The signal as an operand is written: a constant as it is, a net by its quoted name. -/
def quoted (s : Signal) : String :=
  mark s.negated (if s.isConstant then s.name else quoteName s.name)

end Signal

end Netlist
