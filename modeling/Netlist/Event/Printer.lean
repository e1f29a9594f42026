import Netlist.Event
import Netlist.Sink.Bounded

/-! # Printing

Each event is written as one line. White space stands around every name, as escaped names need it,
and an inverted signal has its tilde directly before its name. The printer is an observer that
writes these lines to a sink. -/

namespace Netlist

/-- Names with commas between them. -/
def nameList (names : List String) : String := " , ".intercalate (names.map quoteName)

namespace Gate

/-- Two operands with an operator between them. -/
def pairText (op : BinOp) (a b : Signal) : String := a.quoted ++ " " ++ op.text ++ " " ++ b.quoted

/-- One term of a majority. -/
def termText (a b : Signal) : String := "( " ++ pairText .and a b ++ " )"

/-- The right-hand side that describes the gate. -/
def text : Gate → String
  | copy a => a.quoted
  | binary op a b => pairText op a b
  | majority a b c => termText a b ++ " | " ++ termText a c ++ " | " ++ termText b c

end Gate

namespace Event

/-- The line of the event, without its line feed. -/
def text : Event → String
  | header name ports =>
    Keyword.module.text ++ " " ++ quoteName name ++ " ( " ++ nameList ports ++ " ) ;"
  | declare direction names => "  " ++ direction.keyword.text ++ " " ++ nameList names ++ " ;"
  | assign target gate =>
    "  " ++ Keyword.assign.text ++ " " ++ quoteName target ++ " = " ++ gate.text ++ " ;"
  | endmodule => Keyword.endmodule.text
  | comment text => "//" ++ text

end Event

/-- The lines of events. -/
def printed (events : List Event) : String :=
  String.join (events.map fun e => e.text ++ "\n")

/-! ## The printer

The line of each event is written as the event comes. Hooks cannot fail, so the first failure is
kept and nothing is written after it; `Printer.finish` hands it back. -/

/-- The state of a sink and the failure that ended the writing, if any. -/
structure Printer (ω : Type) where
  state : ω
  failure : Option String := none

namespace Printer

variable {ω : Type}

/-- Writes bytes unless a write has failed before. -/
def write (sink : Sink ω) (bytes : List UInt8) (p : Printer ω) : Printer ω :=
  match p.failure with
  | some _ => p
  | none =>
    match sink.writeAll bytes p.state with
    | (.ok (), state) => { p with state }
    | (.error message, state) => ⟨state, some message⟩

/-- Writes a line, and then its line feed. -/
def writeLine (sink : Sink ω) (line : String) (p : Printer ω) : Printer ω :=
  (p.write sink (Utf8.encode line)).write sink (Utf8.encode "\n")

/-- The observer that prints. -/
def observer (sink : Sink ω) : Observer (Printer ω) :=
  .ofFun fun e p => p.writeLine sink e.text

/-- The failure that was kept, or else what flushing the sink gives, and the sink afterwards. -/
def finish (sink : Sink ω) (p : Printer ω) : Except String Unit × ω :=
  match p.failure with
  | some message => (.error message, p.state)
  | none => sink.flush p.state

end Printer

end Netlist
