import Netlist.Event.Counts
import Netlist.Lexeme.Stream

/-! # Reading a module

A source holds one module in structural Verilog: a header, declarations of nets, and assignments
that each describe one gate. It is read lexeme by lexeme (`Progress.move`), and an observer is told
about each construct as soon as it is complete (`Session.run`). The entry points read a source once,
from its start (`read`, `readText`, `readBuffered`). -/

namespace Netlist

/-! ## Progress

How far a module has been read, as the states of a machine that is given one lexeme at a time. Each
state holds what has been gathered for the construct under way, and `Progress.move` says what a
lexeme does to it: it is taken, it is left for the next state, or it is an error. After an error
reading can be taken up again at the start of the stage that failed (`Progress.restart`).

A list of names ends as soon as no comma follows. That lexeme is left, and so is the end of the
input (`Progress.atEnd`). -/

/-- The stages of reading a module. An error leaves the stage as it was. -/
inductive Stage where
  | beforeModule
  | beforeName
  | inPorts
  | beforePortsEnd
  | beforeHeaderEnd
  | inBody
  | finished
  deriving DecidableEq, Repr

/-- How far a module has been read. -/
inductive Progress where
  | beforeModule
  | beforeName
  | beforePorts (name : String)
  | beforePort (name : String) (ports : Array String)
  | afterPort (name : String) (ports : Array String)
  | beforePortsEnd (name : String) (ports : Array String)
  | beforeHeaderEnd (name : String) (ports : Array String)
  | beforeStatement
  | beforeDeclared (direction : Direction) (names : Array String)
  | afterDeclared (direction : Direction) (names : Array String)
  | beforeDeclarationEnd (direction : Direction) (names : Array String)
  | beforeTarget
  | beforeEquals (target : String)
  /-- In the right-hand side of an assignment, inside `depth` open parentheses. -/
  | inExpression (target : String) (depth : Nat) (lexemes : Array Lexeme)
  | finished
  deriving DecidableEq, Repr

/-- What a lexeme does to the progress. -/
inductive Move where
  /-- The lexeme is taken, and may complete the construct that the event reports. -/
  | take (next : Progress) (event : Option Event)
  /-- The lexeme is left to be met again. -/
  | leave (next : Progress)
  | reject (e : ReadError)
  deriving DecidableEq, Repr

namespace Progress

/-- The stage that the progress belongs to. -/
def stage : Progress → Stage
  | beforeModule => .beforeModule
  | beforeName | beforePorts _ => .beforeName
  | beforePort _ _ | afterPort _ _ => .inPorts
  | beforePortsEnd _ _ => .beforePortsEnd
  | beforeHeaderEnd _ _ => .beforeHeaderEnd
  | finished => .finished
  | _ => .inBody

/-- The start of the stage that the progress belongs to. -/
def restart : Progress → Progress
  | beforeModule => beforeModule
  | beforeName | beforePorts _ => beforeName
  | beforePort name _ | afterPort name _ => beforePort name #[]
  | beforePortsEnd name ports => beforePortsEnd name ports
  | beforeHeaderEnd name ports => beforeHeaderEnd name ports
  | finished => finished
  | _ => beforeStatement

@[simp] theorem stage_restart (p : Progress) : p.restart.stage = p.stage := by
  cases p <;> rfl

/-- What the grammar waits for. Nothing is ever offered to a finished module. -/
def expected : Progress → Expected
  | beforeModule => .moduleKeyword
  | beforeName => .moduleName
  | beforePorts _ => .portListStart
  | beforePort _ _ => .portName
  | afterPort _ _ | beforePortsEnd _ _ => .portListEnd
  | beforeHeaderEnd _ _ => .headerEnd
  | beforeStatement | finished => .statement
  | beforeDeclared _ _ => .declaredName
  | afterDeclared _ _ | beforeDeclarationEnd _ _ => .declarationEnd
  | beforeTarget => .target
  | beforeEquals _ => .equals
  | inExpression _ _ _ => .assignEnd

/-- The lexeme is not what the grammar waits for. -/
def refuse (p : Progress) (l : Lexeme) : Move :=
  .reject ⟨.grammar (.unexpected p.expected l.token), l.span⟩

/-- Takes the lexeme if it is the token wanted. -/
def want (p : Progress) (t : Token) (l : Lexeme) (next : Progress)
    (event : Option Event) : Move :=
  if l.token = t then .take next event else p.refuse l

/-- Takes the lexeme if it is a name. -/
def wantName (p : Progress) (l : Lexeme) (next : String → Progress) : Move :=
  match l.token.name? with
  | some name => .take (next name) none
  | none => p.refuse l

/-- The first lexeme of a statement. -/
def startStatement (l : Lexeme) : Move :=
  match l.token with
  | .keyword .input => .take (beforeDeclared .input #[]) none
  | .keyword .output => .take (beforeDeclared .output #[]) none
  | .keyword .wire => .take (beforeDeclared .wire #[]) none
  | .keyword .assign => .take beforeTarget none
  | .keyword .endmodule => .take finished (some .endmodule)
  | _ => beforeStatement.refuse l

/-- A lexeme of a right-hand side, or the semicolon after it, at which the gate is recognised. A
parenthesis that nests too deep is refused at once. -/
def continueExpression (target : String) (depth : Nat) (lexemes : Array Lexeme) (l : Lexeme) :
    Move :=
  match l.token with
  | .punct .semicolon =>
    match Gate.ofLexemes lexemes.toList l.span with
    | .ok gate => .take beforeStatement (some (.assign target gate))
    | .error e => .reject e
  | .punct .openParen =>
    if depth < maxGroupDepth then .take (inExpression target (depth + 1) (lexemes.push l)) none
    else .reject (.nesting l.span)
  | .punct .closeParen => .take (inExpression target (depth - 1) (lexemes.push l)) none
  | .identifier _ | .escaped _ | .constant _
  | .punct .amp | .punct .bar | .punct .caret | .punct .tilde =>
    .take (inExpression target depth (lexemes.push l)) none
  | _ => (inExpression target depth lexemes).refuse l

/-- What a lexeme that is no comment does. -/
def moveSignificant (p : Progress) (l : Lexeme) : Move :=
  match p with
  | beforeModule => p.want (.keyword .module) l beforeName none
  | beforeName => p.wantName l beforePorts
  | beforePorts name => p.want (.punct .openParen) l (beforePort name #[]) none
  | beforePort name ports => p.wantName l fun port => afterPort name (ports.push port)
  | afterPort name ports =>
    if l.token = .punct .comma then .take (beforePort name ports) none
    else .leave (beforePortsEnd name ports)
  | beforePortsEnd name ports => p.want (.punct .closeParen) l (beforeHeaderEnd name ports) none
  | beforeHeaderEnd name ports =>
    p.want (.punct .semicolon) l beforeStatement (some (.header name ports.toList))
  | beforeStatement => startStatement l
  | beforeDeclared direction names =>
    p.wantName l fun name => afterDeclared direction (names.push name)
  | afterDeclared direction names =>
    if l.token = .punct .comma then .take (beforeDeclared direction names) none
    else .leave (beforeDeclarationEnd direction names)
  | beforeDeclarationEnd direction names =>
    p.want (.punct .semicolon) l beforeStatement (some (.declare direction names.toList))
  | beforeTarget => p.wantName l beforeEquals
  | beforeEquals target => p.want (.punct .equals) l (inExpression target 0 #[]) none
  | inExpression target depth lexemes => continueExpression target depth lexemes l
  | finished => p.refuse l

/-- What a lexeme does. A comment is reported wherever it stands and changes nothing else. -/
def move (p : Progress) (l : Lexeme) : Move :=
  match l.token with
  | .comment text => .take p (some (.comment text))
  | _ => p.moveSignificant l

/-- What the end of the input does. It closes a list of names and is an error everywhere else. -/
def atEnd (p : Progress) (pos : Pos) : Except ReadError Progress :=
  match p with
  | afterPort name ports => .ok (beforePortsEnd name ports)
  | afterDeclared direction names => .ok (beforeDeclarationEnd direction names)
  | _ => .error ⟨.grammar (.endOfInput p.expected), .empty pos⟩

/-- How many states the progress can pass through without taking a lexeme. -/
def slack : Progress → Nat
  | afterPort _ _ | afterDeclared _ _ => 1
  | _ => 0

theorem slack_le_one (p : Progress) : p.slack ≤ 1 := by cases p <;> simp [slack]

theorem want_ne_leave (p : Progress) (t : Token) (l : Lexeme) (next : Progress)
    (event : Option Event) (q : Progress) : p.want t l next event ≠ .leave q := by
  unfold want refuse
  split <;> simp

theorem wantName_ne_leave (p : Progress) (l : Lexeme) (next : String → Progress) (q : Progress) :
    p.wantName l next ≠ .leave q := by
  unfold wantName refuse
  split <;> simp

theorem startStatement_ne_leave (l : Lexeme) (q : Progress) : startStatement l ≠ .leave q := by
  unfold startStatement refuse
  split <;> simp

theorem continueExpression_ne_leave (target : String) (depth : Nat) (lexemes : Array Lexeme)
    (l : Lexeme) (q : Progress) : continueExpression target depth lexemes l ≠ .leave q := by
  unfold continueExpression refuse
  split <;> try split
  all_goals simp

/-- A lexeme is left only by the end of a list of names, and the state after it leaves none. -/
theorem slack_of_move_leave {p q : Progress} {l : Lexeme} (h : p.move l = .leave q) :
    q.slack < p.slack := by
  unfold move at h
  split at h
  · simp at h
  · unfold moveSignificant at h
    split at h
    case h_5 =>
      split at h
      · simp at h
      · injection h with h
        simp [← h, slack]
    case h_10 =>
      split at h
      · simp at h
      · injection h with h
        simp [← h, slack]
    all_goals first
      | exact absurd h (want_ne_leave _ _ _ _ _ _)
      | exact absurd h (wantName_ne_leave _ _ _ _)
      | exact absurd h (startStatement_ne_leave _ _)
      | exact absurd h (continueExpression_ne_leave _ _ _ _ _)
      | simp [refuse] at h

theorem slack_of_atEnd {p q : Progress} {pos : Pos} (h : p.atEnd pos = .ok q) :
    q.slack < p.slack := by
  unfold atEnd at h
  split at h
  · injection h with h
    simp [← h, slack]
  · injection h with h
    simp [← h, slack]
  · simp at h

end Progress

/-! ## Sessions

`Session.run` reads until the module is finished or an error comes. After an error the session can
be run again: it goes on with the stage that failed and the lexemes not yet taken. Nothing after the
end of the module is read. -/

/-- A stream and how far the module has been read from it. -/
structure Session where
  stream : LexemeStream
  progress : Progress

/-- How a run ended, the state of its observer, and the session after it. -/
structure Session.Outcome (σ : Type) where
  result : Except ReadError Unit
  state : σ
  session : Session

namespace Session

variable {σ : Type}

/-- A session that starts to read a module from the stream. -/
def ofStream (stream : LexemeStream) : Session := ⟨stream, .beforeModule⟩

/-- A session at the start of a source. -/
def ofSource (options : ScanOptions) (s : Source) : Session := ofStream (.ofSource options s)

/-- Tells the observer about an event, if there is one. -/
def report (o : Observer σ) (event : Option Event) (s : σ) : σ :=
  match event with
  | some e => o.observe e s
  | none => s

/-- Reads until the module is finished or an error comes. -/
def run (o : Observer σ) (session : Session) (s : σ) : Outcome σ :=
  if session.progress = .finished then ⟨.ok (), s, session⟩
  else
    match _hp : session.stream.peek with
    | (.error e, stream) => ⟨.error e, s, ⟨stream, session.progress.restart⟩⟩
    | (.ok none, stream) =>
      match _hm : session.progress.atEnd stream.pos with
      | .ok next => run o ⟨stream, next⟩ s
      | .error e => ⟨.error e, s, ⟨stream, session.progress.restart⟩⟩
    | (.ok (some l), stream) =>
      match _hm : session.progress.move l with
      | .take next event => run o ⟨stream.drop, next⟩ (report o event s)
      | .leave next => run o ⟨stream, next⟩ s
      | .reject e => ⟨.error e, s, ⟨stream.drop, session.progress.restart⟩⟩
termination_by 2 * session.stream.size + session.progress.slack
decreasing_by
  · have h1 := LexemeStream.size_peek_le _hp
    have h2 := Progress.slack_of_atEnd _hm
    omega
  · have h1 := LexemeStream.size_drop_lt _hp
    have h2 := next.slack_le_one
    omega
  · have h1 := LexemeStream.size_peek_le _hp
    have h2 := Progress.slack_of_move_leave _hm
    omega

end Session

/-! ## Entry points -/

variable {σ : Type}

/-- Reads one module and tells the observer about each construct as soon as it is complete. What the
observer was told before an error is not undone. -/
def read (options : ScanOptions) (source : Source) (o : Observer σ) (s : σ) :
    Except ReadError Unit × σ :=
  let outcome := (Session.ofSource options source).run o s
  (outcome.result, outcome.state)

/-- Reads one module from a text, with nothing but blanks skipped. -/
def readText (text : String) (o : Observer σ) (s : σ) : Except ReadError Unit × σ :=
  read .strict (.ofBytes (Utf8.encode text)) o s

/-- Reads one module and tells the observer about it only if all of it could be read. -/
def readBuffered (options : ScanOptions) (source : Source) (o : Observer σ) (s : σ) :
    Except ReadError Unit × σ :=
  match read options source .recorder #[] with
  | (.ok (), events) => (.ok (), o.replay events.toList s)
  | (.error e, _) => (.error e, s)

end Netlist
