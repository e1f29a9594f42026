import Netlist.Proofs.Course
import Netlist.Proofs.Reading

/-! # The grammar of modules

A module is a header, statements and `endmodule`, with comments anywhere before its end. Each header
and each statement is a construct: its last lexeme, a semicolon, completes the event that the
construct stands for (`Construct.IsHeader`, `Construct.IsStatement`).

Main statement: a source of bytes is read as a module exactly if its lexemes start with one, and
the events are then those of the module, each at the lexeme that completes it
(`run_eq_ok_iff_isModule`). -/

namespace Netlist

/-- Names with commas between them. -/
inductive NameList : List Lexeme → List String → Prop
  | single {l : Lexeme} {name : String} : l.token.name? = some name → NameList [l] [name]
  | cons {l comma : Lexeme} {name : String} {ls : List Lexeme} {names : List String} :
      l.token.name? = some name → comma.token = .punct .comma → NameList ls names →
        NameList (l :: comma :: ls) (name :: names)

theorem NameList.snoc {ls : List Lexeme} {names : List String} (h : NameList ls names)
    {l comma : Lexeme} {name : String} (hc : comma.token = .punct .comma)
    (hl : l.token.name? = some name) : NameList (ls ++ [comma, l]) (names ++ [name]) := by
  induction h with
  | single hn => exact .cons hn hc (.single hl)
  | cons hn hc' _ ih => exact .cons hn hc' ih

/-- A part of a module that completes an event. -/
structure Construct where
  /-- The lexemes before the one that completes the event. -/
  before : List Lexeme
  last : Lexeme
  event : Event

namespace Construct

/-- The lexemes, the last of which completes the event. -/
def taken (c : Construct) : List Taken :=
  c.before.map (fun l => (l, none)) ++ [(c.last, some c.event)]

@[simp] theorem events_taken (c : Construct) : Taken.events c.taken = [c.event] := by
  have hnone : Taken.events (c.before.map fun l => (l, none)) = [] := by
    simp [Taken.events]
  rw [taken, Taken.events_append, hnone]
  rfl

@[simp] theorem map_fst_taken (c : Construct) :
    c.taken.map Prod.fst = c.before ++ [c.last] := by
  simp [taken, Function.comp_def]

theorem events_flatMap_taken (constructs : List Construct) :
    Taken.events (constructs.flatMap taken) = constructs.map event := by
  induction constructs with
  | nil => rfl
  | cons c constructs ih => simp [ih]

/-- `module`, its name and an open parenthesis. -/
inductive HeaderStart : List Lexeme → String → Prop
  | intro {l n paren : Lexeme} {name : String} : l.token = .keyword .module →
      n.token.name? = some name → paren.token = .punct .openParen → HeaderStart [l, n, paren] name

/-- `assign`, a name and an equals sign. -/
inductive AssignStart : List Lexeme → String → Prop
  | intro {l n equals : Lexeme} {target : String} : l.token = .keyword .assign →
      n.token.name? = some target → equals.token = .punct .equals →
        AssignStart [l, n, equals] target

/-- The construct is a header. -/
inductive IsHeader : Construct → Prop
  | intro {start list : List Lexeme} {close last : Lexeme} {name : String} {ports : List String} :
      HeaderStart start name → NameList list ports → close.token = .punct .closeParen →
        last.token = .punct .semicolon →
          IsHeader ⟨start ++ list ++ [close], last, .header name ports⟩

/-- The construct is a declaration, or an assignment of a gate. -/
inductive IsStatement : Construct → Prop
  | declaration {first last : Lexeme} {list : List Lexeme} {names : List String}
      (direction : Direction) :
      first.token = .keyword direction.keyword → NameList list names →
        last.token = .punct .semicolon →
          IsStatement ⟨first :: list, last, .declare direction names⟩
  | assignment {start rhs : List Lexeme} {last : Lexeme} {target : String} {gate : Gate} :
      AssignStart start target → (∀ l ∈ rhs, l.token ≠ .punct .semicolon) →
        Gate.ofLexemes rhs last.span = .ok gate → last.token = .punct .semicolon →
          IsStatement ⟨start ++ rhs, last, .assign target gate⟩

end Construct

/-- The lexemes are those of a module, up to its `endmodule`, and each is given with the event that
it completes: a comment with its own, the last of a construct with that of the construct. -/
structure IsModule (ts : List Taken) : Prop where
  comments : ∀ t ∈ ts, ∀ text, t.1.token = .comment text → t.2 = some (.comment text)
  significant : ∃ (header : Construct) (statements : List Construct) (body : List Taken)
    (last : Lexeme), ts = body ++ [(last, some .endmodule)] ∧
    last.token = .keyword .endmodule ∧ Construct.IsHeader header ∧
    (∀ c ∈ statements, Construct.IsStatement c) ∧
    body.filter (·.1.token.isSignificant) = header.taken ++ statements.flatMap Construct.taken

namespace Progress

open Construct

/-! ### What has been read of a construct -/

/-- The lexemes of a header that lead to the progress. -/
inductive HeaderPart : Progress → List Lexeme → Prop
  | nil : HeaderPart beforeModule []
  | module {l : Lexeme} : l.token = .keyword .module → HeaderPart beforeName [l]
  | name {l n : Lexeme} {name : String} : l.token = .keyword .module →
      n.token.name? = some name → HeaderPart (beforePorts name) [l, n]
  | start {start : List Lexeme} {name : String} :
      HeaderStart start name → HeaderPart (beforePort name #[]) start
  | comma {start list : List Lexeme} {comma : Lexeme} {name : String} {ports : Array String} :
      HeaderStart start name → NameList list ports.toList → comma.token = .punct .comma →
        HeaderPart (beforePort name ports) (start ++ list ++ [comma])
  | port {start list : List Lexeme} {name : String} {ports : Array String} :
      HeaderStart start name → NameList list ports.toList →
        HeaderPart (afterPort name ports) (start ++ list)
  | close {start list : List Lexeme} {close : Lexeme} {name : String} {ports : Array String} :
      HeaderStart start name → NameList list ports.toList → close.token = .punct .closeParen →
        HeaderPart (beforeHeaderEnd name ports) (start ++ list ++ [close])

/-- The lexemes of a statement that lead to the progress. -/
inductive StatementPart : Progress → List Lexeme → Prop
  | nil : StatementPart beforeStatement []
  | direction {l : Lexeme} (direction : Direction) : l.token = .keyword direction.keyword →
      StatementPart (beforeDeclared direction #[]) [l]
  | comma {l comma : Lexeme} {list : List Lexeme} {direction : Direction} {names : Array String} :
      l.token = .keyword direction.keyword → NameList list names.toList →
        comma.token = .punct .comma →
          StatementPart (beforeDeclared direction names) (l :: list ++ [comma])
  | declared {l : Lexeme} {list : List Lexeme} {direction : Direction} {names : Array String} :
      l.token = .keyword direction.keyword → NameList list names.toList →
        StatementPart (afterDeclared direction names) (l :: list)
  | assign {l : Lexeme} : l.token = .keyword .assign → StatementPart beforeTarget [l]
  | target {l n : Lexeme} {target : String} : l.token = .keyword .assign →
      n.token.name? = some target → StatementPart (beforeEquals target) [l, n]
  | expression {start : List Lexeme} {target : String} {depth : Nat} {rhs : Array Lexeme} :
      AssignStart start target → (∀ l ∈ rhs.toList, l.token ≠ .punct .semicolon) →
        StatementPart (inExpression target depth rhs) (start ++ rhs.toList)

variable {p q : Progress} {l : Lexeme} {event : Option Event} {ls : List Lexeme}

theorem HeaderPart.step (h : HeaderPart p ls) (hs : Step p l event q)
    (hl : l.token.isSignificant = true) :
    event = none ∧ HeaderPart q (ls ++ [l]) ∨
      ∃ e, event = some e ∧ q = beforeStatement ∧ IsHeader ⟨ls, l, e⟩ := by
  cases hs with
  | comment ht => simp [ht, Token.isSignificant] at hl
  | module ht =>
    cases h
    exact .inl ⟨rfl, .module ht⟩
  | name hn =>
    cases h with
    | module ht => exact .inl ⟨rfl, .name ht hn⟩
  | portsStart ho =>
    cases h with
    | name ht hn => exact .inl ⟨rfl, .start (.intro ht hn ho)⟩
  | port hn =>
    refine .inl ⟨rfl, ?_⟩
    cases h with
    | start hst => exact .port hst (.single hn)
    | comma hst hlist hc =>
      have hlist' := hlist.snoc hc hn
      rw [← Array.toList_push] at hlist'
      simpa using HeaderPart.port hst hlist'
  | portComma hc =>
    cases h with
    | port hst hlist => exact .inl ⟨rfl, .comma hst hlist hc⟩
  | portsEnd hc =>
    cases h with
    | port hst hlist => exact .inl ⟨rfl, .close hst hlist hc⟩
  | headerEnd he =>
    cases h with
    | close hst hlist hc => exact .inr ⟨_, rfl, rfl, .intro hst hlist hc he⟩
  | _ => cases h

theorem StatementPart.step (h : StatementPart p ls) (hs : Step p l event q)
    (hl : l.token.isSignificant = true) (hq : q ≠ finished) :
    event = none ∧ StatementPart q (ls ++ [l]) ∨
      ∃ e, event = some e ∧ q = beforeStatement ∧ IsStatement ⟨ls, l, e⟩ := by
  -- inside a right-hand side any lexeme but a semicolon is gathered
  have gathered {start : List Lexeme} {target : String} {depth : Nat} {rhs : Array Lexeme}
      (hst : AssignStart start target) (hr : ∀ l ∈ rhs.toList, l.token ≠ .punct .semicolon)
      (hl : l.token ≠ .punct .semicolon) :
      StatementPart (inExpression target depth (rhs.push l)) (start ++ rhs.toList ++ [l]) := by
    rw [List.append_assoc, ← Array.toList_push]
    refine .expression hst fun m hm => ?_
    rw [Array.toList_push, List.mem_append, List.mem_singleton] at hm
    rcases hm with hm | rfl
    · exact hr m hm
    · exact hl
  cases hs with
  | comment ht => simp [ht, Token.isSignificant] at hl
  | declaration direction ht =>
    cases h with
    | nil => exact .inl ⟨rfl, .direction direction ht⟩
  | declared hn =>
    refine .inl ⟨rfl, ?_⟩
    cases h with
    | direction _ ht => exact .declared ht (.single hn)
    | comma ht hlist hc =>
      have hlist' := hlist.snoc hc hn
      rw [← Array.toList_push] at hlist'
      simpa using StatementPart.declared ht hlist'
  | declaredComma hc =>
    cases h with
    | declared ht hlist => exact .inl ⟨rfl, .comma ht hlist hc⟩
  | declarationEnd he =>
    cases h with
    | declared ht hlist => exact .inr ⟨_, rfl, rfl, .declaration _ ht hlist he⟩
  | assignment ht =>
    cases h
    exact .inl ⟨rfl, .assign ht⟩
  | target hn =>
    cases h with
    | assign ht => exact .inl ⟨rfl, .target ht hn⟩
  | equals he =>
    cases h with
    | target ht hn => exact .inl ⟨rfl, .expression (.intro ht hn he) (by simp)⟩
  | openParen ht =>
    cases h with
    | expression hst hr => exact .inl ⟨rfl, gathered hst hr (by simp [ht])⟩
  | closeParen ht =>
    cases h with
    | expression hst hr => exact .inl ⟨rfl, gathered hst hr (by simp [ht])⟩
  | flat ht =>
    cases h with
    | expression hst hr =>
      exact .inl ⟨rfl, gathered hst hr fun he => by simp [he, Token.isFlat] at ht⟩
  | gate ht hg =>
    cases h with
    | expression hst hr => exact .inr ⟨_, rfl, rfl, .assignment hst hr hg ht⟩
  | endmodule => exact absurd rfl hq
  | _ => cases h

variable {ts : List Taken}

/-- Steps through statements, the first of which is under way, are those of whole statements. -/
theorem StatementPart.steps (h : StatementPart p ls) (hs : Steps p ts beforeStatement)
    (hsig : ∀ t ∈ ts, t.1.token.isSignificant = true) :
    ∃ statements : List Construct, (∀ c ∈ statements, IsStatement c) ∧
      ls.map (fun l => (l, none)) ++ ts = statements.flatMap Construct.taken := by
  generalize hr : beforeStatement = r at hs
  induction hs generalizing ls with
  | nil =>
    subst hr
    cases h
    exact ⟨[], by simp, rfl⟩
  | @cons p q r l event ts hstep hs ih =>
    subst hr
    obtain ⟨hl, hsig'⟩ := List.forall_mem_cons.mp hsig
    have hq := hs.ne_finished (by simp)
    rcases h.step hstep hl hq with ⟨rfl, h⟩ | ⟨e, rfl, rfl, hc⟩
    · obtain ⟨statements, hst, he⟩ := ih h hsig' rfl
      exact ⟨statements, hst, by simpa using he⟩
    · obtain ⟨statements, hst, he⟩ := ih .nil hsig' rfl
      refine ⟨⟨ls, l, e⟩ :: statements, List.forall_mem_cons.mpr ⟨hc, hst⟩, ?_⟩
      rw [List.flatMap_cons, ← he]
      simp [Construct.taken]

theorem HeaderPart.steps (h : HeaderPart p ls) (hs : Steps p ts beforeStatement)
    (hsig : ∀ t ∈ ts, t.1.token.isSignificant = true) :
    ∃ (header : Construct) (statements : List Construct), IsHeader header ∧
      (∀ c ∈ statements, IsStatement c) ∧
        ls.map (fun l => (l, none)) ++ ts =
          header.taken ++ statements.flatMap Construct.taken := by
  generalize hr : beforeStatement = r at hs
  induction hs generalizing ls with
  | nil =>
    subst hr
    cases h
  | @cons p q r l event ts hstep hs ih =>
    subst hr
    obtain ⟨hl, hsig'⟩ := List.forall_mem_cons.mp hsig
    rcases h.step hstep hl with ⟨rfl, h⟩ | ⟨e, rfl, rfl, hc⟩
    · obtain ⟨header, statements, hh, hst, he⟩ := ih h hsig' rfl
      exact ⟨header, statements, hh, hst, by simpa using he⟩
    · obtain ⟨statements, hst, he⟩ := StatementPart.nil.steps hs hsig'
      refine ⟨⟨ls, l, e⟩, statements, hc, hst, ?_⟩
      rw [← he]
      simp [Construct.taken]

/-! ### Steps through whole constructs -/

/-- A list of names is gathered in two states, one before each name and one after it. -/
theorem steps_names {list : List Lexeme} {names : List String} (h : NameList list names)
    {before after : Array String → Progress}
    (hname : ∀ {l : Lexeme} {name : String} {gathered : Array String},
      l.token.name? = some name → Step (before gathered) l none (after (gathered.push name)))
    (hcomma : ∀ {l : Lexeme} {gathered : Array String},
      l.token = .punct .comma → Step (after gathered) l none (before gathered))
    (gathered : Array String) :
    Steps (before gathered) (list.map (fun l => (l, none)))
      (after (gathered ++ names.toArray)) := by
  induction h generalizing gathered with
  | single hn => simpa using Steps.single (hname hn)
  | cons hn hc _ ih => simpa using Steps.cons (hname hn) (.cons (hcomma hc) (ih _))

/-- A right-hand side that is read as an expression is gathered to its end. The depth of the
parentheses is the number of open groups. -/
theorem steps_of_reading {outer : List Expr.Pending} {pending : Expr.Pending}
    {last : Option Expr} {tokens : List Token} {e : Expr}
    (h : Expr.Reading outer pending last tokens e) (target : String)
    (hls : ls.map Lexeme.token = tokens) (gathered : Array Lexeme) :
    Steps (inExpression target outer.length gathered) (ls.map (fun l => (l, none)))
      (inExpression target 0 (gathered ++ ls.toArray)) := by
  induction h generalizing ls gathered with
  | inverted hn _ ih =>
    obtain ⟨l, ls', rfl, hl, hls'⟩ := List.map_eq_cons_iff.mp hls
    obtain ⟨m, ms, rfl, rfl, hms⟩ := List.map_eq_cons_iff.mp hls'
    have hflat : l.token.isFlat = true := by rw [hl]; rfl
    simpa using Steps.cons (.flat hflat)
      (.cons (.flat (Token.isFlat_of_signalName? hn)) (ih hms _))
  | plain hn _ ih =>
    obtain ⟨m, ms, rfl, rfl, hms⟩ := List.map_eq_cons_iff.mp hls
    simpa using Steps.cons (.flat (Token.isFlat_of_signalName? hn)) (ih hms _)
  | openGroup hd _ ih =>
    obtain ⟨m, ms, rfl, hm, hms⟩ := List.map_eq_cons_iff.mp hls
    simpa using Steps.cons (.openParen hm hd) (ih hms _)
  | operator ho _ ih =>
    obtain ⟨m, ms, rfl, rfl, hms⟩ := List.map_eq_cons_iff.mp hls
    have hflat : m.token.isFlat = true := by
      rw [BinOp.eq_of_ofToken? ho]
      exact BinOp.isFlat_punct _
    simpa using Steps.cons (.flat hflat) (ih hms _)
  | closeGroup _ ih =>
    obtain ⟨m, ms, rfl, hm, hms⟩ := List.map_eq_cons_iff.mp hls
    refine .cons (.closeParen hm) ?_
    simpa using ih hms (gathered.push m)
  | finish =>
    obtain rfl := List.map_eq_nil_iff.mp hls
    simpa using Steps.nil _

end Progress

namespace Construct

open Progress

theorem HeaderStart.steps {start : List Lexeme} {name : String} (h : HeaderStart start name) :
    Steps beforeModule (start.map (fun l => (l, none))) (beforePort name #[]) := by
  cases h with
  | intro ht hn ho => exact .cons (.module ht) (.cons (.name hn) (.single (.portsStart ho)))

theorem IsHeader.steps {c : Construct} (h : IsHeader c) :
    Steps beforeModule c.taken beforeStatement := by
  cases h with
  | intro hst hlist hc he =>
    have hl := (hst.steps.append (steps_names hlist .port .portComma #[])).append
      (.cons (.portsEnd hc) (.single (.headerEnd he)))
    simpa [taken] using hl

theorem AssignStart.steps {start : List Lexeme} {target : String} (h : AssignStart start target) :
    Steps beforeStatement (start.map (fun l => (l, none))) (inExpression target 0 #[]) := by
  cases h with
  | intro ht hn he => exact .cons (.assignment ht) (.cons (.target hn) (.single (.equals he)))

theorem IsStatement.steps {c : Construct} (h : IsStatement c) :
    Steps beforeStatement c.taken beforeStatement := by
  cases h with
  | declaration direction ht hlist he =>
    have hl := Steps.cons (.declaration direction ht)
      ((steps_names hlist .declared .declaredComma #[]).append (.single (.declarationEnd he)))
    simpa [taken] using hl
  | assignment hst _ hg he =>
    obtain ⟨e, hr, -⟩ := Gate.ofLexemes_eq_ok_iff.mp hg
    have hl := (hst.steps.append (steps_of_reading hr _ rfl #[])).append
      (.single (.gate he (by simpa using hg)))
    simpa [taken] using hl

theorem steps_statements {statements : List Construct} (h : ∀ c ∈ statements, IsStatement c) :
    Steps beforeStatement (statements.flatMap taken) beforeStatement := by
  induction statements with
  | nil => exact .nil _
  | cons c statements ih =>
    obtain ⟨hc, h⟩ := List.forall_mem_cons.mp h
    exact hc.steps.append (ih h)

end Construct

/-! ### Modules -/

/-- Comments can stand between any two steps. -/
theorem Progress.steps_iff_filter {p q : Progress} {ts : List Taken} :
    Progress.Steps p ts q ↔ Progress.Steps p (ts.filter (·.1.token.isSignificant)) q ∧
      ∀ t ∈ ts, ∀ text, t.1.token = .comment text → t.2 = some (.comment text) := by
  induction ts generalizing p with
  | nil => simp
  | cons t ts ih =>
    obtain ⟨l, event⟩ := t
    cases hl : l.token.isSignificant with
    | true =>
      have hne : ∀ text, l.token ≠ .comment text := fun text ht => by
        simp [ht, Token.isSignificant] at hl
      rw [List.filter_cons_of_pos (by exact hl), List.forall_mem_cons]
      constructor
      · rintro (_ | ⟨hs, h⟩)
        obtain ⟨h1, h2⟩ := ih.mp h
        exact ⟨.cons hs h1, fun text ht => absurd ht (hne text), h2⟩
      · rintro ⟨_ | ⟨hs, h1⟩, -, h2⟩
        exact .cons hs (ih.mpr ⟨h1, h2⟩)
    | false =>
      obtain ⟨text, ht⟩ := Token.eq_comment_of_isSignificant hl
      rw [List.filter_cons_of_neg (by simp [hl]), List.forall_mem_cons]
      constructor
      · rintro (_ | ⟨hs, h⟩)
        obtain ⟨rfl, rfl⟩ := hs.of_comment ht
        obtain ⟨h1, h2⟩ := ih.mp h
        exact ⟨h1, by simp [ht], h2⟩
      · rintro ⟨h1, hc, h2⟩
        obtain rfl : event = some (.comment text) := hc text ht
        exact .cons (.comment ht) (ih.mpr ⟨h1, h2⟩)

/-- **The steps from the start to the end of a module are those of its grammar.** -/
theorem isModule_iff_steps {ts : List Taken} : IsModule ts ↔
    ∃ body last, ts = body ++ [(last, some .endmodule)] ∧ last.token = .keyword .endmodule ∧
      Progress.Steps .beforeModule body .beforeStatement := by
  constructor
  · rintro ⟨hcomments, header, statements, body, last, rfl, hlast, hheader, hstatements, hf⟩
    refine ⟨body, last, rfl, hlast, Progress.steps_iff_filter.mpr ⟨?_, fun t ht => ?_⟩⟩
    · rw [hf]
      exact hheader.steps.append (Construct.steps_statements hstatements)
    · exact hcomments t (List.mem_append_left _ ht)
  · rintro ⟨body, last, rfl, hlast, hs⟩
    obtain ⟨hf, hcomments⟩ := Progress.steps_iff_filter.mp hs
    obtain ⟨header, statements, hheader, hstatements, he⟩ :=
      Progress.HeaderPart.nil.steps hf (by simp)
    refine ⟨fun t ht text htext => ?_, header, statements, body, last, rfl, hlast, hheader,
      hstatements, he⟩
    rcases List.mem_append.mp ht with ht | ht
    · exact hcomments t ht text htext
    · rw [List.mem_singleton.mp ht, hlast] at htext
      cases htext

theorem isModule_of_course {options : ScanOptions} {c : Cursor}
    (h : (Session.course options c .beforeModule).result = .ok ()) :
    IsModule (Session.course options c .beforeModule).taken := by
  obtain ⟨body, last, ht, hlast, hs⟩ := Session.steps_of_course (by simp) h
  exact isModule_iff_steps.mpr ⟨body, last, ht, hlast, hs⟩

theorem course_of_isModule {options : ScanOptions} {c d : Cursor} {ts : List Taken}
    (h : IsModule ts) (hs : c.Scans options (ts.map Prod.fst) d) :
    Session.course options c .beforeModule = ⟨ts, .ok (), d, .finished⟩ := by
  obtain ⟨body, last, rfl, hlast, hsteps⟩ := isModule_iff_steps.mp h
  exact Session.course_of_steps hs hlast hsteps

/-- **The sources that are read are those that start with a module**, and the events are those of
the module, each told when the lexeme that completes it is taken. -/
theorem run_eq_ok_iff_isModule (options : ScanOptions) (bytes : List UInt8)
    (events : List Event) :
    (((Session.ofSource options (.ofBytes bytes)).run .recorder #[]).result = .ok () ∧
      ((Session.ofSource options (.ofBytes bytes)).run .recorder #[]).state = events.toArray) ↔
    ∃ ts : List Taken,
      (LexemeStream.ofSource options (.ofBytes bytes)).results ts.length =
        ts.map (fun t => .ok (some t.1)) ∧ IsModule ts ∧ Taken.events ts = events := by
  have results (ts : List Taken) : ts.map (fun t => (.ok (some t.1) : Except ReadError _)) =
      (ts.map Prod.fst).map (.ok ∘ some) := by
    rw [List.map_map]
    rfl
  simp only [Session.ofSource, Session.ofStream, LexemeStream.ofSource, Session.run_eq_course,
    Observer.replay_recorder, Array.empty_append, results]
  constructor
  · rintro ⟨hr, he⟩
    refine ⟨_, ?_, isModule_of_course hr, List.toArray_inj he⟩
    have hs := Session.scans_of_course (Cursor.isPlain_ofBytes bytes) hr
    simpa using LexemeStream.results_of_scans hs
  · rintro ⟨ts, hts, hm, rfl⟩
    rw [← List.length_map Prod.fst] at hts
    obtain ⟨d, hs⟩ := LexemeStream.scans_of_results hts
    rw [course_of_isModule hm hs]
    exact ⟨rfl, rfl⟩

end Netlist
