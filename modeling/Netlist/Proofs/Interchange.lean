import Netlist.Proofs.Course
import Netlist.Proofs.Shadow

/-! # Plain and escaped names

A plain name and the same name escaped do the same wherever a lexeme can stand. When all names are
escaped and all places are forgotten (`Lexeme.bare`), expressions, gates and the progress of a
session are what they were before, but for the places and the spellings in errors
(`Progress.settle_bare`). Main statement: runs that scan lexemes which differ in this way only end
in the same way, with the same events (`Session.course_echoes`). -/

namespace Netlist

/-! ### Bare lexemes and errors -/

/-- The token, with a plain name escaped. -/
def Token.escape : Token → Token
  | identifier name => escaped name
  | t => t

namespace Token

@[simp] theorem escape_punct (p : Punct) : (punct p).escape = punct p := rfl

@[simp] theorem name?_escape (t : Token) : t.escape.name? = t.name? := by cases t <;> rfl

@[simp] theorem signalName?_escape (t : Token) : t.escape.signalName? = t.signalName? := by
  cases t <;> rfl

@[simp] theorem escape_eq_punct_iff {t : Token} {p : Punct} :
    t.escape = .punct p ↔ t = .punct p := by cases t <;> simp [escape]

@[simp] theorem escape_eq_keyword_iff {t : Token} {k : Keyword} :
    t.escape = .keyword k ↔ t = .keyword k := by cases t <;> simp [escape]

@[simp] theorem ofToken?_escape (t : Token) : BinOp.ofToken? t.escape = BinOp.ofToken? t := by
  cases t <;> rfl

end Token

/-- No place in a text. -/
def Span.nowhere : Span := .empty .start

/-- The lexeme with a plain name escaped, and without its place. -/
def Lexeme.bare (l : Lexeme) : Lexeme := ⟨l.token.escape, .nowhere⟩

def GrammarError.bare : GrammarError → GrammarError
  | unexpected expected got => unexpected expected got.escape
  | trailing got => trailing got.escape
  | e => e

def Cause.bare : Cause → Cause
  | grammar e => grammar e.bare
  | c => c

/-- The error with plain names escaped, and without its place. -/
def ReadError.bare (e : ReadError) : ReadError := ⟨e.cause.bare, .nowhere⟩

theorem ReadError.kind_bare (e : ReadError) : e.bare.cause.kind = e.cause.kind := by
  obtain ⟨_ | _ | _, _⟩ := e <;> rfl

theorem ReadError.kind_eq_of_bare_eq {e e' : ReadError} (h : e'.bare = e.bare) :
    e'.cause.kind = e.cause.kind := by
  rw [← kind_bare, h, kind_bare]

/-! ### Expressions and gates -/

namespace Expr

@[simp] theorem mapError_refuse {α : Type} (e : GrammarError) (span : Span) :
    (refuse e span : Except ReadError α).mapError ReadError.bare = refuse e.bare .nowhere := rfl

theorem operandNext_bare (limit : Span) :
    (∀ outer pending ls, operandNext .nowhere outer pending (ls.map Lexeme.bare) =
      (operandNext limit outer pending ls).mapError ReadError.bare) ∧
    ∀ outer pending last ls, operatorNext .nowhere outer pending last (ls.map Lexeme.bare) =
      (operatorNext limit outer pending last ls).mapError ReadError.bare := by
  apply operandNext.mutual_induct
    (fun outer pending ls => operandNext .nowhere outer pending (ls.map Lexeme.bare) =
      (operandNext limit outer pending ls).mapError ReadError.bare)
    (fun outer pending last ls => operatorNext .nowhere outer pending last (ls.map Lexeme.bare) =
      (operatorNext limit outer pending last ls).mapError ReadError.bare)
  -- an operand is awaited
  case case1 => intro outer pending; rfl
  case case2 => intro outer pending span; rfl
  case case3 =>
    intro outer pending span t span' rest name hn ih
    simpa [operandNext, Lexeme.bare, hn] using ih
  case case4 =>
    intro outer pending span t span' rest hn
    simp [operandNext, Lexeme.bare, hn, GrammarError.bare]
  case case5 =>
    intro outer pending span rest hd ih
    simpa [operandNext, Lexeme.bare, hd] using ih
  case case6 =>
    intro outer pending span rest hd
    simp only [List.map_cons, Lexeme.bare, Token.escape_punct, operandNext, if_neg hd]
    rfl
  case case7 =>
    intro outer pending t span rest h1 h2 name hn ih
    have htilde : t.escape ≠ .punct .tilde := by simpa using h1
    have hopen : t.escape ≠ .punct .openParen := by simpa using h2
    simpa [operandNext, Lexeme.bare, hn] using ih
  case case8 =>
    intro outer pending t span rest h1 h2 hn
    have htilde : t.escape ≠ .punct .tilde := by simpa using h1
    have hopen : t.escape ≠ .punct .openParen := by simpa using h2
    simp [operandNext, Lexeme.bare, hn, GrammarError.bare]
  -- what follows an operand is awaited
  case case9 => intro pending last; rfl
  case case10 => intro pending last around outer; rfl
  case case11 =>
    intro outer pending last t span rest op ho ih
    simpa [operatorNext, Lexeme.bare, ho] using ih
  case case12 =>
    intro pending last t span rest ho
    simp [operatorNext, Lexeme.bare, ho, GrammarError.bare]
  case case13 =>
    intro pending last span rest around outer ho ih
    simpa [operatorNext, Lexeme.bare, ho] using ih
  case case14 =>
    intro pending last t span rest ho around outer ht
    simp [operatorNext, Lexeme.bare, ho, ht, GrammarError.bare]

/-- **An expression is read in the same way** from bare lexemes. -/
theorem ofLexemes_bare (ls : List Lexeme) (limit : Span) :
    ofLexemes (ls.map Lexeme.bare) .nowhere = (ofLexemes ls limit).mapError ReadError.bare := by
  cases ls with
  | nil => rfl
  | cons l ls => exact (operandNext_bare limit).1 [] [] (l :: ls)

end Expr

theorem Span.ofLexemes_bare (ls : List Lexeme) :
    ofLexemes (ls.map Lexeme.bare) .nowhere = .nowhere := by
  rw [ofLexemes, List.head?_map, List.getLast?_map]
  cases ls.head? with
  | none => rfl
  | some first => cases ls.getLast? <;> rfl

theorem Gate.ofLexemes_bare (ls : List Lexeme) (limit : Span) :
    ofLexemes (ls.map Lexeme.bare) .nowhere = (ofLexemes ls limit).mapError ReadError.bare := by
  rw [ofLexemes, ofLexemes, Expr.ofLexemes_bare ls limit, Span.ofLexemes_bare]
  rcases Expr.ofLexemes ls limit with err | e
  · rfl
  · change classify e .nowhere = (classify e _).mapError ReadError.bare
    unfold classify
    cases ofExpr e <;> rfl

/-! ### Progress -/

/-- The progress with bare lexemes. -/
def Progress.bare : Progress → Progress
  | inExpression target depth lexemes => inExpression target depth (lexemes.map Lexeme.bare)
  | p => p

def Move.bare : Move → Move
  | take next event => take next.bare event
  | leave next => leave next.bare
  | reject e => reject e.bare

namespace Progress

theorem bare_restart (p : Progress) : p.restart.bare = p.restart := by cases p <;> rfl

theorem restart_bare (p : Progress) : p.bare.restart = p.restart := by cases p <;> rfl

theorem expected_bare (p : Progress) : p.bare.expected = p.expected := by cases p <;> rfl

theorem eq_of_bare_eq {p q : Progress} (h : q.bare = p) (hp : p.restart = p) : q = p := by
  subst h
  cases q with
  | inExpression => cases hp
  | _ => rfl

theorem refuse_bare (p : Progress) (l : Lexeme) : p.bare.refuse l.bare = (p.refuse l).bare := by
  simp only [refuse, expected_bare]
  rfl

theorem want_bare (p : Progress) {t : Token} (ht : ∀ t' : Token, t'.escape = t ↔ t' = t)
    (l : Lexeme) (next : Progress) (event : Option Event) :
    p.bare.want t l.bare next.bare event = (p.want t l next event).bare := by
  unfold want
  rw [refuse_bare, Lexeme.bare]
  simp only [ht]
  split_ifs <;> rfl

theorem wantName_bare (p : Progress) (l : Lexeme) (next : String → Progress) :
    p.bare.wantName l.bare (fun name => (next name).bare) = (p.wantName l next).bare := by
  unfold wantName
  rw [refuse_bare, Lexeme.bare, Token.name?_escape]
  split <;> rfl

theorem startStatement_bare (l : Lexeme) : startStatement l.bare = (startStatement l).bare := by
  obtain ⟨t, span⟩ := l
  cases t with
  | keyword k => cases k <;> rfl
  | _ => rfl

theorem continueExpression_bare (target : String) (depth : Nat) (lexemes : Array Lexeme)
    (l : Lexeme) : continueExpression target depth (lexemes.map Lexeme.bare) l.bare =
      (continueExpression target depth lexemes l).bare := by
  obtain ⟨t, span⟩ := l
  have hpush (d : Nat) (l : Lexeme) :
      inExpression target d ((lexemes.map Lexeme.bare).push l.bare) =
        (inExpression target d (lexemes.push l)).bare := by
    rw [bare, Array.map_push]
  cases t with
  | identifier name => exact congrArg (Move.take · none) (hpush depth ⟨.identifier name, span⟩)
  | escaped name => exact congrArg (Move.take · none) (hpush depth ⟨.escaped name, span⟩)
  | constant value => exact congrArg (Move.take · none) (hpush depth ⟨.constant value, span⟩)
  | keyword k => rfl
  | comment text => rfl
  | punct mark =>
    cases mark with
    | semicolon =>
      have hgate := Gate.ofLexemes_bare lexemes.toList span
      simp only [continueExpression, Lexeme.bare, Token.escape_punct, Array.toList_map, hgate]
      cases Gate.ofLexemes lexemes.toList span <;> rfl
    | openParen =>
      simp only [continueExpression, Lexeme.bare, Token.escape_punct]
      split_ifs
      · exact congrArg (Move.take · none) (hpush (depth + 1) ⟨.punct .openParen, span⟩)
      · rfl
    | closeParen =>
      exact congrArg (Move.take · none) (hpush (depth - 1) ⟨.punct .closeParen, span⟩)
    | amp => exact congrArg (Move.take · none) (hpush depth ⟨.punct .amp, span⟩)
    | bar => exact congrArg (Move.take · none) (hpush depth ⟨.punct .bar, span⟩)
    | caret => exact congrArg (Move.take · none) (hpush depth ⟨.punct .caret, span⟩)
    | tilde => exact congrArg (Move.take · none) (hpush depth ⟨.punct .tilde, span⟩)
    | comma => rfl
    | equals => rfl

theorem moveSignificant_bare (p : Progress) (l : Lexeme) :
    p.bare.moveSignificant l.bare = (p.moveSignificant l).bare := by
  have keyword (k : Keyword) (t : Token) : t.escape = .keyword k ↔ t = .keyword k :=
    Token.escape_eq_keyword_iff
  have mark (m : Punct) (t : Token) : t.escape = .punct m ↔ t = .punct m :=
    Token.escape_eq_punct_iff
  cases p with
  | beforeModule => exact want_bare beforeModule (keyword .module) l beforeName none
  | beforeName => exact wantName_bare beforeName l beforePorts
  | beforePorts name =>
    exact want_bare (beforePorts name) (mark .openParen) l (beforePort name #[]) none
  | beforePort name ports =>
    exact wantName_bare (beforePort name ports) l fun port => afterPort name (ports.push port)
  | afterPort name ports | afterDeclared direction names =>
    simp only [bare, moveSignificant, Lexeme.bare, Token.escape_eq_punct_iff]
    split_ifs <;> rfl
  | beforePortsEnd name ports =>
    exact want_bare (beforePortsEnd name ports) (mark .closeParen) l (beforeHeaderEnd name ports)
      none
  | beforeHeaderEnd name ports =>
    exact want_bare (beforeHeaderEnd name ports) (mark .semicolon) l beforeStatement
      (some (.header name ports.toList))
  | beforeStatement => exact startStatement_bare l
  | beforeDeclared direction names =>
    exact wantName_bare (beforeDeclared direction names) l fun name =>
      afterDeclared direction (names.push name)
  | beforeDeclarationEnd direction names =>
    exact want_bare (beforeDeclarationEnd direction names) (mark .semicolon) l beforeStatement
      (some (.declare direction names.toList))
  | beforeTarget => exact wantName_bare beforeTarget l beforeEquals
  | beforeEquals target =>
    have hwant := want_bare (beforeEquals target) (mark .equals) l (inExpression target 0 #[]) none
    have hempty : (inExpression target 0 #[]).bare = inExpression target 0 #[] := by
      rw [bare, Array.map_empty]
    rwa [hempty] at hwant
  | inExpression target depth lexemes => exact continueExpression_bare target depth lexemes l
  | finished => exact refuse_bare finished l

theorem move_bare (p : Progress) (l : Lexeme) : p.bare.move l.bare = (p.move l).bare := by
  cases hs : l.token.isSignificant with
  | false =>
    obtain ⟨text, ht⟩ := Token.eq_comment_of_isSignificant hs
    simp only [move, ht, Lexeme.bare, Token.escape]
    rfl
  | true =>
    have hs' : l.bare.token.isSignificant = true := by
      obtain ⟨t, _⟩ := l
      cases t <;> first | rfl | exact hs
    rw [move_of_isSignificant hs, move_of_isSignificant hs', moveSignificant_bare]

/-- **What comes of a lexeme does not depend on how its name is spelled** or where it stands, but
for the same in errors. -/
theorem settle_bare (p : Progress) (l : Lexeme) : p.bare.settle l.bare =
    ((p.settle l).1.mapError ReadError.bare, (p.settle l).2.bare) := by
  fun_induction settle p l with
  | case1 p next event h => rw [settle_eq, move_bare, h]; rfl
  | case2 p next h ih => rw [settle_eq, move_bare, h]; exact ih
  | case3 p e h => rw [settle_eq, move_bare, h, restart_bare, bare_restart]; rfl

theorem atEnd_bare (p : Progress) (pos : Pos) : p.bare.atEnd .start =
    ((p.atEnd pos).map bare).mapError ReadError.bare := by
  cases p <;> rfl

theorem restart_eq_of_bare_eq {p q : Progress} (h : q.bare = p.bare) : q.restart = p.restart := by
  rw [← restart_bare, h, restart_bare]

theorem ne_finished_of_bare_eq {p q : Progress} (h : q.bare = p.bare) (hp : p ≠ finished) :
    q ≠ finished := by
  rintro rfl
  exact hp (eq_of_bare_eq h.symm rfl)

/-- A lexeme is refused at the start of a stage, where nothing has been gathered from lexemes. -/
theorem restart_of_settle_error {p q : Progress} {l : Lexeme} {e : ReadError}
    (h : p.settle l = (.error e, q)) : q.restart = q := by
  fun_induction settle p l with
  | case1 => cases h
  | case2 p next _ ih => exact ih h
  | case3 p _ _ =>
    cases h
    cases p <;> rfl

section Congr

variable {p p' q : Progress} {l l' : Lexeme} {pos : Pos} {event : Option Event} {e : ReadError}

theorem settle_congr_ok (hp : p'.bare = p.bare) (hl : l'.bare = l.bare)
    (h : p.settle l = (.ok event, q)) :
    ∃ q', p'.settle l' = (.ok event, q') ∧ q'.bare = q.bare := by
  have hbare := settle_bare p' l'
  rw [hp, hl, settle_bare p l, h] at hbare
  obtain ⟨hresult, hprogress⟩ := Prod.mk.inj hbare
  rcases hs : p'.settle l' with ⟨e' | event', q'⟩
  · rw [hs] at hresult
    cases hresult
  · rw [hs] at hresult hprogress
    cases hresult
    exact ⟨q', rfl, hprogress.symm⟩

theorem settle_congr_error (hp : p'.bare = p.bare) (hl : l'.bare = l.bare)
    (h : p.settle l = (.error e, q)) : ∃ e', p'.settle l' = (.error e', q) ∧ e'.bare = e.bare := by
  have hbare := settle_bare p' l'
  rw [hp, hl, settle_bare p l, h] at hbare
  obtain ⟨hresult, hprogress⟩ := Prod.mk.inj hbare
  rcases hs : p'.settle l' with ⟨e' | event', q'⟩
  · rw [hs] at hresult hprogress
    obtain rfl : q' = q := by
      have hq : q.bare = q := restart_of_settle_error h ▸ bare_restart q
      exact eq_of_bare_eq (hprogress.symm.trans hq) (restart_of_settle_error h)
    exact ⟨e', rfl, (Except.error.inj hresult).symm⟩
  · rw [hs] at hresult
    cases hresult

theorem atEnd_congr_ok (hp : p'.bare = p.bare) (pos' : Pos) (h : p.atEnd pos = .ok q) :
    ∃ q', p'.atEnd pos' = .ok q' ∧ q'.bare = q.bare := by
  have hbare := atEnd_bare p' pos'
  rw [hp, atEnd_bare p pos, h] at hbare
  rcases hs : p'.atEnd pos' with e' | q' <;> rw [hs] at hbare
  · cases hbare
  · exact ⟨q', rfl, (Except.ok.inj hbare).symm⟩

theorem atEnd_congr_error (hp : p'.bare = p.bare) (pos' : Pos) (h : p.atEnd pos = .error e) :
    ∃ e', p'.atEnd pos' = .error e' ∧ e'.bare = e.bare := by
  have hbare := atEnd_bare p' pos'
  rw [hp, atEnd_bare p pos, h] at hbare
  rcases hs : p'.atEnd pos' with e' | q' <;> rw [hs] at hbare
  · exact ⟨e', rfl, (Except.error.inj hbare).symm⟩
  · cases hbare

end Congr

end Progress

/-! ### Runs -/

namespace Cursor

/-- What scanning gives from the first cursor it gives from the second one as well, up to the
spelling of names and to places: first results, and then an error, if there is one. -/
inductive Echoes (options : ScanOptions) :
    List (Option Lexeme) → Option ReadError → Cursor → Cursor → Prop
  | nil (c c' : Cursor) : Echoes options [] none c c'
  | error {c d c' d' : Cursor} {e e' : ReadError} :
      c.scan options = (.error e, d) → c'.scan options = (.error e', d') →
      e'.cause.kind = e.cause.kind → Echoes options [] (some e) c c'
  | cons {c d c' d' : Cursor} {x x' : Option Lexeme} {xs : List (Option Lexeme)}
      {err : Option ReadError} :
      c.scan options = (.ok x, d) → c'.scan options = (.ok x', d') →
      x'.map Lexeme.bare = x.map Lexeme.bare → Echoes options xs err d d' →
      Echoes options (x :: xs) err c c'

/-- The results, and the error behind them. -/
def scanResults (xs : List (Option Lexeme)) (err : Option ReadError) : List ScanResult :=
  xs.map .ok ++ err.toList.map .error

end Cursor

namespace Session

/-- The second course ends in the same way, with the same events. -/
structure Course.Matches (k k' : Course) : Prop where
  result : k'.result.mapError (·.cause.kind) = k.result.mapError (·.cause.kind)
  events : Taken.events k'.taken = Taken.events k.taken
  progress : k'.progress = k.progress

/-- **A run is told by what it scans**, up to the spelling of names and to places. -/
theorem course_echoes (options : ScanOptions) (c : Cursor) (p : Progress) :
    ∃ xs err, c.Yields options (Cursor.scanResults xs err) (course options c p).cursor ∧
      ∀ p' c', p'.bare = p.bare → Cursor.Echoes options xs err c c' →
        (course options c p).Matches (course options c' p') := by
  fun_induction course options c p with
  | case1 c =>
    refine ⟨[], none, .nil c, fun p' c' hp _ => ?_⟩
    have hp' : p' = .finished := Progress.eq_of_bare_eq hp rfl
    rw [hp', course_finished]
    exact ⟨rfl, rfl, rfl⟩
  | case2 c p hne e d hs =>
    refine ⟨[], some e, .cons hs (.nil d), fun p' c' hp hecho => ?_⟩
    cases hecho with
    | error hs1 hs' hkind =>
      cases hs.symm.trans hs1
      rw [course_eq options c' (Progress.ne_finished_of_bare_eq hp hne)]
      simp only [hs']
      exact ⟨congrArg Except.error hkind, rfl, Progress.restart_eq_of_bare_eq hp⟩
  | case3 c p hne d hs q hq ih =>
    obtain ⟨xs, err, hy, hmatch⟩ := ih
    refine ⟨none :: xs, err, .cons hs hy, fun p' c' hp hecho => ?_⟩
    cases hecho with
    | @cons _ d1 _ d' _ x' _ _ hs1 hs' hx hecho =>
      cases hs.symm.trans hs1
      obtain rfl := Option.map_eq_none_iff.mp hx
      obtain ⟨q', hq', hbare⟩ := Progress.atEnd_congr_ok hp d'.pos hq
      rw [course_eq options c' (Progress.ne_finished_of_bare_eq hp hne)]
      simp only [hs', hq']
      exact hmatch q' d' hbare hecho
  | case4 c p hne d hs e hq =>
    refine ⟨[none], none, .cons hs (.nil d), fun p' c' hp hecho => ?_⟩
    cases hecho with
    | @cons _ d1 _ d' _ x' _ _ hs1 hs' hx _ =>
      cases hs.symm.trans hs1
      obtain rfl := Option.map_eq_none_iff.mp hx
      obtain ⟨e', he', hbare⟩ := Progress.atEnd_congr_error hp d'.pos hq
      rw [course_eq options c' (Progress.ne_finished_of_bare_eq hp hne)]
      simp only [hs', he']
      exact ⟨congrArg Except.error (ReadError.kind_eq_of_bare_eq hbare), rfl,
        Progress.restart_eq_of_bare_eq hp⟩
  | case5 c p hne l d hs event q hq ih =>
    obtain ⟨xs, err, hy, hmatch⟩ := ih
    refine ⟨some l :: xs, err, .cons hs hy, fun p' c' hp hecho => ?_⟩
    cases hecho with
    | @cons _ d1 _ d' _ x' _ _ hs1 hs' hx hecho =>
      cases hs.symm.trans hs1
      obtain ⟨l', rfl, hl⟩ := Option.map_eq_some_iff.mp hx
      obtain ⟨q', hq', hbare⟩ := Progress.settle_congr_ok hp hl hq
      obtain ⟨hresult, hevents, hprogress⟩ := hmatch q' d' hbare hecho
      rw [course_eq options c' (Progress.ne_finished_of_bare_eq hp hne)]
      simp only [hs', hq']
      refine ⟨hresult, ?_, hprogress⟩
      simp only [Course.after, Taken.events_cons, hevents]
  | case6 c p hne l d hs e q hq =>
    refine ⟨[some l], none, .cons hs (.nil d), fun p' c' hp hecho => ?_⟩
    cases hecho with
    | @cons _ d1 _ d' _ x' _ _ hs1 hs' hx _ =>
      cases hs.symm.trans hs1
      obtain ⟨l', rfl, hl⟩ := Option.map_eq_some_iff.mp hx
      obtain ⟨e', he', hbare⟩ := Progress.settle_congr_error hp hl hq
      rw [course_eq options c' (Progress.ne_finished_of_bare_eq hp hne)]
      simp only [hs', he']
      exact ⟨congrArg Except.error (ReadError.kind_eq_of_bare_eq hbare), rfl, rfl⟩

end Session

end Netlist
