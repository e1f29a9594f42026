import Mathlib.Data.List.Basic
import Mathlib.Tactic.SplitIfs
import Netlist.Gate

/-! # Expressions that are read

Whether lexemes are read as an expression, and as which one, depends on their tokens alone.
`Expr.Reading` lists the steps of reading up to the end, and nothing else is accepted
(`Expr.ofLexemes_eq_ok_iff`). The tokens of an expression that was read are those it is written
with, up to how each signal is spelled (`Expr.map_asSignal_of_reading`). -/

namespace Netlist

/-- The token may stand in a right-hand side, and is no parenthesis. -/
def Token.isFlat : Token → Bool
  | .identifier _ | .escaped _ | .constant _ => true
  | .punct .amp | .punct .bar | .punct .caret | .punct .tilde => true
  | _ => false

theorem Token.isFlat_of_signalName? {t : Token} {name : String} (h : t.signalName? = some name) :
    t.isFlat = true := by
  cases t <;> first | rfl | simp [signalName?, name?] at h

theorem BinOp.eq_of_ofToken? {t : Token} {op : BinOp} (h : ofToken? t = some op) :
    t = .punct op.punct := by
  unfold ofToken? at h
  split at h <;> cases h <;> rfl

theorem BinOp.isFlat_punct (op : BinOp) : (Token.punct op.punct).isFlat = true := by
  cases op <;> rfl

namespace Expr

/-- The tokens are read to their end as an expression, inside the chains `outer` and after the
operands `pending`. With a latest operand `some last` reading waits for what follows it, and with
`none` it waits for an operand. -/
inductive Reading : List Pending → Pending → Option Expr → List Token → Expr → Prop
  | inverted {outer : List Pending} {pending : Pending} {t : Token} {name : String}
      {ts : List Token} {e : Expr} :
      t.signalName? = some name → Reading outer pending (some (.literal ⟨name, true⟩)) ts e →
        Reading outer pending none (.punct .tilde :: t :: ts) e
  | plain {outer : List Pending} {pending : Pending} {t : Token} {name : String}
      {ts : List Token} {e : Expr} :
      t.signalName? = some name → Reading outer pending (some (.literal ⟨name, false⟩)) ts e →
        Reading outer pending none (t :: ts) e
  | openGroup {outer : List Pending} {pending : Pending} {ts : List Token} {e : Expr} :
      outer.length < maxGroupDepth → Reading (pending :: outer) [] none ts e →
        Reading outer pending none (.punct .openParen :: ts) e
  | operator {outer : List Pending} {pending : Pending} {last : Expr} {t : Token} {op : BinOp}
      {ts : List Token} {e : Expr} :
      BinOp.ofToken? t = some op → Reading outer ((last, op) :: pending) none ts e →
        Reading outer pending (some last) (t :: ts) e
  | closeGroup {outer : List Pending} {around pending : Pending} {last : Expr} {ts : List Token}
      {e : Expr} :
      Reading outer around (some (.group (close pending last))) ts e →
        Reading (around :: outer) pending (some last) (.punct .closeParen :: ts) e
  | finish (pending : Pending) (last : Expr) :
      Reading [] pending (some last) [] (close pending last)

theorem reading_of_ok (limit : Span) (e : Expr) :
    (∀ outer pending ls, operandNext limit outer pending ls = .ok e →
      Reading outer pending none (ls.map Lexeme.token) e) ∧
    ∀ outer pending last ls, operatorNext limit outer pending last ls = .ok e →
      Reading outer pending (some last) (ls.map Lexeme.token) e := by
  apply operandNext.mutual_induct
    (fun outer pending ls => operandNext limit outer pending ls = .ok e →
      Reading outer pending none (ls.map Lexeme.token) e)
    (fun outer pending last ls => operatorNext limit outer pending last ls = .ok e →
      Reading outer pending (some last) (ls.map Lexeme.token) e)
  -- an operand is awaited
  case case1 =>
    intro outer pending h
    simp [operandNext, refuse] at h
  case case2 =>
    intro outer pending span h
    simp [operandNext, refuse] at h
  case case3 =>
    intro outer pending span t span' rest name hn ih h
    simp only [operandNext, hn] at h
    exact .inverted hn (ih h)
  case case4 =>
    intro outer pending span t span' rest hn h
    simp [operandNext, hn, refuse] at h
  case case5 =>
    intro outer pending span rest hd ih h
    simp only [operandNext, hd, if_true] at h
    exact .openGroup hd (ih h)
  case case6 =>
    intro outer pending span rest hd h
    simp [operandNext, hd] at h
  case case7 =>
    intro outer pending t span rest h1 h2 name hn ih h
    simp only [operandNext, hn] at h
    exact .plain hn (ih h)
  case case8 =>
    intro outer pending t span rest h1 h2 hn h
    simp [operandNext, hn, refuse] at h
  -- what follows an operand is awaited
  case case9 =>
    intro pending last h
    simp only [operatorNext, Except.ok.injEq] at h
    exact h ▸ .finish pending last
  case case10 =>
    intro pending last around outer h
    simp [operatorNext, refuse] at h
  case case11 =>
    intro outer pending last t span rest op ho ih h
    simp only [operatorNext, ho] at h
    exact .operator ho (ih h)
  case case12 =>
    intro pending last t span rest ho h
    simp [operatorNext, ho, refuse] at h
  case case13 =>
    intro pending last span rest around outer ho ih h
    simp only [operatorNext, ho, if_true] at h
    exact .closeGroup (ih h)
  case case14 =>
    intro pending last t span rest ho around outer ht h
    simp [operatorNext, ho, ht, refuse] at h

/-- What reading goes on with where it stands. -/
def readNext (limit : Span) (outer : List Pending) (pending : Pending) :
    Option Expr → List Lexeme → Except ReadError Expr
  | none => operandNext limit outer pending
  | some last => operatorNext limit outer pending last

theorem Reading.ok {outer : List Pending} {pending : Pending} {last : Option Expr}
    {ts : List Token} {e : Expr} (h : Reading outer pending last ts e) (limit : Span)
    {ls : List Lexeme} (hls : ls.map Lexeme.token = ts) :
    readNext limit outer pending last ls = .ok e := by
  induction h generalizing ls with
  | inverted hn _ ih =>
    obtain ⟨⟨_, _⟩, ls', rfl, rfl, hls'⟩ := List.map_eq_cons_iff.mp hls
    obtain ⟨⟨_, _⟩, ls, rfl, rfl, rfl⟩ := List.map_eq_cons_iff.mp hls'
    simp only [readNext, operandNext, hn]
    exact ih rfl
  | plain hn _ ih =>
    obtain ⟨⟨t, _⟩, ls, rfl, rfl, rfl⟩ := List.map_eq_cons_iff.mp hls
    have h1 : t ≠ .punct .tilde := by rintro rfl; simp [Token.signalName?, Token.name?] at hn
    have h2 : t ≠ .punct .openParen := by rintro rfl; simp [Token.signalName?, Token.name?] at hn
    simp only [readNext, operandNext, hn]
    exact ih rfl
  | openGroup hd _ ih =>
    obtain ⟨⟨_, _⟩, ls, rfl, rfl, rfl⟩ := List.map_eq_cons_iff.mp hls
    simp only [readNext, operandNext, hd, if_true]
    exact ih rfl
  | operator ho _ ih =>
    obtain ⟨⟨_, _⟩, ls, rfl, rfl, rfl⟩ := List.map_eq_cons_iff.mp hls
    simp only [readNext, operatorNext, ho]
    exact ih rfl
  | closeGroup _ ih =>
    obtain ⟨⟨_, _⟩, ls, rfl, rfl, rfl⟩ := List.map_eq_cons_iff.mp hls
    simp only [readNext, operatorNext, BinOp.ofToken?, if_true]
    exact ih rfl
  | finish =>
    obtain rfl := List.map_eq_nil_iff.mp hls
    rfl

/-- **Lexemes are read as an expression exactly by the steps of reading.** -/
theorem ofLexemes_eq_ok_iff {ls : List Lexeme} {limit : Span} {e : Expr} :
    ofLexemes ls limit = .ok e ↔ Reading [] [] none (ls.map Lexeme.token) e := by
  cases ls with
  | nil =>
    refine iff_of_false (by simp [ofLexemes, refuse]) ?_
    rintro ⟨⟩
  | cons l ls => exact ⟨(reading_of_ok limit e).1 [] [] _, fun h => h.ok limit rfl⟩

theorem isFlat_of_reading {outer : List Pending} {pending : Pending} {last : Option Expr}
    {ts : List Token} {e : Expr} (h : Reading outer pending last ts e) :
    ∀ t ∈ ts, t.isFlat = true ∨ t = .punct .openParen ∨ t = .punct .closeParen := by
  induction h with
  | inverted hn _ ih =>
    exact List.forall_mem_cons.mpr ⟨.inl rfl,
      List.forall_mem_cons.mpr ⟨.inl (Token.isFlat_of_signalName? hn), ih⟩⟩
  | plain hn _ ih => exact List.forall_mem_cons.mpr ⟨.inl (Token.isFlat_of_signalName? hn), ih⟩
  | openGroup _ _ ih => exact List.forall_mem_cons.mpr ⟨.inr (.inl rfl), ih⟩
  | operator ho _ ih =>
    rw [BinOp.eq_of_ofToken? ho]
    exact List.forall_mem_cons.mpr ⟨.inl (BinOp.isFlat_punct _), ih⟩
  | closeGroup _ ih => exact List.forall_mem_cons.mpr ⟨.inr (.inr rfl), ih⟩
  | finish => simp

end Expr

/-! ### Written expressions -/

/-- The token, if it stands for a signal as the escaped name of that signal. -/
def Token.asSignal (t : Token) : Token :=
  match t.signalName? with
  | some name => .escaped name
  | none => t

theorem Token.asSignal_of_signalName? {t : Token} {name : String} (h : t.signalName? = some name) :
    t.asSignal = .escaped name := by
  rw [asSignal, h]

theorem Token.signalName?_of_asSignal {t : Token} {name : String}
    (h : t.asSignal = .escaped name) : t.signalName? = some name := by
  unfold asSignal at h
  split at h
  · rename_i s hs
    cases h
    exact hs
  · rename_i hs
    subst h
    simp [signalName?, name?] at hs

theorem Token.eq_punct_of_asSignal {t : Token} {p : Punct} (h : t.asSignal = .punct p) :
    t = .punct p := by
  unfold asSignal at h
  split at h
  · cases h
  · exact h

@[simp] theorem Token.asSignal_punct (p : Punct) : (punct p).asSignal = punct p := rfl

/-- The tokens of the signal, with its name escaped. -/
def Signal.written (s : Signal) : List Token :=
  if s.negated then [.punct .tilde, .escaped s.name] else [.escaped s.name]

theorem Signal.mem_written (s : Signal) : Token.escaped s.name ∈ s.written := by
  unfold written
  split <;> simp

namespace Expr

mutual

/-- The tokens of the expression, with the names of its signals escaped. -/
def written : Expr → List Token
  | literal s => s.written
  | group e => .punct .openParen :: e.written ++ [.punct .closeParen]
  | chain operands ops => writtenChain operands ops

/-- The tokens of operands with the operators between them. -/
def writtenChain : List Expr → List BinOp → List Token
  | [], _ => []
  | e :: es, [] => e.written ++ writtenChain es []
  | e :: es, op :: ops => e.written ++ .punct op.punct :: writtenChain es ops

end

/-- The tokens of the operands that wait for a last one. -/
def writtenPending (pending : Pending) : List Token :=
  pending.reverse.flatMap fun p => p.1.written ++ [.punct p.2.punct]

/-- The tokens of the chains around the one being read, each with the parenthesis after it. -/
def writtenOuter (outer : List Pending) : List Token :=
  outer.reverse.flatMap fun pending => writtenPending pending ++ [.punct .openParen]

theorem writtenChain_append (operands : List (Expr × BinOp)) (last : Expr) :
    writtenChain (operands.map Prod.fst ++ [last]) (operands.map Prod.snd) =
      operands.flatMap (fun p => p.1.written ++ [.punct p.2.punct]) ++ last.written := by
  induction operands with
  | nil => simp [writtenChain]
  | cons p operands ih => simp [writtenChain, ih]

theorem written_close (pending : Pending) (last : Expr) :
    (close pending last).written = writtenPending pending ++ last.written := by
  unfold close
  split
  · rfl
  · rw [written, writtenChain_append, writtenPending]

theorem map_asSignal_of_reading_aux {outer : List Pending} {pending : Pending}
    {last : Option Expr} {ts : List Token} {e : Expr} (h : Reading outer pending last ts e) :
    writtenOuter outer ++ writtenPending pending ++ (last.map written).getD [] ++
      ts.map Token.asSignal = e.written := by
  induction h with
  | inverted hn _ ih =>
    rw [← ih]
    simp [Token.asSignal_of_signalName? hn, written, Signal.written]
  | plain hn _ ih =>
    rw [← ih]
    simp [Token.asSignal_of_signalName? hn, written, Signal.written]
  | openGroup _ _ ih =>
    rw [← ih]
    simp [writtenOuter, writtenPending]
  | operator ho _ ih =>
    rw [← ih]
    simp [BinOp.eq_of_ofToken? ho, writtenPending]
  | closeGroup _ ih =>
    rw [← ih]
    simp [writtenOuter, written, written_close]
  | finish => simp [writtenOuter, written_close]

/-- **What is read is what is written**, when signals are known by their names. -/
theorem map_asSignal_of_reading {ts : List Token} {e : Expr} (h : Reading [] [] none ts e) :
    ts.map Token.asSignal = e.written := by
  simpa [writtenOuter, writtenPending] using map_asSignal_of_reading_aux h

theorem length_of_reading {ts : List Token} {operands : List Expr} {ops : List BinOp}
    (h : Reading [] [] none ts (.chain operands ops)) : operands.length = ops.length + 1 := by
  -- the latest operand is never a chain itself
  have aux {outer : List Pending} {pending : Pending} {last : Option Expr} {ts : List Token}
      {e : Expr} (h : Reading outer pending last ts e)
      (hlast : ∀ x, last = some x → ∀ operands ops, x ≠ .chain operands ops) :
      ∀ operands ops, e = .chain operands ops → operands.length = ops.length + 1 := by
    induction h with
    | inverted _ _ ih => exact ih (by rintro _ ⟨⟩; simp)
    | plain _ _ ih => exact ih (by rintro _ ⟨⟩; simp)
    | openGroup _ _ ih => exact ih (by simp)
    | operator _ _ ih => exact ih (by simp)
    | closeGroup _ ih => exact ih (by rintro _ ⟨⟩; simp)
    | finish pending last =>
      intro operands ops he
      unfold close at he
      split at he
      · exact absurd he (hlast last rfl operands ops)
      · cases he
        simp
  exact aux h (by simp) operands ops rfl

end Expr

/-! ### Tokens of an expression -/

/-- The tokens are a literal of the signal: its name or constant, behind a tilde if it is
inverted. -/
inductive IsLiteral : List Token → Signal → Prop
  | plain {t : Token} {name : String} : t.signalName? = some name → IsLiteral [t] ⟨name, false⟩
  | inverted {t : Token} {name : String} : t.signalName? = some name →
      IsLiteral [.punct .tilde, t] ⟨name, true⟩

theorem isLiteral_iff {ts : List Token} {s : Signal} :
    IsLiteral ts s ↔ ts.map Token.asSignal = s.written := by
  constructor
  · rintro (h | h) <;> simp [Token.asSignal_of_signalName? h, Signal.written]
  · intro h
    obtain ⟨name, negated⟩ := s
    cases negated with
    | true =>
      obtain ⟨t, ts', rfl, ht, h'⟩ := List.map_eq_cons_iff.mp h
      obtain ⟨u, rfl, hu⟩ := List.map_eq_singleton_iff.mp h'
      obtain rfl := Token.eq_punct_of_asSignal ht
      exact .inverted (Token.signalName?_of_asSignal hu)
    | false =>
      obtain ⟨t, rfl, ht⟩ := List.map_eq_singleton_iff.mp h
      exact .plain (Token.signalName?_of_asSignal ht)

namespace Expr

theorem map_asSignal_eq_group_iff {ts : List Token} {e : Expr} :
    ts.map Token.asSignal = (group e).written ↔
      ∃ us, ts = .punct .openParen :: (us ++ [.punct .closeParen]) ∧
        us.map Token.asSignal = e.written := by
  constructor
  · intro h
    obtain ⟨ts', close', rfl, h', hclose⟩ := List.map_eq_append_iff.mp h
    obtain ⟨t, us, rfl, ht, hus⟩ := List.map_eq_cons_iff.mp h'
    obtain ⟨u, rfl, hu⟩ := List.map_eq_singleton_iff.mp hclose
    obtain rfl := Token.eq_punct_of_asSignal ht
    obtain rfl := Token.eq_punct_of_asSignal hu
    exact ⟨us, rfl, hus⟩
  · rintro ⟨us, rfl, hus⟩
    simp [written, hus]

theorem map_asSignal_eq_writtenChain_iff {ts : List Token} {e : Expr} {es : List Expr}
    {op : BinOp} {ops : List BinOp} :
    ts.map Token.asSignal = writtenChain (e :: es) (op :: ops) ↔
      ∃ us ws, ts = us ++ .punct op.punct :: ws ∧ us.map Token.asSignal = e.written ∧
        ws.map Token.asSignal = writtenChain es ops := by
  constructor
  · intro h
    obtain ⟨us, ts', rfl, hus, h'⟩ := List.map_eq_append_iff.mp h
    obtain ⟨t, ws, rfl, ht, hws⟩ := List.map_eq_cons_iff.mp h'
    obtain rfl := Token.eq_punct_of_asSignal ht
    exact ⟨us, ws, rfl, hus, hws⟩
  · rintro ⟨us, ws, rfl, hus, hws⟩
    simp [writtenChain, hus, hws]

@[simp] theorem writtenChain_singleton (e : Expr) : writtenChain [e] [] = e.written := by
  simp [writtenChain]

end Expr

/-! ### Gates -/

theorem Gate.ofLexemes_eq_ok_iff {ls : List Lexeme} {limit : Span} {gate : Gate} :
    ofLexemes ls limit = .ok gate ↔
      ∃ e, Expr.Reading [] [] none (ls.map Lexeme.token) e ∧ ofExpr e = .ok gate := by
  simp only [← @Expr.ofLexemes_eq_ok_iff _ limit, ofLexemes, classify]
  rcases Expr.ofLexemes ls limit with err | e
  · simp [Bind.bind, Except.bind]
  · rcases ho : ofExpr e with err | g <;> simp [Bind.bind, Except.bind, ho]

theorem Gate.ofLexemes_eq_error_iff {ls : List Lexeme} {limit : Span} {err : ReadError} :
    ofLexemes ls limit = .error err ↔ Expr.ofLexemes ls limit = .error err ∨
      ∃ e p, Expr.ofLexemes ls limit = .ok e ∧ ofExpr e = .error p ∧
        err = ⟨.pattern p, Span.ofLexemes ls limit⟩ := by
  simp only [ofLexemes, classify]
  rcases Expr.ofLexemes ls limit with _ | e
  · simp [Bind.bind, Except.bind]
  · rcases ho : ofExpr e with p | gate <;> simp [Bind.bind, Except.bind, ho, eq_comm]

theorem Gate.isFlat_of_ofLexemes {ls : List Lexeme} {limit : Span} {gate : Gate}
    (h : ofLexemes ls limit = .ok gate) : ∀ l ∈ ls,
      l.token.isFlat = true ∨ l.token = .punct .openParen ∨ l.token = .punct .closeParen := by
  obtain ⟨e, hr, -⟩ := ofLexemes_eq_ok_iff.mp h
  exact fun l hl => Expr.isFlat_of_reading hr _ (List.mem_map_of_mem hl)

theorem Gate.ne_semicolon_of_ofLexemes {ls : List Lexeme} {limit : Span} {gate : Gate}
    (h : ofLexemes ls limit = .ok gate) : ∀ l ∈ ls, l.token ≠ .punct .semicolon := by
  intro l hl ht
  have hflat := isFlat_of_ofLexemes h l hl
  simp [ht, Token.isFlat] at hflat

end Netlist
