import Netlist.Proofs.Printed

/-! # Reading printed events

The tokens of a well-formed event are lexemes of a construct with this event. So the text of the
events of a module is read as these events, but for carriage returns at the ends of comments, which
are lost (`read_printed`). -/

namespace Netlist

/-! ### Gates -/

namespace Expr

variable {outer : List Pending} {pending : Pending} {ts : List Token} {e : Expr}

theorem Reading.signal {s : Signal} (h : Reading outer pending (some (.literal s)) ts e) :
    Reading outer pending none (s.tokens ++ ts) e := by
  obtain ⟨name, negated⟩ := s
  cases negated with
  | true => exact .inverted (Signal.signalName?_token ⟨name, true⟩) h
  | false => exact .plain (Signal.signalName?_token ⟨name, false⟩) h

theorem Reading.operand {last : Expr} {op : BinOp}
    (h : Reading outer ((last, op) :: pending) none ts e) :
    Reading outer pending (some last) (.punct op.punct :: ts) e :=
  .operator (BinOp.ofToken?_punct op) h

theorem Reading.term {a b : Signal} (h : Reading [] pending (some (Gate.term (a, b))) ts e) :
    Reading [] pending none (Gate.termTokens a b ++ ts) e := by
  have hclose : Reading [pending] [(.literal a, .and)] (some (.literal b))
      (.punct .closeParen :: ts) e := .closeGroup h
  have hopen := Reading.openGroup (by decide) hclose.signal.operand.signal
  simpa [Gate.termTokens, Gate.pairTokens] using hopen

end Expr

namespace Gate

theorem ofTerms_pairs {a b c : Signal} (hab : a.name ≠ b.name) (hac : a.name ≠ c.name)
    (hbc : b.name ≠ c.name) :
    ofTerms [term (a, b), term (a, c), term (b, c)] = .ok (.majority a b c) := by
  simp [ofTerms, term, sightTerm, Expr.andPair?, sight, hab, hac, hbc, List.foldlM, Bind.bind,
    Except.bind, Pure.pure, Except.pure]

/-- **A printed gate is read again.** -/
theorem ofLexemes_tokens {gate : Gate} (h : gate.WellFormed) {ls : List Lexeme}
    (hls : ls.map Lexeme.token = gate.tokens) (limit : Span) :
    ofLexemes ls limit = .ok gate := by
  rw [ofLexemes_eq_ok_iff, hls]
  cases gate with
  | copy a =>
    refine ⟨.literal a, ?_, rfl⟩
    simpa [tokens, Expr.close] using (Expr.Reading.finish [] (.literal a)).signal
  | binary op a b =>
    refine ⟨.chain [.literal a, .literal b] [op], ?_, rfl⟩
    have hr := (Expr.Reading.finish [(.literal a, op)] (.literal b)).signal.operand.signal
    simpa [tokens, pairTokens, Expr.close] using hr
  | majority a b c =>
    obtain ⟨hab, hac, hbc⟩ := h.distinct a b c rfl
    refine ⟨.chain [term (a, b), term (a, c), term (b, c)] [.or, .or], ?_,
      ofTerms_pairs hab hac hbc⟩
    have hr := (Expr.Reading.finish [(term (a, c), .or), (term (a, b), .or)]
      (term (b, c))).term.operand.term.operand.term
    simpa [tokens, Expr.close, BinOp.punct] using hr

end Gate

/-! ### Events -/

namespace Event

/-- The event as it is read back: a comment loses a carriage return at its end. -/
def trimmed : Event → Event
  | comment text => .comment (trimReturn text)
  | e => e

end Event

theorem nameList_of_tokens {names : List String} (hne : names ≠ []) {ls : List Lexeme}
    (hls : ls.map Lexeme.token = nameTokens names) : NameList ls names := by
  induction names generalizing ls with
  | nil => exact absurd rfl hne
  | cons name names ih =>
    cases names with
    | nil =>
      obtain ⟨l, rfl, hl⟩ := List.map_eq_singleton_iff.mp hls
      exact .single (by rw [hl, Token.name?_ofName])
    | cons next names =>
      obtain ⟨l, ls', rfl, hl, hls'⟩ := List.map_eq_cons_iff.mp hls
      obtain ⟨m, ms, rfl, hm, hms⟩ := List.map_eq_cons_iff.mp hls'
      exact .cons (by rw [hl, Token.name?_ofName]) hm (ih (by simp) hms)

theorem Construct.isHeader_of_tokens {name : String} {ports : List String} (hports : ports ≠ [])
    {ls : List Lexeme} (hls : ls.map Lexeme.token = (Event.header name ports).tokens) :
    ∃ c, IsHeader c ∧ c.event = .header name ports ∧ c.before ++ [c.last] = ls := by
  obtain ⟨m, ls₁, rfl, hm, h₁⟩ := List.map_eq_cons_iff.mp hls
  obtain ⟨n, ls₂, rfl, hn, h₂⟩ := List.map_eq_cons_iff.mp h₁
  obtain ⟨o, ls₃, rfl, ho, h₃⟩ := List.map_eq_cons_iff.mp h₂
  obtain ⟨list, ls₄, rfl, hlist, h₄⟩ := List.map_eq_append_iff.mp h₃
  obtain ⟨close, ls₅, rfl, hc, h₅⟩ := List.map_eq_cons_iff.mp h₄
  obtain ⟨last, rfl, hl⟩ := List.map_eq_singleton_iff.mp h₅
  have hstart : HeaderStart [m, n, o] name := .intro hm (by rw [hn, Token.name?_ofName]) ho
  exact ⟨_, .intro hstart (nameList_of_tokens hports hlist) hc hl, rfl, by simp⟩

theorem Construct.isStatement_of_tokens {e : Event} (h : e.WellFormed) (hbody : e.isBody = true)
    (hcomment : e.isComment = false) {ls : List Lexeme} (hls : ls.map Lexeme.token = e.tokens) :
    ∃ c, IsStatement c ∧ c.event = e ∧ c.before ++ [c.last] = ls := by
  cases e with
  | header | endmodule => simp [Event.isBody] at hbody
  | comment => simp [Event.isComment] at hcomment
  | declare direction names =>
    obtain ⟨first, ls₁, rfl, hf, h₁⟩ := List.map_eq_cons_iff.mp hls
    obtain ⟨list, ls₂, rfl, hlist, h₂⟩ := List.map_eq_append_iff.mp h₁
    obtain ⟨last, rfl, hl⟩ := List.map_eq_singleton_iff.mp h₂
    exact ⟨_, .declaration direction hf (nameList_of_tokens h.1 hlist) hl, rfl, by simp⟩
  | assign target gate =>
    obtain ⟨m, ls₁, rfl, hm, h₁⟩ := List.map_eq_cons_iff.mp hls
    obtain ⟨n, ls₂, rfl, hn, h₂⟩ := List.map_eq_cons_iff.mp h₁
    obtain ⟨o, ls₃, rfl, ho, h₃⟩ := List.map_eq_cons_iff.mp h₂
    obtain ⟨rhs, ls₄, rfl, hrhs, h₄⟩ := List.map_eq_append_iff.mp h₃
    obtain ⟨last, rfl, hl⟩ := List.map_eq_singleton_iff.mp h₄
    have hstart : AssignStart [m, n, o] target := .intro hm (by rw [hn, Token.name?_ofName]) ho
    have hg := Gate.ofLexemes_tokens h.2 hrhs last.span
    exact ⟨_, .assignment hstart (Gate.ne_semicolon_of_ofLexemes hg) hg hl, rfl, by simp⟩

/-! ### Modules -/

/-- The printed events lead from one progress to another, and are reported as they are read back. -/
def Rereads (p : Progress) (events : List Event) (q : Progress) : Prop :=
  ∀ ls : List Lexeme, ls.map Lexeme.token = events.flatMap Event.tokens →
    ∃ ts : List Taken, ts.map Prod.fst = ls ∧ Progress.Steps p ts q ∧
      Taken.events ts = events.map Event.trimmed

namespace Rereads

theorem append {p q r : Progress} {es fs : List Event} (h : Rereads p es q)
    (h' : Rereads q fs r) : Rereads p (es ++ fs) r := by
  intro ls hls
  rw [List.flatMap_append] at hls
  obtain ⟨ls₁, ls₂, rfl, h₁, h₂⟩ := List.map_eq_append_iff.mp hls
  obtain ⟨ts₁, rfl, hs₁, he₁⟩ := h ls₁ h₁
  obtain ⟨ts₂, rfl, hs₂, he₂⟩ := h' ls₂ h₂
  exact ⟨ts₁ ++ ts₂, List.map_append, hs₁.append hs₂, by simp [he₁, he₂]⟩

theorem comment (p : Progress) (text : String) : Rereads p [.comment text] p := by
  intro ls hls
  obtain ⟨l, rfl, hl⟩ := List.map_eq_singleton_iff.mp hls
  exact ⟨[(l, some (.comment (trimReturn text)))], rfl, .single (.comment hl), rfl⟩

theorem header {name : String} {ports : List String} (h : (Event.header name ports).WellFormed) :
    Rereads .beforeModule [.header name ports] .beforeStatement := by
  intro ls hls
  rw [List.flatMap_singleton] at hls
  obtain ⟨c, hc, he, rfl⟩ := Construct.isHeader_of_tokens h.2.1 hls
  exact ⟨c.taken, c.map_fst_taken, hc.steps, by rw [c.events_taken, he]; rfl⟩

theorem body {e : Event} (h : e.WellFormed) (hbody : e.isBody = true) :
    Rereads .beforeStatement [e] .beforeStatement := by
  cases hcomment : e.isComment with
  | true =>
    obtain ⟨text, rfl⟩ := Event.isComment_iff.mp hcomment
    exact comment _ text
  | false =>
    intro ls hls
    rw [List.flatMap_singleton] at hls
    obtain ⟨c, hc, he, rfl⟩ := Construct.isStatement_of_tokens h hbody hcomment hls
    have htrim : e.trimmed = e := by
      cases e <;> first | rfl | cases hcomment
    exact ⟨c.taken, c.map_fst_taken, hc.steps, by rw [c.events_taken, he]; simp [htrim]⟩

theorem all {p : Progress} {events : List Event} (h : ∀ e ∈ events, Rereads p [e] p) :
    Rereads p events p := by
  induction events with
  | nil =>
    intro ls hls
    obtain rfl := List.map_eq_nil_iff.mp hls
    exact ⟨[], rfl, .nil p, rfl⟩
  | cons e events ih =>
    obtain ⟨he, hes⟩ := List.forall_mem_cons.mp h
    exact he.append (ih hes)

end Rereads

theorem isModule_of_tokens {events : List Event} (h : IsModuleEvents events)
    (hw : ∀ e ∈ events, e.WellFormed) {ls : List Lexeme}
    (hls : ls.map Lexeme.token = events.flatMap Event.tokens) :
    ∃ ts : List Taken, ts.map Prod.fst = ls ∧ IsModule ts ∧
      Taken.events ts = events.map Event.trimmed := by
  obtain ⟨comments, name, ports, body, rfl, hcomments, hbody⟩ := h
  simp only [List.forall_mem_append, List.forall_mem_cons] at hw
  have hr : Rereads .beforeModule (comments ++ ([.header name ports] ++ body))
      .beforeStatement := by
    refine (Rereads.all fun e he => ?_).append
      ((Rereads.header hw.2.1).append (.all fun e he => .body (hw.2.2.1 e he) (hbody e he)))
    obtain ⟨text, rfl⟩ := Event.isComment_iff.mp (hcomments e he)
    exact .comment _ text
  have hsplit : comments ++ .header name ports :: (body ++ [.endmodule]) =
      comments ++ ([.header name ports] ++ body) ++ [.endmodule] := by simp
  rw [hsplit, List.flatMap_append] at hls
  obtain ⟨ls, last, rfl, h₁, h₂⟩ := List.map_eq_append_iff.mp hls
  obtain ⟨l, rfl, hl⟩ := List.map_eq_singleton_iff.mp h₂
  obtain ⟨ts, rfl, hs, he⟩ := hr ls h₁
  refine ⟨ts ++ [(l, some .endmodule)], by simp,
    isModule_iff_steps.mpr ⟨ts, l, rfl, hl, hs⟩, ?_⟩
  rw [hsplit, Taken.events_append, he]
  simp [Event.trimmed]

theorem course_printed (options : ScanOptions) {events : List Event} (h : IsModuleEvents events)
    (hw : ∀ e ∈ events, e.WellFormed) : ∃ ts d,
      Session.course options (.ofSource (.ofBytes (Utf8.encode (printed events)))) .beforeModule =
        ⟨ts, .ok (), d, .finished⟩ ∧
      (ts.map Prod.fst).map Lexeme.token = events.flatMap Event.tokens ∧
      Taken.events ts = events.map Event.trimmed := by
  have hspelled := spells_printed hw [] [] .nil
  rw [List.append_nil, List.append_nil] at hspelled
  obtain ⟨ls, d, e, hls, hscans, -⟩ :=
    Cursor.scans_spelled options hspelled [] (by simp) .start
  obtain ⟨ts, rfl, hm, he⟩ := isModule_of_tokens h hw hls
  exact ⟨ts, d, course_of_isModule hm hscans, hls, he⟩

/-- **The text of the events of a module is read as these events**, and a carriage return at the
end of a comment is lost. -/
theorem read_printed (options : ScanOptions) {events : List Event} (h : IsModuleEvents events)
    (hw : ∀ e ∈ events, e.WellFormed) :
    read options (.ofBytes (Utf8.encode (printed events))) .recorder #[] =
      (.ok (), (events.map Event.trimmed).toArray) := by
  obtain ⟨ts, d, hc, -, he⟩ := course_printed options h hw
  rw [read_recorder, hc, he]

end Netlist
