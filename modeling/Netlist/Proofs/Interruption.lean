import Netlist.Proofs.Skipped
import Netlist.Proofs.Splice
import Netlist.Proofs.Truncation
import Netlist.Proofs.Turns

/-! # Sources that are interrupted

A source that has pauses behind semicolons (`interrupt`) is read to the end by running the session
again after each failure. Before a statement a pause costs at most one run, which fails and takes
nothing (`Session.Completes.pauses`). Main statement: `Session.runs_interrupted`. -/

namespace Netlist

/-- The source of the bytes, with as many pauses behind the byte that ends at a position as the
function tells. -/
def interrupt (pauses : Pos → Nat) : Pos → List UInt8 → Source :=
  splice .byte (fun _ => []) fun q => List.replicate (pauses q) .pause

section Interrupt

variable {pauses : Pos → Nat} {p : Pos}

theorem interrupt_append (pauses : Pos → Nat) (p : Pos) (xs ys : List UInt8) :
    interrupt pauses p (xs ++ ys) =
      interrupt pauses p xs ++ interrupt pauses (p.advanceBy xs) ys := splice_append _ _ _ p xs ys

theorem interrupt_eq_ofBytes {bytes : List UInt8}
    (h : ∀ q, p < q → q ≤ p.advanceBy bytes → pauses q = 0) :
    interrupt pauses p bytes = .ofBytes bytes :=
  splice_eq_map (fun _ _ _ => rfl) fun q hq hle => by rw [h q hq hle, List.replicate_zero]

theorem interrupt_eq_append {bytes : List UInt8} (hne : bytes ≠ [])
    (h : ∀ q, p < q → q < p.advanceBy bytes → pauses q = 0) :
    interrupt pauses p bytes =
      Source.ofBytes bytes ++ List.replicate (pauses (p.advanceBy bytes)) .pause :=
  splice_eq_append hne (fun _ _ _ => rfl) fun q hq hlt => by rw [h q hq hlt, List.replicate_zero]

theorem count_pause_ofBytes (bytes : List UInt8) : (Source.ofBytes bytes).count .pause = 0 := by
  simp [Source.ofBytes, List.count_eq_zero]

theorem alike_interrupt (pauses : Pos → Nat) (p : Pos) (bytes : List UInt8) :
    Source.Alike (.ofBytes bytes) (interrupt pauses p bytes) := by
  cases bytes with
  | nil => exact .nil
  | cons b bytes => exact .cons _ _ _

end Interrupt

/-- From the position on, pauses stand only where a semicolon of the lexemes ends. -/
def BehindSemicolons (pauses : Pos → Nat) (pos : Pos) (ls : List Lexeme) : Prop :=
  ∀ q, pos < q → pauses q ≠ 0 → ∃ l ∈ ls, l.token = .punct .semicolon ∧ l.span.limit = q

namespace Cursor

variable {options : ScanOptions} {pauses : Pos → Nat} {pos : Pos} {b : UInt8} {x : Source}
  {bytes : List UInt8} {c d e : Cursor} {l : Lexeme} {ls : List Lexeme}

/-! ### Scans over pauses -/

/-- Two pauses are the end of the input for one scan. -/
theorem scan_pause_pause (options : ScanOptions) (x : Source) (pos : Pos) :
    scan options ⟨.pause :: .pause :: x, pos⟩ = (.ok none, ⟨x, pos⟩) := by
  rw [scan_eq]
  rfl

/-- One pause before a blank makes it an error, and the blank is left. -/
theorem scan_pause_blank (hb : Ascii.isBlank b = true) :
    scan options ⟨.pause :: .byte b :: x, pos⟩ =
      (.error ⟨.lexical (.unexpectedByte b), ⟨pos, pos⟩⟩, ⟨.byte b :: x, pos⟩) := by
  have hfrom : scanFrom options b ⟨.byte b :: x, pos⟩ =
      fail ⟨.byte b :: x, pos⟩ pos (.unexpectedByte b) := by
    simp only [Ascii.isBlank, Bool.or_eq_true, beq_iff_eq] at hb
    rcases hb with (((rfl | rfl) | rfl) | rfl) | rfl <;> rfl
  rw [scan_eq]
  have hpiece : piece options ⟨.pause :: .byte b :: x, pos⟩ =
      scanFrom options b ⟨.byte b :: x, pos⟩ := rfl
  rw [hpiece, hfrom]
  rfl

theorem scan_pause_byte (hb : Ascii.isBlank b = false) :
    scan options ⟨.pause :: .byte b :: x, pos⟩ = scan options ⟨.byte b :: x, pos⟩ := by
  rw [scan_eq, scan_eq options ⟨.byte b :: x, pos⟩, piece_of_byte options hb]
  rfl

theorem scan_interrupt_semicolon {span : Span}
    (hs : scan options ⟨.ofBytes bytes, pos⟩ = (.ok (some ⟨.punct .semicolon, span⟩), d))
    (hat : ∀ q, pos < q → pauses q ≠ 0 → q < d.pos → span.limit = q) :
    ∃ taken more, d.rest = .ofBytes more ∧
      interrupt pauses pos bytes = Source.ofBytes taken ++
        (List.replicate (pauses d.pos) .pause ++ interrupt pauses d.pos more) ∧
      scan options ⟨interrupt pauses pos bytes, pos⟩ =
        (.ok (some ⟨.punct .semicolon, span⟩),
          ⟨List.replicate (pauses d.pos) .pause ++ interrupt pauses d.pos more, d.pos⟩) := by
  obtain ⟨gap, lex, tail, more, rfl, hgap, hread, hspan, rfl⟩ := exists_gap_of_scan hs
  obtain rfl : lex = [Punct.semicolon.byte] := hread.spelledBy
  obtain rfl : tail = [] := hread.endsBefore
  obtain rfl : span = ⟨pos.advanceBy gap, (pos.advanceBy gap).advanceBy [_]⟩ := hspan
  rw [List.append_nil, ← Pos.advanceBy_append] at hat ⊢
  have hne : gap ++ [Punct.semicolon.byte] ≠ [] := List.append_ne_nil_of_right_ne_nil _ (by simp)
  have htaken := interrupt_eq_append hne fun q hq hlt => by
    by_contra hpause
    exact hlt.ne (hat q hq hpause hlt).symm
  have hsource : interrupt pauses pos (gap ++ ([Punct.semicolon.byte] ++ ([] ++ more))) =
      Source.ofBytes (gap ++ [Punct.semicolon.byte]) ++
        (List.replicate (pauses (pos.advanceBy (gap ++ [Punct.semicolon.byte]))) .pause ++
          interrupt pauses (pos.advanceBy (gap ++ [Punct.semicolon.byte])) more) := by
    rw [List.nil_append, ← List.append_assoc, interrupt_append, htaken, List.append_assoc]
  refine ⟨gap ++ [Punct.semicolon.byte], more, rfl, hsource, ?_⟩
  rw [hsource]
  exact scan_gap_punct hgap .semicolon _ pos

theorem scan_interrupt_other {r : ScanResult}
    (hs : scan options ⟨.ofBytes bytes, pos⟩ = (r, d))
    (hat : ∀ q, pos < q → q ≤ d.pos → pauses q = 0) :
    ∃ taken more, d.rest = .ofBytes more ∧
      interrupt pauses pos bytes = Source.ofBytes taken ++ interrupt pauses d.pos more ∧
      scan options ⟨interrupt pauses pos bytes, pos⟩ =
        (r, ⟨interrupt pauses d.pos more, d.pos⟩) := by
  obtain ⟨taken, more, rfl, rfl⟩ := (reaches_of_scan hs).exists_eq_append
  have hsource : interrupt pauses pos (taken ++ more) =
      Source.ofBytes taken ++ interrupt pauses (pos.advanceBy taken) more := by
    rw [interrupt_append, interrupt_eq_ofBytes hat]
  refine ⟨taken, more, rfl, hsource, ?_⟩
  rw [hsource]
  rw [Source.ofBytes_append] at hs
  exact scan_local hs (alike_interrupt pauses _ more)

/-- **What is scanned without the pauses is scanned with them**, and those behind its semicolon
come next. -/
theorem scan_interrupt (hs : scan options ⟨.ofBytes bytes, pos⟩ = (.ok (some l), d))
    (hrest : Scans options d ls e) (hat : BehindSemicolons pauses pos (l :: ls)) :
    ∃ taken more k, d.rest = .ofBytes more ∧ (k ≠ 0 → l.token = .punct .semicolon) ∧
      interrupt pauses pos bytes = Source.ofBytes taken ++
        (List.replicate k .pause ++ interrupt pauses d.pos more) ∧
      scan options ⟨interrupt pauses pos bytes, pos⟩ =
        (.ok (some l), ⟨List.replicate k .pause ++ interrupt pauses d.pos more, d.pos⟩) := by
  -- pauses up to the end of this scan stand behind its lexeme
  have hfirst : ∀ q, pos < q → q ≤ d.pos → pauses q ≠ 0 →
      l.token = .punct .semicolon ∧ l.span.limit = q := fun q hq hqd hne => by
    obtain ⟨m, hm, hsemi, rfl⟩ := hat q hq hne
    rcases List.mem_cons.mp hm with rfl | hm
    · exact ⟨hsemi, rfl⟩
    · have hd : d.IsPlain := IsPlain.scan ⟨bytes, rfl⟩ hs
      obtain ⟨hstart, hlt, -⟩ := hrest.yields.span hd (List.mem_map_of_mem hm)
      exact absurd hqd (not_le.mpr (hstart.trans_lt hlt))
  by_cases hsemi : l.token = .punct .semicolon
  · obtain ⟨m, span⟩ := l
    obtain rfl : m = .punct .semicolon := hsemi
    obtain ⟨taken, more, hmore, hsource, hscan⟩ := scan_interrupt_semicolon hs
      fun q hq hne hlt => (hfirst q hq hlt.le hne).2
    exact ⟨taken, more, _, hmore, fun _ => rfl, hsource, hscan⟩
  · obtain ⟨taken, more, hmore, hsource, hscan⟩ := scan_interrupt_other hs fun q hq hle => by
      by_contra hne
      exact hsemi (hfirst q hq hle hne).1
    exact ⟨taken, more, 0, hmore, fun h => absurd rfl h, hsource, hscan⟩

end Cursor

theorem BehindSemicolons.of_cons {options : ScanOptions} {pauses : Pos → Nat} {pos : Pos}
    {bytes : List UInt8} {d : Cursor} {l : Lexeme} {ls : List Lexeme}
    (h : BehindSemicolons pauses pos (l :: ls))
    (hs : Cursor.scan options ⟨.ofBytes bytes, pos⟩ = (.ok (some l), d)) :
    BehindSemicolons pauses d.pos ls := fun q hq hne => by
  obtain ⟨hstart, hlt, hle⟩ := Cursor.span_of_scan hs
  obtain ⟨m, hm, hsemi, rfl⟩ := h q ((hstart.trans hlt.le).trans hle |>.trans_lt hq) hne
  rcases List.mem_cons.mp hm with rfl | hm
  · exact absurd hle (not_le.mpr hq)
  · exact ⟨m, hm, hsemi, rfl⟩

namespace Progress

/-- A semicolon ends the header or a statement. -/
theorem Step.eq_beforeStatement {p q : Progress} {l : Lexeme} {event : Option Event}
    (h : Step p l event q) (hl : l.token = .punct .semicolon) : q = beforeStatement := by
  cases h <;> first | rfl | simp_all [Token.name?, Token.isFlat]

end Progress

namespace Session

variable {options : ScanOptions} {c d e : Cursor} {p q : Progress} {n k : Nat}
  {events : List Event}

/-! ### Runs up to one that succeeds -/

/-- From the cursor and the progress `n` runs fail before a statement, and then one succeeds at the
second cursor. All of them together report the events. -/
inductive Completes (options : ScanOptions) :
    Cursor → Progress → Nat → List Event → Cursor → Prop
  | done {c d : Cursor} {p : Progress} {ts : List Taken} :
      course options c p = ⟨ts, .ok (), d, .finished⟩ →
      Completes options c p 0 (Taken.events ts) d
  | fail {c d e : Cursor} {p : Progress} {ts : List Taken} {n : Nat} {events : List Event}
      {err : ReadError} : course options c p = ⟨ts, .error err, d, .beforeStatement⟩ →
      Completes options d .beforeStatement n events e →
      Completes options c p (n + 1) (Taken.events ts ++ events) e

theorem Completes.of_course_eq (h : Completes options c p n events e)
    (hcourse : course options d p = course options c p) : Completes options d p n events e := by
  cases h with
  | done hok => exact .done (hcourse.trans hok)
  | fail herr h => exact .fail (hcourse.trans herr) h

theorem Completes.take {l : Lexeme} {event : Option Event} (hp : p ≠ .finished)
    (hs : c.scan options = (.ok (some l), d)) (hq : p.settle l = (.ok event, q))
    (h : Completes options d q n events e) :
    Completes options c p n (event.toList ++ events) e := by
  have hcourse : course options c p = (course options d q).after l event := by
    rw [course_eq options c hp]
    simp only [hs, hq]
  cases h with
  | done hok =>
    rw [← Taken.events_cons l]
    exact .done (by rw [hcourse, hok, Course.after])
  | fail herr h =>
    rw [← List.append_assoc, ← Taken.events_cons l]
    exact .fail (by rw [hcourse, herr, Course.after]) h

theorem Completes.retry {err : ReadError}
    (hcourse : course options c p = ⟨[], .error err, d, .beforeStatement⟩)
    (h : Completes options d .beforeStatement n events e) :
    Completes options c p (n + 1) events e := .fail hcourse h

/-- **Before a statement a pause costs at most one run**, and nothing that follows it is lost. -/
theorem Completes.pauses {b : UInt8} {x : Source} {pos : Pos}
    (h : Completes options ⟨.byte b :: x, pos⟩ .beforeStatement n events e) (k : Nat) :
    ∃ m ≤ k + n, Completes options ⟨List.replicate k .pause ++ .byte b :: x, pos⟩
      .beforeStatement m events e := by
  -- the first pause ends the blanks, and the second one, if there is one, ends the input
  induction k using Nat.twoStepInduction with
  | zero => exact ⟨n, (Nat.zero_add n).ge, h⟩
  | one =>
    cases hb : Ascii.isBlank b with
    | true =>
      have hcourse : course options ⟨.pause :: .byte b :: x, pos⟩ .beforeStatement =
          ⟨[], .error ⟨.lexical (.unexpectedByte b), ⟨pos, pos⟩⟩, ⟨.byte b :: x, pos⟩,
            .beforeStatement⟩ := by
        rw [course_eq _ _ (by simp)]
        simp only [Cursor.scan_pause_blank hb]
        rfl
      exact ⟨n + 1, (Nat.add_comm n 1).le, h.retry hcourse⟩
    | false =>
      have hcourse : course options ⟨.pause :: .byte b :: x, pos⟩ .beforeStatement =
          course options ⟨.byte b :: x, pos⟩ .beforeStatement := by
        rw [course_eq _ _ (by simp), course_eq options ⟨.byte b :: x, pos⟩ (by simp)]
        simp only [Cursor.scan_pause_byte hb]
      exact ⟨n, Nat.le_add_left n 1, h.of_course_eq hcourse⟩
  | more k ih _ =>
    obtain ⟨m, hm, h⟩ := ih
    have hcourse : course options
          ⟨.pause :: .pause :: (List.replicate k .pause ++ .byte b :: x), pos⟩ .beforeStatement =
        ⟨[], .error ⟨.grammar (.endOfInput .statement), .empty pos⟩,
          ⟨List.replicate k .pause ++ .byte b :: x, pos⟩, .beforeStatement⟩ := by
      rw [course_eq _ _ (by simp)]
      simp only [Cursor.scan_pause_pause]
      rfl
    exact ⟨m + 1, by omega, h.retry hcourse⟩

section Runs

variable {σ : Type} (o : Observer σ)

theorem runs_one (session : Session) (s : σ) : session.runs o s 1 = session.run o s := by
  simp only [runs]

theorem runs_add_two (session : Session) (s : σ) (n : Nat) :
    session.runs o s (n + 2) =
      (session.run o s).session.runs o (session.run o s).state (n + 1) := by
  induction n with
  | zero => rw [runs, runs_one, runs_one]
  | succ n ih => rw [runs, ih, ← runs]

theorem Completes.runs (h : Completes options c p n events e) (s : σ) :
    let runs := Session.runs o ⟨⟨options, c, none⟩, p⟩ s
    (∀ i < n, (∃ err, (runs (i + 1)).result = .error err) ∧
      (runs (i + 1)).session.progress = .beforeStatement) ∧
      runs (n + 1) = ⟨.ok (), o.replay events s, ⟨⟨options, e, none⟩, .finished⟩⟩ := by
  induction h generalizing s with
  | @done c d p ts hok =>
    refine ⟨fun i hi => absurd hi (Nat.not_lt_zero i), ?_⟩
    rw [runs_one, run_eq_course, hok]
  | @fail c d e p ts n events err herr _ ih =>
    have hrun : Session.run o ⟨⟨options, c, none⟩, p⟩ s = ⟨.error err, o.replay (Taken.events ts) s,
        ⟨⟨options, d, none⟩, .beforeStatement⟩⟩ := by
      rw [run_eq_course, herr]
    obtain ⟨hfail, hok⟩ := ih (o.replay (Taken.events ts) s)
    refine ⟨fun i hi => ?_, ?_⟩
    · cases i with
      | zero =>
        rw [runs_one, hrun]
        exact ⟨⟨err, rfl⟩, rfl⟩
      | succ i =>
        rw [runs_add_two, hrun]
        exact hfail i (Nat.lt_of_succ_lt_succ hi)
    · rw [runs_add_two, hrun, hok, Observer.replay_append]

end Runs

/-! ### Interrupted runs -/

theorem exists_completes {pauses : Pos → Nat} {ts : List Taken} {l : Lexeme} {bytes : List UInt8}
    {pos : Pos}
    (hscans : Cursor.Scans options ⟨.ofBytes bytes, pos⟩
      ((ts ++ [(l, some Event.endmodule)]).map Prod.fst) d)
    (hl : l.token = .keyword .endmodule) (hsteps : Progress.Steps p ts .beforeStatement)
    (hat : BehindSemicolons pauses pos ((ts ++ [(l, some Event.endmodule)]).map Prod.fst)) :
    ∃ n ≤ (interrupt pauses pos bytes).count .pause, ∃ e,
      Completes options ⟨interrupt pauses pos bytes, pos⟩ p n
        (Taken.events (ts ++ [(l, some .endmodule)])) e ∧ e.pos = d.pos := by
  generalize hr : Progress.beforeStatement = r at hsteps
  induction hsteps generalizing bytes pos with
  | nil p =>
    subst hr
    cases hscans with
    | @cons _ d1 _ _ _ hs hnil =>
      obtain ⟨taken, more, k, hmore, hk, hsource, hscan⟩ := Cursor.scan_interrupt hs hnil hat
      cases hnil
      have hcourse := course_finished options
        ⟨List.replicate k .pause ++ interrupt pauses d.pos more, d.pos⟩
      have hend := (Completes.done hcourse).take (by simp) hscan (Progress.Step.endmodule hl).settle
      exact ⟨0, Nat.zero_le _, _, hend, rfl⟩
  | @cons p q r m event ts hstep hsteps ih =>
    subst hr
    cases hscans with
    | @cons _ d1 _ _ _ hs hrest =>
      obtain ⟨taken, more, k, hmore, hk, hsource, hscan⟩ := Cursor.scan_interrupt hs hrest hat
      have hlater := hat.of_cons hs
      obtain ⟨_, pos'⟩ := d1
      subst hmore
      obtain ⟨n, hn, e, hcompletes, he⟩ := ih hrest hlater rfl
      -- the pauses behind this lexeme come before a statement
      obtain ⟨i, hi, hpauses⟩ : ∃ i ≤ k + n, Completes options
          ⟨List.replicate k .pause ++ interrupt pauses pos' more, pos'⟩ q i
          (Taken.events (ts ++ [(l, some .endmodule)])) e := by
        by_cases hzero : k = 0
        · subst hzero
          exact ⟨n, Nat.le_add_left n 0, hcompletes⟩
        · obtain rfl := hstep.eq_beforeStatement (hk hzero)
          cases more with
          | nil =>
            have hsize := hrest.size_add_length_le
            simp [Cursor.size] at hsize
          | cons b more => exact hcompletes.pauses k
      have hne : p ≠ .finished := hstep.ne_finished (hsteps.ne_finished (by simp))
      have hcount : (interrupt pauses pos bytes).count .pause =
          k + (interrupt pauses pos' more).count .pause := by
        rw [hsource, List.count_append, List.count_append, count_pause_ofBytes,
          List.count_replicate_self, Nat.zero_add]
      rw [List.cons_append, Taken.events_cons]
      exact ⟨i, by omega, e, hpauses.take hne hscan hstep.settle, he⟩

/-- **A temporary end of the input between statements loses nothing.** What can be read in one run
can be read in at most one run more than there are pauses, if these stand behind semicolons only.
Each run before that fails and leaves off before a statement, and all of them together report the
events of the run that was not interrupted. -/
theorem runs_interrupted {bytes : List UInt8} {pauses : Pos → Nat}
    (hok : ((ofSource options (.ofBytes bytes)).run .recorder #[]).result = .ok ())
    (hat : ∀ q, pauses q ≠ 0 →
      ∃ l ∈ (course options (.ofSource (.ofBytes bytes)) .beforeModule).taken.map Prod.fst,
        l.token = .punct .semicolon ∧ l.span.limit = q) :
    let whole := (ofSource options (.ofBytes bytes)).run .recorder #[]
    let source := interrupt pauses .start bytes
    let runs := (ofSource options source).runs .recorder #[]
    ∃ n ≤ source.count .pause,
      (∀ i < n, (∃ e, (runs (i + 1)).result = .error e) ∧
        (runs (i + 1)).session.progress = .beforeStatement) ∧
      (runs (n + 1)).result = .ok () ∧ (runs (n + 1)).state = whole.state ∧
      (runs (n + 1)).session.progress = .finished ∧
      (runs (n + 1)).session.stream.pos = whole.session.stream.pos := by
  have hwhole := run_ofSource options (.ofBytes bytes)
  replace hok : (course options (.ofSource (.ofBytes bytes)) .beforeModule).result = .ok () := by
    rwa [hwhole] at hok
  obtain ⟨ts, l, htaken, hl, hsteps⟩ := steps_of_course (by simp) hok
  have hscans := scans_of_course (Cursor.isPlain_ofBytes bytes) hok
  rw [htaken] at hscans hat
  obtain ⟨n, hn, e, hcompletes, he⟩ :=
    exists_completes hscans hl hsteps fun q _ hne => hat q hne
  obtain ⟨hfail, hlast⟩ := hcompletes.runs .recorder #[]
  intro whole source runs
  refine ⟨n, hn, hfail, ?_⟩
  rw [show runs (n + 1) = _ from hlast, show whole = _ from hwhole, htaken,
    Observer.replay_recorder, Array.empty_append]
  exact ⟨rfl, rfl, rfl, he⟩

/-- One pause before a line feed, and three before the last statement. -/
theorem runs_interrupted_of_statements :
    let bytes := Utf8.encode "module m(a);\nwire b;/*1*/assign a=b;endmodule"
    let pauses := fun q : Pos => if q = ⟨1, 13⟩ then 1 else if q = ⟨2, 8⟩ then 3 else 0
    let whole := (ofSource .permissive (.ofBytes bytes)).run .recorder #[]
    let source := interrupt pauses .start bytes
    let runs := (ofSource .permissive source).runs .recorder #[]
    whole.result = .ok () ∧ source.count .pause = 4 ∧
      ∃ n ≤ 4, (runs (n + 1)).result = .ok () ∧ (runs (n + 1)).state = whole.state := by
  intro bytes pauses whole source runs
  have hok : whole.result = .ok () := by decide +kernel
  have hcount : source.count .pause = 4 := by decide +kernel
  have hat (q : Pos) (hq : pauses q ≠ 0) :
      ∃ l ∈ (course .permissive (.ofSource (.ofBytes bytes)) .beforeModule).taken.map Prod.fst,
        l.token = .punct .semicolon ∧ l.span.limit = q := by
    dsimp only [pauses] at hq
    split_ifs at hq with h1 h2
    · rw [h1]
      decide +kernel
    · rw [h2]
      decide +kernel
    · exact absurd rfl hq
  obtain ⟨n, hn, -, hlast, hstate, -⟩ := runs_interrupted hok hat
  exact ⟨hok, hcount, n, hcount ▸ hn, hlast, hstate⟩

end Session

end Netlist
