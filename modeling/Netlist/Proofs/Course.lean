import Mathlib.Data.List.ReduceOption
import Netlist.Proofs.Step
import Netlist.Proofs.Reaches
import Netlist.Read

/-! # The course of a run

What a run makes of a source does not depend on its observer: it takes lexemes, some of which
complete an event, and then it ends (`Session.course`). The observer is told about the events in
their order and sees nothing else (`Session.run_eq_course`).

The course of a run that succeeds is a chain of steps up to a last lexeme `endmodule`
(`Session.steps_of_course`), and every such chain is the course of a run
(`Session.course_of_steps`). -/

namespace Netlist

/-! ### Results in a row -/

namespace LexemeStream

/-- The results of reading on `n` times in a row. -/
def results : Nat → LexemeStream → List (Except ReadError (Option Lexeme))
  | 0, _ => []
  | n + 1, s => s.next.1 :: results n s.next.2

theorem results_of_scans {options : ScanOptions} {c d : Cursor} {ls : List Lexeme}
    (h : Cursor.Scans options c ls d) :
    results ls.length ⟨options, c, none⟩ = ls.map (.ok ∘ some) := by
  induction h with
  | nil => rfl
  | cons hl _ ih => simp [results, next, hl, ih]

theorem scans_of_results {options : ScanOptions} {ls : List Lexeme} {c : Cursor}
    (h : results ls.length ⟨options, c, none⟩ = ls.map (.ok ∘ some)) :
    ∃ d, Cursor.Scans options c ls d := by
  induction ls generalizing c with
  | nil => exact ⟨c, .nil c⟩
  | cons l ls ih =>
    rcases hl : c.scan options with ⟨r, d⟩
    simp only [List.length_cons, results, next, hl, List.map_cons, List.cons.injEq] at h
    obtain ⟨rfl, h⟩ := h
    obtain ⟨e, he⟩ := ih h
    exact ⟨e, .cons hl he⟩

end LexemeStream

/-! ### Chains of steps -/

/-- A lexeme that was taken and the event that it completed, if any. -/
abbrev Taken := Lexeme × Option Event

namespace Taken

/-- The events in their order. -/
def events (ts : List Taken) : List Event := ts.filterMap Prod.snd

@[simp] theorem events_nil : events [] = [] := rfl

@[simp] theorem events_cons (l : Lexeme) (event : Option Event) (ts : List Taken) :
    events ((l, event) :: ts) = event.toList ++ events ts := by
  cases event <;> rfl

@[simp] theorem events_append (ts us : List Taken) : events (ts ++ us) = events ts ++ events us :=
  List.filterMap_append

end Taken

namespace Progress

/-- The lexemes can be taken one after the other, with their events. -/
inductive Steps : Progress → List Taken → Progress → Prop
  | nil (p : Progress) : Steps p [] p
  | cons {p q r : Progress} {l : Lexeme} {event : Option Event} {ts : List Taken} :
      Step p l event q → Steps q ts r → Steps p ((l, event) :: ts) r

theorem Steps.append {p q r : Progress} {ts us : List Taken} (h : Steps p ts q)
    (h' : Steps q us r) : Steps p (ts ++ us) r := by
  induction h with
  | nil => exact h'
  | cons hs _ ih => exact .cons hs (ih h')

theorem Steps.single {p q : Progress} {l : Lexeme} {event : Option Event} (h : Step p l event q) :
    Steps p [(l, event)] q := .cons h (.nil q)

/-- Only comments are taken at the end of a module. -/
theorem Step.ne_finished {p q : Progress} {l : Lexeme} {event : Option Event}
    (h : Step p l event q) (hq : q ≠ finished) : p ≠ finished := by
  cases h <;> first | assumption | simp

theorem Steps.ne_finished {p q : Progress} {ts : List Taken} (h : Steps p ts q)
    (hq : q ≠ finished) : p ≠ finished := by
  induction h with
  | nil => exact hq
  | cons hs _ ih => exact hs.ne_finished (ih hq)

theorem Step.eq_endmodule {p : Progress} {l : Lexeme} {event : Option Event}
    (h : Step p l event finished) (hp : p ≠ finished) :
    p = beforeStatement ∧ event = some .endmodule ∧ l.token = .keyword .endmodule := by
  cases h with
  | comment => exact absurd rfl hp
  | endmodule hl => exact ⟨rfl, rfl, hl⟩

theorem Step.ne_endmodule {p q : Progress} {l : Lexeme} {event : Option Event}
    (h : Step p l event q) (hq : q ≠ finished) : l.token ≠ .keyword .endmodule := by
  cases h with
  | endmodule => exact absurd rfl hq
  | name hn | port hn | declared hn | target hn => exact Token.ne_keyword_of_name? hn _
  | declaration direction hl => rw [hl]; cases direction <;> simp [Direction.keyword]
  | flat hf => rintro hl; simp [hl, Token.isFlat] at hf
  | comment hl | module hl | portsStart hl | portComma hl | portsEnd hl | portsEndLate hl
  | headerEnd hl | declaredComma hl | declarationEnd hl | declarationEndLate hl | assignment hl
  | equals hl | openParen hl | closeParen hl | gate hl => simp [hl]

theorem Steps.ne_endmodule {p q : Progress} {ts : List Taken} (h : Steps p ts q)
    (hq : q ≠ finished) : ∀ t ∈ ts, t.1.token ≠ .keyword .endmodule := by
  induction h with
  | nil => simp
  | cons hs h ih => exact List.forall_mem_cons.mpr ⟨hs.ne_endmodule (h.ne_finished hq), ih hq⟩

/-- The end of the input never finishes a module, and a second end in a row is an error. -/
theorem of_atEnd {p q : Progress} {pos : Pos} (h : p.atEnd pos = .ok q) :
    q ≠ finished ∧ ∀ pos, ∃ e, q.atEnd pos = .error e := by
  unfold atEnd at h
  split at h <;> cases h <;> exact ⟨by simp, fun pos => ⟨_, rfl⟩⟩

/-- A list that the end of the input closes can also be closed by the lexeme that closes it then. -/
theorem Steps.of_atEnd {p q : Progress} {pos : Pos} {ts : List Taken} (hq : p.atEnd pos = .ok q)
    (h : Steps q ts beforeStatement) : Steps p ts beforeStatement := by
  generalize hr : beforeStatement = r at h
  induction h with
  | nil q =>
    subst hr
    unfold atEnd at hq
    split at hq <;> simp at hq
  | @cons q q' r l event ts hs h ih =>
    subst hr
    unfold atEnd at hq
    split at hq
    · cases hq
      cases hs with
      | comment hl => exact .cons (.comment hl) (ih rfl rfl)
      | portsEndLate hl => exact .cons (.portsEnd hl) h
    · cases hq
      cases hs with
      | comment hl => exact .cons (.comment hl) (ih rfl rfl)
      | declarationEndLate hl => exact .cons (.declarationEnd hl) h
    · cases hq

end Progress

/-! ### Courses -/

namespace Session

/-- What a run takes, how it ends, and the cursor and the progress after it. -/
structure Course where
  taken : List Taken
  result : Except ReadError Unit
  cursor : Cursor
  progress : Progress

/-- The course before which a lexeme is taken. -/
def Course.after (l : Lexeme) (event : Option Event) (k : Course) : Course :=
  { k with taken := (l, event) :: k.taken }

/-- The course of a run from the cursor, when nothing was scanned ahead. -/
def course (options : ScanOptions) (c : Cursor) (p : Progress) : Course :=
  if p = .finished then ⟨[], .ok (), c, p⟩
  else
    match _hs : c.scan options with
    | (.error e, d) => ⟨[], .error e, d, p.restart⟩
    | (.ok none, d) =>
      match _hq : p.atEnd d.pos with
      | .ok q => course options d q
      | .error e => ⟨[], .error e, d, p.restart⟩
    | (.ok (some l), d) =>
      match p.settle l with
      | (.ok event, q) => (course options d q).after l event
      | (.error e, q) => ⟨[], .error e, d, q⟩
termination_by 2 * c.size + p.slack
decreasing_by
  · have h1 := Progress.slack_of_atEnd _hq
    rcases Cursor.size_scan _hs with h2 | h2 <;> omega
  · have h1 := q.slack_le_one
    rcases Cursor.size_scan _hs with h2 | h2
    · omega
    · exact absurd h2.1 (by simp)

theorem course_finished (options : ScanOptions) (c : Cursor) :
    course options c .finished = ⟨[], .ok (), c, .finished⟩ := by
  rw [course, if_pos rfl]

theorem course_eq (options : ScanOptions) (c : Cursor) {p : Progress} (hp : p ≠ .finished) :
    course options c p =
      match c.scan options with
      | (.error e, d) => ⟨[], .error e, d, p.restart⟩
      | (.ok none, d) =>
        match p.atEnd d.pos with
        | .ok q => course options d q
        | .error e => ⟨[], .error e, d, p.restart⟩
      | (.ok (some l), d) =>
        match p.settle l with
        | (.ok event, q) => (course options d q).after l event
        | (.error e, q) => ⟨[], .error e, d, q⟩ := by
  rw [course, if_neg hp]
  split <;> rename_i h <;> simp only [h]
  split <;> rename_i hq <;> simp only [hq]

section Run

variable {σ : Type} (o : Observer σ)

theorem run_finished (stream : LexemeStream) (s : σ) :
    run o ⟨stream, .finished⟩ s = ⟨.ok (), s, ⟨stream, .finished⟩⟩ := by
  rw [run, if_pos rfl]

theorem run_eq {session : Session} (hp : session.progress ≠ .finished) (s : σ) :
    run o session s =
      match session.stream.peek with
      | (.error e, stream) => ⟨.error e, s, ⟨stream, session.progress.restart⟩⟩
      | (.ok none, stream) =>
        match session.progress.atEnd stream.pos with
        | .ok next => run o ⟨stream, next⟩ s
        | .error e => ⟨.error e, s, ⟨stream, session.progress.restart⟩⟩
      | (.ok (some l), stream) =>
        match session.progress.move l with
        | .take next event => run o ⟨stream.drop, next⟩ (report o event s)
        | .leave next => run o ⟨stream, next⟩ s
        | .reject e => ⟨.error e, s, ⟨stream.drop, session.progress.restart⟩⟩ := by
  rw [run, if_neg hp]
  split <;> rename_i h <;> simp only [h] <;> split <;> rename_i hm <;> simp only [hm]

theorem run_ahead (options : ScanOptions) (c : Cursor) (l : Lexeme) {p : Progress}
    (hp : p ≠ .finished) (s : σ) :
    run o ⟨⟨options, c, some l⟩, p⟩ s =
      match p.settle l with
      | (.ok event, q) => run o ⟨⟨options, c, none⟩, q⟩ (report o event s)
      | (.error e, q) => ⟨.error e, s, ⟨⟨options, c, none⟩, q⟩⟩ := by
  fun_induction Progress.settle p l with
  | case1 p next event h =>
    rw [run_eq o hp]
    simp only [LexemeStream.peek, h, LexemeStream.drop]
  | case2 p next h ih =>
    rw [run_eq o hp]
    simp only [LexemeStream.peek, h]
    refine ih ?_
    rcases Progress.move_eq_leave h with ⟨_, _, -, rfl⟩ | ⟨_, _, -, rfl⟩ <;> simp
  | case3 p e h =>
    rw [run_eq o hp]
    simp only [LexemeStream.peek, h, LexemeStream.drop]

theorem report_eq (event : Option Event) (s : σ) :
    report o event s = o.replay event.toList s := by
  cases event <;> rfl

/-- **A run is its course**, and the observer sees the events of the course only. -/
theorem run_eq_course (options : ScanOptions) (c : Cursor) (p : Progress) (s : σ) :
    run o ⟨⟨options, c, none⟩, p⟩ s =
      ⟨(course options c p).result, o.replay (Taken.events (course options c p).taken) s,
        ⟨⟨options, (course options c p).cursor, none⟩, (course options c p).progress⟩⟩ := by
  fun_induction course options c p generalizing s with
  | case1 c => exact run_finished o _ s
  | case2 c p hp e d hs =>
    rw [run_eq o hp]
    simp only [LexemeStream.peek, LexemeStream.next, hs]
    rfl
  | case3 c p hp d hs q hq ih =>
    rw [run_eq o hp]
    simp only [LexemeStream.peek, LexemeStream.next, hs, LexemeStream.pos, hq]
    exact ih s
  | case4 c p hp d hs e hq =>
    rw [run_eq o hp]
    simp only [LexemeStream.peek, LexemeStream.next, hs, LexemeStream.pos, hq]
    rfl
  | case5 c p hp l d hs event q hq ih =>
    have h : run o ⟨⟨options, c, none⟩, p⟩ s = run o ⟨⟨options, d, some l⟩, p⟩ s := by
      rw [run_eq o hp, run_eq o hp]
      simp only [LexemeStream.peek, LexemeStream.next, hs]
    rw [h, run_ahead o options d l hp, hq]
    simp only [ih, Course.after, Taken.events_cons, Observer.replay_append, report_eq]
  | case6 c p hp l d hs e q hq =>
    have h : run o ⟨⟨options, c, none⟩, p⟩ s = run o ⟨⟨options, d, some l⟩, p⟩ s := by
      rw [run_eq o hp, run_eq o hp]
      simp only [LexemeStream.peek, LexemeStream.next, hs]
    rw [h, run_ahead o options d l hp, hq]
    rfl

end Run

/-! ### Courses that succeed -/

theorem steps_of_course {options : ScanOptions} {c : Cursor} {p : Progress} (hp : p ≠ .finished)
    (h : (course options c p).result = .ok ()) :
    ∃ ts l, (course options c p).taken = ts ++ [(l, some .endmodule)] ∧
      l.token = .keyword .endmodule ∧ Progress.Steps p ts .beforeStatement := by
  fun_induction course options c p with
  | case1 => exact absurd rfl hp
  | case2 => simp at h
  | case3 c p _ d hs q hq ih =>
    obtain ⟨ts, l, ht, hl, hsteps⟩ := ih (Progress.of_atEnd hq).1 h
    exact ⟨ts, l, ht, hl, hsteps.of_atEnd hq⟩
  | case4 => simp at h
  | case5 c p _ l d hs event q hq ih =>
    have hstep := Progress.step_of_settle hq
    by_cases hf : q = .finished
    · subst hf
      obtain ⟨rfl, rfl, hl⟩ := hstep.eq_endmodule hp
      rw [course_finished] at ih ⊢
      exact ⟨[], l, rfl, hl, .nil _⟩
    · obtain ⟨ts, m, ht, hm, hsteps⟩ := ih hf h
      exact ⟨(l, event) :: ts, m, by simp only [Course.after, ht, List.cons_append], hm,
        .cons hstep hsteps⟩
  | case6 => simp at h

/-- The lexemes of a run that succeeds are the results of reading on, less the ends of the input
that were met. -/
theorem results_of_course {options : ScanOptions} {c : Cursor} {p : Progress}
    (h : (course options c p).result = .ok ()) :
    ∃ rs : List (Option Lexeme),
      LexemeStream.results rs.length ⟨options, c, none⟩ = rs.map .ok ∧
        rs.reduceOption = (course options c p).taken.map Prod.fst := by
  fun_induction course options c p with
  | case1 => exact ⟨[], rfl, rfl⟩
  | case2 => simp at h
  | case3 c p _ d hs q hq ih =>
    obtain ⟨rs, hr, hm⟩ := ih h
    exact ⟨none :: rs, by simp [LexemeStream.results, LexemeStream.next, hs, hr], hm⟩
  | case4 => simp at h
  | case5 c p _ l d hs event q hq ih =>
    obtain ⟨rs, hr, hm⟩ := ih h
    refine ⟨some l :: rs, by simp [LexemeStream.results, LexemeStream.next, hs, hr], ?_⟩
    rw [List.reduceOption_cons_of_some, hm]
    rfl
  | case6 => simp at h

/-- A source of bytes alone is scanned without an end of the input before the last lexeme. -/
theorem scans_of_course {options : ScanOptions} {c : Cursor} {p : Progress} (hc : c.IsPlain)
    (h : (course options c p).result = .ok ()) :
    c.Scans options ((course options c p).taken.map Prod.fst) (course options c p).cursor := by
  fun_induction course options c p with
  | case1 c => exact .nil c
  | case2 => simp at h
  | case3 c p _ d hs q hq ih =>
    have hd := Cursor.rest_eq_nil_of_scan hc hs
    obtain ⟨hne, hend⟩ := Progress.of_atEnd hq
    obtain ⟨e, he⟩ := hend d.pos
    rw [course_eq options d hne, Cursor.scan_of_rest_eq_nil options hd] at h
    simp [he] at h
  | case4 => simp at h
  | case5 c p _ l d hs event q hq ih => exact .cons hs (ih (hc.scan hs) h)
  | case6 => simp at h

theorem course_of_steps_append {options : ScanOptions} {c d : Cursor} {p q : Progress}
    {ts : List Taken} (hc : c.Scans options (ts.map Prod.fst) d) (h : Progress.Steps p ts q)
    (hq : q ≠ .finished) : course options c p =
      { course options d q with taken := ts ++ (course options d q).taken } := by
  induction h generalizing c with
  | nil q =>
    cases hc
    rfl
  | @cons p q r m event ts hstep h ih =>
    cases hc with
    | cons hs hc =>
      rw [course_eq options c (hstep.ne_finished (h.ne_finished hq))]
      simp only [hs, hstep.settle, ih hc hq]
      rfl

theorem course_of_steps {options : ScanOptions} {c d : Cursor} {p : Progress} {ts : List Taken}
    {l : Lexeme} (hc : c.Scans options ((ts ++ [(l, some Event.endmodule)]).map Prod.fst) d)
    (hl : l.token = .keyword .endmodule) (h : Progress.Steps p ts .beforeStatement) :
    course options c p = ⟨ts ++ [(l, some .endmodule)], .ok (), d, .finished⟩ := by
  rw [List.map_append] at hc
  obtain ⟨e, hbefore, hlast⟩ := hc.exists_append
  rw [course_of_steps_append hbefore h (by simp)]
  cases hlast with
  | cons hs hnil =>
    cases hnil
    rw [course_eq options e (by simp)]
    simp only [hs, (Progress.Step.endmodule hl).settle, course_finished]
    rfl

end Session

/-- **Reading is a course from the start of the source.** -/
theorem read_eq {σ : Type} (options : ScanOptions) (source : Source) (o : Observer σ) (s : σ) :
    read options source o s =
      ((Session.course options (.ofSource source) .beforeModule).result,
        o.replay
          (Taken.events (Session.course options (.ofSource source) .beforeModule).taken) s) := by
  simp only [read, Session.ofSource, Session.ofStream, LexemeStream.ofSource,
    Session.run_eq_course]

theorem read_recorder (options : ScanOptions) (source : Source) :
    read options source .recorder #[] =
      ((Session.course options (.ofSource source) .beforeModule).result,
        (Taken.events
          (Session.course options (.ofSource source) .beforeModule).taken).toArray) := by
  rw [read_eq, Observer.replay_recorder, Array.empty_append]

end Netlist
