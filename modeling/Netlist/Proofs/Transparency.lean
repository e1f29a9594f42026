import Netlist.Proofs.Shadow
import Netlist.Proofs.Turns

/-! # Comments change nothing

A session that reads the shadow of a source does what the session that reads the source does, turn
by turn but for the turns that take a comment, and reports the same but for the comments. The
comments that are reported are those that are scanned. Main statement: `runs_blanked`. -/

namespace Netlist

namespace Event

/-- The text of a comment. -/
def comment? : Event → Option String
  | comment text => some text
  | _ => none

theorem comment?_eq_none_iff {e : Event} : e.comment? = none ↔ e.isComment = false := by
  cases e <;> simp [comment?, isComment]

/-- The texts of the comments among the events. -/
def comments (events : Array Event) : List String := events.toList.filterMap comment?

/-- The events that are no comments. -/
def quiet (events : Array Event) : Array Event := events.filter fun e => !e.isComment

end Event

/-! ### What a turn meets -/

namespace Progress

/-- What a turn makes of what it meets: its result, the progress after it, and the lexeme that it
leaves ahead. -/
def meet (p : Progress) (pos : Pos) :
    ScanResult → Except ReadError (Option Event) × Progress × Option Lexeme
  | .error e => (.error e, p.restart, none)
  | .ok none =>
    match p.atEnd pos with
    | .ok q => (.ok none, q, none)
    | .error e => (.error e, p.restart, none)
  | .ok (some l) =>
    match p.move l with
    | .take q event => (.ok event, q, none)
    | .leave q => (.ok none, q, some l)
    | .reject e => (.error e, p.restart, none)

variable {p : Progress} {pos : Pos} {r : ScanResult}

theorem meet_comment {text : String} {span : Span} (h : commentOf? r = some (text, span)) :
    p.meet pos r = (.ok (some (.comment text)), p, none) := by
  rw [commentOf?_eq_some h]
  rfl

theorem Step.isComment_of_isSignificant {q : Progress} {l : Lexeme} {event : Option Event}
    (h : Step p l event q) (hl : l.token.isSignificant = true) :
    ∀ e ∈ event, e.isComment = false := by
  cases h with
  | comment ht => simp [ht, Token.isSignificant] at hl
  | _ => simp [Event.isComment]

/-- Only a comment is reported as one, and none is left ahead. -/
theorem meet_of_commentOf?_eq_none (p : Progress) (pos : Pos) (h : commentOf? r = none) :
    (∀ event, (p.meet pos r).1 = .ok event → ∀ e ∈ event, e.isComment = false) ∧
      ∀ l ∈ (p.meet pos r).2.2, l.token.isSignificant = true := by
  rcases r with e | _ | l
  · simp [meet]
  · rcases hq : p.atEnd pos with e | q <;> simp [meet, hq]
  · have hl := commentOf?_eq_none_iff.mp h
    rcases hm : p.move l with ⟨q, event⟩ | q | e
    · simp only [meet, hm]
      refine ⟨fun event' h' e he => ?_, by simp⟩
      cases h'
      exact (step_of_move_take hm).isComment_of_isSignificant hl e he
    · simp [meet, hm, hl]
    · simp [meet, hm]

end Progress

namespace Session

theorem turn_ahead (options : ScanOptions) (c : Cursor) (l : Lexeme) (p : Progress) :
    turn ⟨⟨options, c, some l⟩, p⟩ = ((p.meet c.pos (.ok (some l))).1,
      ⟨⟨options, c, (p.meet c.pos (.ok (some l))).2.2⟩, (p.meet c.pos (.ok (some l))).2.1⟩) := by
  rcases hm : p.move l with ⟨q, event⟩ | q | e <;>
    simp only [turn, LexemeStream.peek, LexemeStream.drop, Progress.meet, hm]

theorem turn_scan {options : ScanOptions} {c d : Cursor} {r : ScanResult}
    (hs : c.scan options = (r, d)) (p : Progress) :
    turn ⟨⟨options, c, none⟩, p⟩ = ((p.meet d.pos r).1,
      ⟨⟨options, d, (p.meet d.pos r).2.2⟩, (p.meet d.pos r).2.1⟩) := by
  rcases r with e | _ | l
  · simp only [turn, LexemeStream.peek, LexemeStream.next, hs, Progress.meet]
  · rcases hq : p.atEnd d.pos with e | q <;>
      simp only [turn, LexemeStream.peek, LexemeStream.next, hs, Progress.meet, LexemeStream.pos,
        hq]
  · rw [← turn_ahead]
    simp only [turn, LexemeStream.peek, LexemeStream.next, hs]

/-! ### Turns on a shadow -/

/-- The session with another cursor. -/
def on (session : Session) (c : Cursor) : Session :=
  { session with stream := { session.stream with cursor := c } }

/-- The lexeme ahead is no comment. -/
def Significant (session : Session) : Prop :=
  ∀ l ∈ session.stream.ahead, l.token.isSignificant = true

/-- What a turn scans, and what comes of it on a shadow: a comment is reported and is not there on
the shadow, and everything else is the same. -/
inductive TurnShadow (session next : Session) (rs : List ScanResult) :
    Except ReadError (Option Event) → Prop
  | comment {text : String} {span : Span} : comments rs = [(text, span)] →
      (∀ rs' c', session.stream.cursor.Shadows session.stream.options (rs ++ rs') c' →
        ∃ d', (session.on c').turn = (next.on d').turn ∧
          next.stream.cursor.Shadows next.stream.options rs' d') →
      TurnShadow session next rs (.ok (some (.comment text)))
  | other {x : Except ReadError (Option Event)} :
      (∀ event, x = .ok event → ∀ e ∈ event, e.isComment = false) → comments rs = [] →
      (∀ rs' c', session.stream.cursor.Shadows session.stream.options (rs ++ rs') c' →
        ∃ d', (session.on c').turn = (x, next.on d') ∧
          next.stream.cursor.Shadows next.stream.options rs' d') →
      TurnShadow session next rs x

theorem exists_turnShadow {session next : Session} {x : Except ReadError (Option Event)}
    (h : session.turn = (x, next)) (hs : session.Significant) :
    ∃ rs, session.stream.cursor.Yields session.stream.options rs next.stream.cursor ∧
      next.stream.options = session.stream.options ∧ next.Significant ∧
      TurnShadow session next rs x := by
  obtain ⟨⟨options, c, _ | l⟩, p⟩ := session
  · rcases hscan : c.scan options with ⟨r, d⟩
    rw [turn_scan hscan] at h
    refine ⟨[r], ?_⟩
    rcases hr : commentOf? r with _ | ⟨text, span⟩
    · obtain ⟨hevent, hahead⟩ := p.meet_of_commentOf?_eq_none d.pos hr
      cases h
      refine ⟨.cons hscan (.nil d), rfl, hahead, .other hevent ?_ fun rs' c' hc => ?_⟩
      · rw [comments, List.filterMap_cons_none hr]
        rfl
      · obtain ⟨d', hscan', hd⟩ := hc.of_no_comment hscan hr
        refine ⟨d', ?_, hd⟩
        have ht := turn_scan hscan' p
        rwa [hd.pos_eq] at ht
    · rw [Progress.meet_comment hr] at h
      cases h
      refine ⟨.cons hscan (.nil d), rfl, by simp [Significant],
        .comment (List.filterMap_cons_some hr) fun rs' c' hc => ?_⟩
      obtain ⟨d', hskip, hd⟩ := hc.of_comment hscan hr
      refine ⟨d', ?_, hd⟩
      rcases hscan' : d'.scan options with ⟨r', e⟩
      exact (turn_scan (hskip.trans hscan') p).trans (turn_scan hscan' p).symm
  · -- nothing is scanned
    have hr := commentOf?_eq_none_iff.mpr (hs l rfl)
    obtain ⟨hevent, hahead⟩ := p.meet_of_commentOf?_eq_none c.pos hr
    rw [turn_ahead] at h
    cases h
    refine ⟨[], .nil c, rfl, hahead, .other hevent rfl fun rs' c' hc => ⟨c', ?_, hc⟩⟩
    have ht := turn_ahead options c' l p
    rwa [hc.pos_eq] at ht

/-! ### Reports on a shadow -/

section Report

variable {event : Option Event} {events : Array Event}

theorem quiet_report (h : ∀ e ∈ event, e.isComment = false) (events : Array Event) :
    report .recorder event (Event.quiet events) = Event.quiet (report .recorder event events) := by
  refine Array.toList_inj.mp ?_
  rw [toList_report, Event.quiet, Event.quiet, Array.toList_filter, Array.toList_filter,
    toList_report, List.filter_append]
  cases event with
  | none => rfl
  | some e => simp [h e rfl]

theorem quiet_report_comment (text : String) (events : Array Event) :
    Event.quiet (report .recorder (some (.comment text)) events) = Event.quiet events := by
  refine Array.toList_inj.mp ?_
  rw [Event.quiet, Event.quiet, Array.toList_filter, Array.toList_filter, toList_report]
  simp [Event.isComment]

theorem comments_report (event : Option Event) (events : Array Event) :
    Event.comments (report .recorder event events) =
      Event.comments events ++ event.toList.filterMap Event.comment? := by
  rw [Event.comments, toList_report, List.filterMap_append]
  rfl

theorem TurnShadow.comments_eq {session next : Session} {rs : List ScanResult}
    (h : TurnShadow session next rs (.ok event)) :
    event.toList.filterMap Event.comment? = (comments rs).map Prod.fst := by
  cases h with
  | comment hone =>
    rw [hone]
    rfl
  | other hevent hnone =>
    rw [hnone]
    exact List.filterMap_eq_nil_iff.mpr fun e he =>
      Event.comment?_eq_none_iff.mpr (hevent event rfl e (Option.mem_toList.mp he))

end Report

/-! ### Steps and runs on a shadow -/

/-- From a session and what was recorded to an outcome: the results that were scanned, among which
the comments are those that were recorded, and the outcome of a session on a shadow, in which only
the comments are not recorded. -/
structure Transparent (session : Session) (events : Array Event) (rs : List ScanResult)
    (k : Outcome (Array Event)) (shadow : Cursor → Outcome (Array Event)) : Prop where
  options : k.session.stream.options = session.stream.options
  significant : k.session.Significant
  yields : session.stream.cursor.Yields session.stream.options rs k.session.stream.cursor
  reported : Event.comments k.state = Event.comments events ++ (comments rs).map Prod.fst
  quiet : ∀ rs' c', session.stream.cursor.Shadows session.stream.options (rs ++ rs') c' →
    ∃ d', k.session.stream.cursor.Shadows k.session.stream.options rs' d' ∧
      shadow c' = ⟨k.result, Event.quiet k.state, k.session.on d'⟩

theorem comments_append (rs rs' : List ScanResult) :
    comments (rs ++ rs') = comments rs ++ comments rs' := List.filterMap_append

theorem Transparent.trans {session : Session} {events : Array Event} {rs rs' : List ScanResult}
    {k k' : Outcome (Array Event)} {f g f' : Cursor → Outcome (Array Event)}
    (h : Transparent session events rs k f) (h' : Transparent k.session k.state rs' k' g)
    (hf : ∀ c' d', f c' = ⟨k.result, Event.quiet k.state, k.session.on d'⟩ → f' c' = g d') :
    Transparent session events (rs ++ rs') k' f' where
  options := h'.options.trans h.options
  significant := h'.significant
  yields := h.yields.append (h.options ▸ h'.yields)
  reported := by
    rw [h'.reported, h.reported, comments_append, List.map_append, List.append_assoc]
  quiet rs'' c' hc := by
    rw [List.append_assoc] at hc
    obtain ⟨d', hd, hshadow⟩ := h.quiet _ c' hc
    obtain ⟨e', he, hshadow'⟩ := h'.quiet _ d' hd
    exact ⟨e', he, (hf c' d' hshadow).trans hshadow'⟩

theorem exists_transparent_step (session : Session) (events : Array Event)
    (hs : session.Significant) :
    ∃ rs, Transparent session events rs (session.step .recorder events)
      fun c' => (session.on c').step .recorder (Event.quiet events) := by
  fun_induction step .recorder session events with
  | case1 session events e next ht =>
    obtain ⟨rs, hy, ho, hsig, hturn⟩ := exists_turnShadow ht hs
    cases hturn with
    | other _ hnone hshadow =>
      refine ⟨rs, ho, hsig, hy, by simp [hnone], fun rs' c' hc => ?_⟩
      obtain ⟨d', ht', hd⟩ := hshadow rs' c' hc
      exact ⟨d', hd, by rw [step_eq, ht']⟩
  | case2 session events event next ht hr =>
    obtain ⟨rs, hy, ho, hsig, hturn⟩ := exists_turnShadow ht hs
    have hcomments := hturn.comments_eq
    cases hturn with
    | comment => exact absurd hr.2 (by simp [Event.isComment])
    | other hevent _ hshadow =>
      refine ⟨rs, ho, hsig, hy, by rw [comments_report, hcomments], fun rs' c' hc => ?_⟩
      obtain ⟨d', ht', hd⟩ := hshadow rs' c' hc
      refine ⟨d', hd, ?_⟩
      rw [step_eq, ht', ← quiet_report (hevent event rfl)]
      exact if_pos hr
  | case3 session events event next ht hr ih =>
    obtain ⟨rs, hy, ho, hsig, hturn⟩ := exists_turnShadow ht hs
    obtain ⟨rs', hk⟩ := ih hsig
    refine ⟨rs ++ rs', hk.options.trans ho, hk.significant, hy.append (ho ▸ hk.yields), ?_,
      fun rs'' c' hc => ?_⟩
    · rw [hk.reported, comments_report, hturn.comments_eq, comments_append, List.map_append,
        List.append_assoc]
    · rw [List.append_assoc] at hc
      cases hturn with
      | comment _ hshadow =>
        -- the shadow has nothing to take here
        obtain ⟨d', ht', hd⟩ := hshadow _ c' hc
        obtain ⟨e', he, hstep⟩ := hk.quiet _ d' hd
        refine ⟨e', he, ?_⟩
        rw [quiet_report_comment, step_eq] at hstep
        rw [step_eq, ht', hstep]
      | other hevent _ hshadow =>
        obtain ⟨d', ht', hd⟩ := hshadow _ c' hc
        obtain ⟨e', he, hstep⟩ := hk.quiet _ d' hd
        refine ⟨e', he, ?_⟩
        rw [step_eq, ht', ← hstep, ← quiet_report (hevent event rfl)]
        exact if_neg hr

/-- The second outcome is the first one without the comments that were recorded. -/
structure Outcome.Mirrors (k k' : Outcome (Array Event)) : Prop where
  result : k'.result = k.result
  progress : k'.session.progress = k.session.progress
  pos : k'.session.stream.pos = k.session.stream.pos
  events : k'.state = Event.quiet k.state

theorem Outcome.mirrors_on {k : Outcome (Array Event)} {options : ScanOptions}
    {rs : List ScanResult} {d' : Cursor} (h : k.session.stream.cursor.Shadows options rs d') :
    k.Mirrors ⟨k.result, Event.quiet k.state, k.session.on d'⟩ :=
  ⟨rfl, rfl, h.pos_eq, rfl⟩

/-- A run on a shadow takes the same steps. -/
theorem exists_transparent_run (session : Session) (events : Array Event)
    (hs : session.Significant) :
    ∃ rs, (Transparent session events rs (session.run .recorder events)
        fun c' => (session.on c').run .recorder (Event.quiet events)) ∧
      ∀ rs' c', session.stream.cursor.Shadows session.stream.options (rs ++ rs') c' →
        List.Forall₂ Outcome.Mirrors (session.steps .recorder events)
          ((session.on c').steps .recorder (Event.quiet events)) := by
  fun_induction steps Observer.recorder session events with
  | case1 session events hp =>
    obtain ⟨stream, p⟩ := session
    subst hp
    refine ⟨[], ?_, fun rs' c' _ => ?_⟩
    · rw [run_finished]
      exact ⟨rfl, hs, .nil _, (List.append_nil _).symm,
        fun rs' c' hc => ⟨c', hc, run_finished .recorder _ _⟩⟩
    · rw [steps_of_finished .recorder rfl]
      exact .nil
  | case2 session events hp hr ih =>
    have hp' (c' : Cursor) : (session.on c').progress ≠ .finished := hp
    obtain ⟨rs, hstep⟩ := exists_transparent_step session events hs
    obtain ⟨rs', hrun, hsteps⟩ := ih hstep.significant
    have hk : run .recorder session events = run .recorder (session.step .recorder events).session
        (session.step .recorder events).state := by rw [run_eq_step .recorder hp, hr]
    refine ⟨rs ++ rs', ?_, fun rs'' c' hc => ?_⟩
    · rw [hk]
      refine hstep.trans hrun fun c' d' hf => ?_
      rw [run_eq_step .recorder (hp' c'), hf, hr]
    · rw [List.append_assoc] at hc
      obtain ⟨d', hd, hf⟩ := hstep.quiet _ c' hc
      rw [steps_of_ok .recorder (hp' c') (by rw [hf]; exact hr), hf]
      exact .cons (Outcome.mirrors_on hd) (hsteps _ d' hd)
  | case3 session events hp e hr =>
    have hp' (c' : Cursor) : (session.on c').progress ≠ .finished := hp
    obtain ⟨rs, hstep⟩ := exists_transparent_step session events hs
    have hk : run .recorder session events = session.step .recorder events := by
      rw [run_eq_step .recorder hp, hr]
    refine ⟨rs, ?_, fun rs' c' hc => ?_⟩
    · rw [hk]
      refine { hstep with quiet := fun rs' c' hc => ?_ }
      obtain ⟨d', hd, hf⟩ := hstep.quiet rs' c' hc
      refine ⟨d', hd, ?_⟩
      rw [run_eq_step .recorder (hp' c'), hf, hr]
    · obtain ⟨d', hd, hf⟩ := hstep.quiet rs' c' hc
      rw [steps_of_error .recorder (hp' c') (by rw [hf]; exact hr), hf]
      exact .cons (Outcome.mirrors_on hd) .nil

theorem exists_transparent_runs {session : Session} (hs : session.Significant)
    (events : Array Event) (n : Nat) :
    ∃ rs, (Transparent session events rs (session.runs .recorder events n)
        fun c' => (session.on c').runs .recorder (Event.quiet events) n) ∧
      ∀ rs' c', session.stream.cursor.Shadows session.stream.options (rs ++ rs') c' →
        let original := session.runs .recorder events
        let shadow := (session.on c').runs .recorder (Event.quiet events)
        (∀ i ≤ n, (original i).Mirrors (shadow i)) ∧
          ∀ i < n, List.Forall₂ Outcome.Mirrors
            ((original i).session.steps .recorder (original i).state)
            ((shadow i).session.steps .recorder (shadow i).state) := by
  induction n with
  | zero =>
    refine ⟨[], ⟨rfl, hs, .nil _, (List.append_nil _).symm, fun rs' c' hc => ⟨c', hc, rfl⟩⟩,
      fun rs' c' hc => ⟨fun i hi => ?_, fun i hi => absurd hi (Nat.not_lt_zero i)⟩⟩
    obtain rfl := Nat.le_zero.mp hi
    exact Outcome.mirrors_on (k := ⟨.ok (), events, session⟩) hc
  | succ n ih =>
    obtain ⟨rs, hruns, hbefore⟩ := ih
    obtain ⟨rs', hrun, hsteps⟩ := exists_transparent_run _
      (session.runs .recorder events n).state hruns.significant
    have hnext : Transparent session events (rs ++ rs') (session.runs .recorder events (n + 1))
        fun c' => (session.on c').runs .recorder (Event.quiet events) (n + 1) :=
      hruns.trans hrun fun c' d' hf => by rw [runs, hf]
    refine ⟨rs ++ rs', hnext, fun rs'' c' hc => ?_⟩
    obtain ⟨e', he, hf'⟩ := hnext.quiet rs'' c' hc
    rw [List.append_assoc] at hc
    obtain ⟨d', hd, hf⟩ := hruns.quiet _ c' hc
    obtain ⟨hmirrors, hall⟩ := hbefore _ c' hc
    refine ⟨fun i hi => ?_, fun i hi => ?_⟩
    · rcases Nat.le_succ_iff.mp hi with hi | rfl
      · exact hmirrors i hi
      · rw [hf']
        exact Outcome.mirrors_on he
    · rcases Nat.lt_succ_iff_lt_or_eq.mp hi with hi | rfl
      · exact hall i hi
      · rw [hf]
        exact hsteps rs'' d' hd

/-- **Line comments are transparent, and none is lost.** After any number of runs of a source of
bytes the comments that were reported are those that were scanned, in their order. If these are
blanked, the runs take the same steps with the same results and through the same progress, and
report the same events but the comments. -/
theorem runs_blanked (options : ScanOptions) (bytes : List UInt8) (n : Nat) :
    let original := (ofSource options (.ofBytes bytes)).runs .recorder #[]
    ∃ rs d, (Cursor.ofSource (.ofBytes bytes)).Yields options rs d ∧
      (original n).session.stream = ⟨options, d, none⟩ ∧
      Event.comments (original n).state = (comments rs).map Prod.fst ∧
      let source := Source.ofBytes (blank ((comments rs).map Prod.snd) .start bytes)
      let blanked := (ofSource options source).runs .recorder #[]
      (∀ i ≤ n, (original i).Mirrors (blanked i)) ∧
        ∀ i < n, List.Forall₂ Outcome.Mirrors
          ((original i).session.steps .recorder (original i).state)
          ((blanked i).session.steps .recorder (blanked i).state) := by
  intro original
  have hs : (ofSource options (.ofBytes bytes)).Significant := fun l hl => nomatch hl
  obtain ⟨rs, hruns, hmirrors⟩ := exists_transparent_runs hs #[] n
  obtain ⟨d, hd⟩ := runs_stream .recorder options (.ofBytes bytes) #[] n
  have hyields := hruns.yields
  rw [hd] at hyields
  refine ⟨rs, d, hyields, hd, hruns.reported, ?_⟩
  exact hmirrors [] _ (by rw [List.append_nil]; exact hyields.shadows_blank rfl)

end Session

end Netlist
