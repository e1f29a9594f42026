import Netlist.Proofs.Events

/-! # Turns, steps and runs in a row

A run takes turns, each of which is one look at the stream and what the progress makes of it
(`Session.turn`). The turns up to the start of the next stage, or of the next statement, are a step
(`Session.step`). A run takes one step after the other until the module is finished or a step fails
(`Session.steps`, `run_eq_steps`). After a failure it can be run again (`Session.runs`), and all
that runs report is well formed (`Session.wellFormed_of_mem_runs`). -/

namespace Netlist

namespace Progress

/-- A list of names is closed by what follows it. -/
inductive Closes : Progress → Progress → Prop
  | ports (name : String) (ports : Array String) :
      Closes (afterPort name ports) (beforePortsEnd name ports)
  | declared (direction : Direction) (names : Array String) :
      Closes (afterDeclared direction names) (beforeDeclarationEnd direction names)

theorem closes_of_leave {p q : Progress} {l : Lexeme} (h : p.move l = .leave q) : Closes p q := by
  rcases move_eq_leave h with ⟨name, ports, rfl, rfl⟩ | ⟨direction, names, rfl, rfl⟩
  · exact .ports name ports
  · exact .declared direction names

theorem closes_of_atEnd {p q : Progress} {pos : Pos} (h : p.atEnd pos = .ok q) : Closes p q := by
  unfold atEnd at h
  split at h
  · cases h; exact .ports _ _
  · cases h; exact .declared _ _
  · cases h

/-- The progress is the start of its stage. -/
def AtRest (p : Progress) : Prop := p.restart = p

instance (p : Progress) : Decidable p.AtRest := inferInstanceAs (Decidable (p.restart = p))

theorem atRest_restart (p : Progress) : p.restart.AtRest := by cases p <;> rfl

theorem Step.eq_of_isComment {p q : Progress} {l : Lexeme} {e : Event} (h : Step p l (some e) q)
    (he : e.isComment = true) : q = p := by
  cases h <;> first | rfl | simp [Event.isComment] at he

end Progress

namespace Session

/-! ### Turns -/

/-- One turn of a run: the event that it completes or an error, and the session after it. -/
def turn (session : Session) : Except ReadError (Option Event) × Session :=
  match session.stream.peek with
  | (.error e, stream) => (.error e, ⟨stream, session.progress.restart⟩)
  | (.ok none, stream) =>
    match session.progress.atEnd stream.pos with
    | .ok next => (.ok none, ⟨stream, next⟩)
    | .error e => (.error e, ⟨stream, session.progress.restart⟩)
  | (.ok (some l), stream) =>
    match session.progress.move l with
    | .take next event => (.ok event, ⟨stream.drop, next⟩)
    | .leave next => (.ok none, ⟨stream, next⟩)
    | .reject e => (.error e, ⟨stream.drop, session.progress.restart⟩)

/-- A bound on the turns that are still to come. -/
def bound (session : Session) : Nat := 2 * session.stream.size + session.progress.slack

variable {session next : Session} {event : Option Event} {e : ReadError}

theorem bound_turn_lt (h : session.turn = (.ok event, next)) : next.bound < session.bound := by
  unfold turn at h
  split at h
  · cases h
  · rename_i stream hp
    have hs := LexemeStream.size_peek_le hp
    split at h <;> cases h
    rename_i hm
    have := Progress.slack_of_atEnd hm
    simp only [bound]
    omega
  · rename_i l stream hp
    have hs := LexemeStream.size_peek_le hp
    split at h <;> cases h
    · rename_i q hm
      have hd := LexemeStream.size_drop_lt hp
      have := q.slack_le_one
      simp only [bound]
      omega
    · rename_i hm
      have := Progress.slack_of_move_leave hm
      simp only [bound]
      omega

theorem turn_eq_ok (h : session.turn = (.ok event, next)) :
    (∃ l, Progress.Step session.progress l event next.progress) ∨
      event = none ∧ Progress.Closes session.progress next.progress := by
  unfold turn at h
  split at h
  · cases h
  · split at h <;> cases h
    rename_i hm
    exact .inr ⟨rfl, Progress.closes_of_atEnd hm⟩
  · rename_i l stream hp
    split at h <;> cases h <;> rename_i hm
    · exact .inl ⟨l, Progress.step_of_move_take hm⟩
    · exact .inr ⟨rfl, Progress.closes_of_leave hm⟩

/-- A turn that fails goes back to the start of the stage. -/
theorem turn_eq_error (h : session.turn = (.error e, next)) :
    next.progress = session.progress.restart := by
  unfold turn at h
  split at h
  · cases h; rfl
  · split at h <;> cases h
    rfl
  · split at h <;> cases h
    rfl

theorem progress_of_comment (h : session.turn = (.ok event, next))
    (he : event.any Event.isComment = true) : next.progress = session.progress := by
  obtain ⟨e, rfl, he⟩ := (Option.any_eq_true _ _).mp he
  rcases turn_eq_ok h with ⟨l, hs⟩ | ⟨h, -⟩
  · exact hs.eq_of_isComment he
  · cases h

theorem toList_report (event : Option Event) (events : Array Event) :
    (report .recorder event events).toList = events.toList ++ event.toList := by
  rw [report_eq, Observer.replay_recorder, Array.toList_append]

/-! ### Steps -/

section Steps

variable {σ : Type} (o : Observer σ)

/-- The turns up to the start of the next stage or statement. A comment ends no step. -/
def step (o : Observer σ) (session : Session) (s : σ) : Outcome σ :=
  match _h : session.turn with
  | (.error e, next) => ⟨.error e, s, next⟩
  | (.ok event, next) =>
    if next.progress.AtRest ∧ event.any Event.isComment = false then
      ⟨.ok (), report o event s, next⟩
    else step o next (report o event s)
termination_by session.bound
decreasing_by exact bound_turn_lt _h

theorem step_eq (session : Session) (s : σ) : step o session s =
    match session.turn with
    | (.error e, next) => ⟨.error e, s, next⟩
    | (.ok event, next) =>
      if next.progress.AtRest ∧ event.any Event.isComment = false then
        ⟨.ok (), report o event s, next⟩
      else step o next (report o event s) := by
  rw [step]
  split <;> rename_i h <;> simp only [h]

theorem bound_step_lt (session : Session) (s : σ) (h : (step o session s).result = .ok ()) :
    (step o session s).session.bound < session.bound := by
  fun_induction step o session s with
  | case1 => cases h
  | case2 session s event next ht => exact bound_turn_lt ht
  | case3 session s event next ht hr ih => exact (ih h).trans (bound_turn_lt ht)

/-- A step ends at the start of a stage or of a statement. -/
theorem atRest_step (session : Session) (s : σ) :
    (step o session s).session.progress.AtRest := by
  fun_induction step o session s with
  | case1 session s e next h =>
    rw [turn_eq_error h]
    exact Progress.atRest_restart _
  | case2 session s event next h hr => exact hr.1
  | case3 session s event next h hr ih => exact ih

/-- The outcomes of the steps of a run. Only the last of them can be a failure. -/
def steps (o : Observer σ) (session : Session) (s : σ) : List (Outcome σ) :=
  if session.progress = .finished then []
  else
    match _h : (session.step o s).result with
    | .ok () => session.step o s :: steps o (session.step o s).session (session.step o s).state
    | .error _ => [session.step o s]
termination_by session.bound
decreasing_by exact bound_step_lt o session s _h

theorem steps_of_finished (hp : session.progress = .finished) (s : σ) :
    steps o session s = [] := by
  rw [steps, if_pos hp]

theorem steps_of_ok (hp : session.progress ≠ .finished) {s : σ}
    (h : (step o session s).result = .ok ()) : steps o session s =
      step o session s :: steps o (step o session s).session (step o session s).state := by
  rw [steps, if_neg hp]
  split
  · rfl
  · rename_i e he
    cases h.symm.trans he

theorem steps_of_error (hp : session.progress ≠ .finished) {s : σ} {e : ReadError}
    (h : (step o session s).result = .error e) : steps o session s = [step o session s] := by
  rw [steps, if_neg hp]
  split
  · rename_i he
    cases h.symm.trans he
  · rfl

theorem steps_ne_nil (hp : session.progress ≠ .finished) (s : σ) : steps o session s ≠ [] := by
  rw [steps, if_neg hp]
  split <;> simp

theorem run_eq_turn (hp : session.progress ≠ .finished) (s : σ) : run o session s =
    match session.turn with
    | (.error e, next) => ⟨.error e, s, next⟩
    | (.ok event, next) => run o next (report o event s) := by
  rw [run_eq o hp, turn]
  rcases session.stream.peek with ⟨e | _ | l, stream⟩
  · rfl
  · dsimp only
    rcases session.progress.atEnd stream.pos with e | q <;> rfl
  · dsimp only
    rcases session.progress.move l with ⟨q, event⟩ | q | e <;> rfl

theorem run_eq_step (hp : session.progress ≠ .finished) (s : σ) : run o session s =
    match (step o session s).result with
    | .ok () => run o (step o session s).session (step o session s).state
    | .error _ => step o session s := by
  fun_induction step o session s with
  | case1 session s e next ht => rw [run_eq_turn o hp, ht]
  | case2 session s event next ht => rw [run_eq_turn o hp, ht]
  | case3 session s event next ht hr ih =>
    rw [run_eq_turn o hp, ht]
    refine ih fun hn => ?_
    -- only `endmodule` finishes a module, and it ends the step
    cases hc : event.any Event.isComment with
    | false => exact hr ⟨by rw [hn]; rfl, hc⟩
    | true => exact hp (progress_of_comment ht hc ▸ hn)

/-- **A run is the loop over its steps**: it ends as its last step does. -/
theorem run_eq_steps (session : Session) (s : σ) :
    run o session s = (steps o session s).getLastD ⟨.ok (), s, session⟩ := by
  fun_induction steps o session s with
  | case1 session s hp =>
    obtain ⟨stream, p⟩ := session
    subst hp
    exact run_finished o stream s
  | case2 session s hp hr ih =>
    rw [run_eq_step o hp, hr]
    simp only [ih, List.getLastD_cons]
    congr 1
    rcases hk : step o session s with ⟨r, s', next⟩
    rw [hk] at hr
    cases hr
    rfl
  | case3 session s hp e hr =>
    rw [run_eq_step o hp, hr]
    rfl

theorem run_eq_or_mem_steps (session : Session) (s : σ) :
    run o session s = ⟨.ok (), s, session⟩ ∨ run o session s ∈ steps o session s := by
  rw [run_eq_steps]
  rcases steps o session s with _ | ⟨k, ks⟩
  · exact .inl rfl
  · rw [List.getLastD_cons]
    exact .inr List.getLastD_mem_cons

/-- `n` runs in a row, each of the session that the one before it left, whatever that gave. -/
def runs (o : Observer σ) (session : Session) (s : σ) : Nat → Outcome σ
  | 0 => ⟨.ok (), s, session⟩
  | n + 1 => (runs o session s n).session.run o (runs o session s n).state

theorem runs_stream (options : ScanOptions) (source : Source) (s : σ) (n : Nat) :
    ∃ d, ((ofSource options source).runs o s n).session.stream = ⟨options, d, none⟩ := by
  induction n with
  | zero => exact ⟨_, rfl⟩
  | succ n ih =>
    obtain ⟨d, hd⟩ := ih
    rw [runs]
    rcases hk : (ofSource options source).runs o s n with ⟨r, t, ⟨stream, p⟩⟩
    rw [hk] at hd
    dsimp only at hd ⊢
    subst hd
    rw [run_eq_course]
    exact ⟨_, rfl⟩

end Steps

/-! ### What runs report -/

/-- What has been gathered is well formed, and so is what was reported. -/
def Outcome.WellFormed (k : Outcome (Array Event)) : Prop :=
  k.session.progress.WellFormed ∧ ∀ e ∈ k.state.toList, e.WellFormed

theorem Outcome.WellFormed.run {k : Outcome (Array Event)} (h : k.WellFormed)
    {options : ScanOptions} {c : Cursor} (hc : k.session.stream = ⟨options, c, none⟩) :
    (k.session.run .recorder k.state).WellFormed := by
  obtain ⟨r, events, stream, p⟩ := k
  obtain rfl := hc
  obtain ⟨hprogress, hevents⟩ := wellFormed_course options c h.1
  rw [run_eq_course, Observer.replay_recorder]
  refine ⟨hprogress, ?_⟩
  rw [Array.toList_append]
  exact List.forall_mem_append.mpr ⟨h.2, hevents⟩

theorem wellFormed_runs (options : ScanOptions) (source : Source) (n : Nat) :
    ((ofSource options source).runs .recorder #[] n).WellFormed := by
  induction n with
  | zero => exact ⟨trivial, List.forall_mem_nil _⟩
  | succ n ih =>
    obtain ⟨d, hd⟩ := runs_stream .recorder options source #[] n
    exact ih.run hd

/-- **Every event can be written again**, whatever the source holds, wherever it pauses or fails,
and however often reading is taken up again. -/
theorem wellFormed_of_mem_runs (options : ScanOptions) (source : Source) (n : Nat) :
    ∀ e ∈ ((ofSource options source).runs .recorder #[] n).state.toList, e.WellFormed :=
  (wellFormed_runs options source n).2

/-- Two looks at a list of ports find no byte, and reading fails there. The next run starts the list
again, with the ports that are left. -/
theorem wellFormed_of_mem_runs_of_pause :
    let source := Source.ofBytes (Utf8.encode "module m(a,") ++
      Item.pause :: Item.pause :: Source.ofBytes (Utf8.encode "b);")
    Event.header "m" ["b"] ∈ ((ofSource .strict source).runs .recorder #[] 2).state.toList ∧
      (Event.header "m" ["b"]).WellFormed := by
  intro source
  have h : Event.header "m" ["b"] ∈
      ((ofSource .strict source).runs .recorder #[] 2).state.toList := by decide +kernel
  exact ⟨h, wellFormed_of_mem_runs .strict source 2 _ h⟩

end Session

end Netlist
