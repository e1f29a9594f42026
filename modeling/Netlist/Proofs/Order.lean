import Netlist.Proofs.Turns

/-! # The order of what is reported

A source may pause, and reading it may fail and be taken up again any number of times. Still the
stages only go forward, and the events that were reported are those of one module as far as the
stage says (`Reported`). A step that fails changes neither: it goes back to where it began and has
reported comments only. Main statement: `leads_of_runs`. -/

namespace Netlist

/-! ### Stages -/

namespace Stage

/-- The place of a stage in the order of the stages. -/
def rank : Stage → Nat
  | beforeModule => 0
  | beforeName => 1
  | inPorts => 2
  | beforePortsEnd => 3
  | beforeHeaderEnd => 4
  | inBody => 5
  | finished => 6

instance : LE Stage := ⟨fun a b => a.rank ≤ b.rank⟩

instance (a b : Stage) : Decidable (a ≤ b) := inferInstanceAs (Decidable (a.rank ≤ b.rank))

protected theorem le_refl (a : Stage) : a ≤ a := Nat.le_refl a.rank

protected theorem le_trans {a b c : Stage} (h : a ≤ b) (h' : b ≤ c) : a ≤ c := Nat.le_trans h h'

/-- The events that were reported up to a stage: comments before the body, a whole module at the
end. -/
def Reached (stage : Stage) (events : List Event) : Prop :=
  match stage with
  | inBody => ∃ comments name ports body, events = comments ++ .header name ports :: body ∧
      (∀ e ∈ comments, e.isComment = true) ∧ ∀ e ∈ body, e.isBody = true
  | finished => IsModuleEvents events
  | _ => ∀ e ∈ events, e.isComment = true

theorem reached_iff_of_ne {stage : Stage} {events : List Event} (h : stage ≠ inBody)
    (h' : stage ≠ finished) : stage.Reached events ↔ ∀ e ∈ events, e.isComment = true := by
  cases stage <;> first | exact Iff.rfl | exact absurd rfl h | exact absurd rfl h'

end Stage

/-- What was reported is in order and agrees with the stage. -/
structure Reported (stage : Stage) (events : List Event) : Prop where
  /-- There are comments only; or comments, a header, a body and perhaps the end of the module. -/
  order : (∀ e ∈ events, e.isComment = true) ∨ ∃ comments name ports body ending,
    events = comments ++ .header name ports :: (body ++ ending) ∧
      (∀ e ∈ comments, e.isComment = true) ∧ (∀ e ∈ body, e.isBody = true) ∧
      (ending = [] ∨ ending = [.endmodule])
  header_iff : (∃ name ports, .header name ports ∈ events) ↔ stage = .inBody ∨ stage = .finished
  endmodule_iff : .endmodule ∈ events ↔ stage = .finished

theorem Event.notMem_of_isComment {events : List Event} (h : ∀ e ∈ events, e.isComment = true) :
    (∀ name ports, header name ports ∉ events) ∧ endmodule ∉ events :=
  ⟨fun _ _ hm => by simpa [isComment] using h _ hm, fun hm => by simpa [isComment] using h _ hm⟩

theorem Event.endmodule_notMem_of_isBody {events : List Event}
    (h : ∀ e ∈ events, e.isBody = true) : endmodule ∉ events :=
  fun hm => by simpa [isBody] using h _ hm

theorem Stage.Reached.reported {stage : Stage} {events : List Event} (h : stage.Reached events) :
    Reported stage events := by
  by_cases hb : stage = inBody
  · subst hb
    obtain ⟨comments, name, ports, body, rfl, hc, hbody⟩ := h
    refine ⟨.inr ⟨comments, name, ports, body, [], by simp, hc, hbody, .inl rfl⟩,
      iff_of_true ⟨name, ports, by simp⟩ (.inl rfl), iff_of_false ?_ (by simp)⟩
    simp [(Event.notMem_of_isComment hc).2, Event.endmodule_notMem_of_isBody hbody]
  · by_cases hf : stage = finished
    · subst hf
      obtain ⟨comments, name, ports, body, rfl, hc, hbody⟩ := h
      exact ⟨.inr ⟨comments, name, ports, body, [.endmodule], rfl, hc, hbody, .inr rfl⟩,
        iff_of_true ⟨name, ports, by simp⟩ (.inr rfl), iff_of_true (by simp) rfl⟩
    · have hc := (reached_iff_of_ne hb hf).mp h
      obtain ⟨hheader, hend⟩ := Event.notMem_of_isComment hc
      exact ⟨.inl hc, iff_of_false (fun ⟨name, ports, hm⟩ => hheader name ports hm)
        (fun h => h.elim hb hf), iff_of_false hend hf⟩

/-! ### What a turn does -/

namespace Progress

variable {p q : Progress} {l : Lexeme} {event : Option Event} {events : List Event}

theorem stage_eq_finished_iff : p.stage = .finished ↔ p = finished := by
  cases p <;> simp [stage]

theorem Step.stage_le (h : Step p l event q) : p.stage ≤ q.stage := by
  cases h <;> first | exact Stage.le_refl _ | exact Nat.le_of_ble_eq_true rfl

theorem Closes.stage_le (h : Closes p q) : p.stage ≤ q.stage := by
  cases h <;> first | exact Stage.le_refl _ | exact Nat.le_of_ble_eq_true rfl

theorem Step.reached (h : Step p l event q) (hp : p ≠ finished) (he : p.stage.Reached events) :
    q.stage.Reached (events ++ event.toList) := by
  by_cases hq : q = finished
  · subst hq
    obtain ⟨rfl, rfl, -⟩ := h.eq_endmodule hp
    obtain ⟨comments, name, ports, body, rfl, hc, hb⟩ := he
    exact ⟨comments, name, ports, body, by simp, hc, hb⟩
  · have hpf := mt stage_eq_finished_iff.mp hp
    by_cases hb : p.stage = .inBody
    · obtain ⟨hq', hevent⟩ := h.of_inBody hb hq
      rw [hb] at he
      rw [hq']
      obtain ⟨comments, name, ports, body, rfl, hc, hbody⟩ := he
      exact ⟨comments, name, ports, body ++ event.toList, by simp, hc,
        List.forall_mem_append.mpr ⟨hbody, hevent⟩⟩
    · have hc := (Stage.reached_iff_of_ne hb hpf).mp he
      rcases h.of_header hb hp with ⟨hq', hevent⟩ | ⟨rfl, name, ports, rfl⟩
      · exact (Stage.reached_iff_of_ne hq' (mt stage_eq_finished_iff.mp hq)).mpr
          (List.forall_mem_append.mpr ⟨hc, hevent⟩)
      · exact ⟨events, name, ports, [], rfl, hc, by simp⟩

theorem Closes.reached (h : Closes p q) (he : p.stage.Reached events) :
    q.stage.Reached events := by
  cases h <;> exact he

/-- What does not end a stage or a statement stays inside it, and reports comments only. -/
theorem Step.restart_eq (h : Step p l event q) :
    q.restart = p.restart ∧ (∀ e ∈ event.toList, e.isComment = true) ∨
      q.AtRest ∧ event.any Event.isComment = false := by
  cases h <;> first
    | exact .inr ⟨rfl, rfl⟩
    | exact .inl ⟨rfl, by simp [Event.isComment]⟩

theorem Closes.restart_eq (h : Closes p q) : q.restart = p.restart ∨ q.AtRest := by
  cases h <;> first | exact .inl rfl | exact .inr rfl

end Progress

namespace Session

variable {session next : Session} {event : Option Event}

theorem stage_le_turn (h : session.turn = (.ok event, next)) :
    session.progress.stage ≤ next.progress.stage := by
  rcases turn_eq_ok h with ⟨l, hs⟩ | ⟨-, hc⟩
  · exact hs.stage_le
  · exact hc.stage_le

theorem reached_turn (h : session.turn = (.ok event, next)) (hp : session.progress ≠ .finished)
    {events : List Event} (he : session.progress.stage.Reached events) :
    next.progress.stage.Reached (events ++ event.toList) := by
  rcases turn_eq_ok h with ⟨l, hs⟩ | ⟨rfl, hc⟩
  · exact hs.reached hp he
  · simpa using hc.reached he

theorem restart_turn (h : session.turn = (.ok event, next))
    (hr : ¬ (next.progress.AtRest ∧ event.any Event.isComment = false)) :
    next.progress.restart = session.progress.restart ∧
      ∀ e ∈ event.toList, e.isComment = true := by
  rcases turn_eq_ok h with ⟨l, hs⟩ | ⟨rfl, hc⟩
  · exact hs.restart_eq.resolve_right hr
  · exact ⟨hc.restart_eq.resolve_right fun ha => hr ⟨ha, rfl⟩, by simp⟩

theorem ne_finished_turn (h : session.turn = (.ok event, next)) (hp : session.progress ≠ .finished)
    (hr : ¬ (next.progress.AtRest ∧ event.any Event.isComment = false)) :
    next.progress ≠ .finished := fun hn => by
  have he := (restart_turn h hr).1
  rw [hn] at he
  cases hs : session.progress <;> rw [hs] at he hp <;> simp [Progress.restart] at he hp

/-! ### What a step does -/

variable (session) (events : Array Event)

theorem stage_le_step :
    session.progress.stage ≤ (session.step .recorder events).session.progress.stage := by
  fun_induction step .recorder session events with
  | case1 session events e next h =>
    rw [turn_eq_error h, Progress.stage_restart]
    exact Stage.le_refl _
  | case2 session events event next h hr => exact stage_le_turn h
  | case3 session events event next h hr ih => exact Stage.le_trans (stage_le_turn h) ih

theorem reached_step (hp : session.progress ≠ .finished)
    (he : session.progress.stage.Reached events.toList) :
    (session.step .recorder events).session.progress.stage.Reached
      (session.step .recorder events).state.toList := by
  fun_induction step .recorder session events with
  | case1 session events e next h => rwa [turn_eq_error h, Progress.stage_restart]
  | case2 session events event next h hr =>
    rw [toList_report]
    exact reached_turn h hp he
  | case3 session events event next h hr ih =>
    refine ih (ne_finished_turn h hp hr) ?_
    rw [toList_report]
    exact reached_turn h hp he

/-- A step that fails goes back to its start, and has reported comments only. -/
theorem step_eq_error {e : ReadError} (h : (session.step .recorder events).result = .error e) :
    (session.step .recorder events).session.progress = session.progress.restart ∧
      ∃ comments, (session.step .recorder events).state.toList = events.toList ++ comments ∧
        ∀ e ∈ comments, e.isComment = true := by
  fun_induction step .recorder session events with
  | case1 session events e next ht => exact ⟨turn_eq_error ht, [], by simp, by simp⟩
  | case2 => cases h
  | case3 session events event next ht hr ih =>
    obtain ⟨hp, comments, hs, hc⟩ := ih h
    obtain ⟨hp', hc'⟩ := restart_turn ht hr
    refine ⟨hp.trans hp', event.toList ++ comments, ?_, List.forall_mem_append.mpr ⟨hc', hc⟩⟩
    rw [hs, toList_report, List.append_assoc]

/-! ### What runs do -/

/-- The second outcome is that of a step of the session which the first one left. The stage does
not go backwards. A failure leaves the progress where it was, and reports comments only. -/
structure Outcome.Leads (k k' : Outcome (Array Event)) : Prop where
  eq_step : k' = k.session.step .recorder k.state
  stage_le : k.session.progress.stage ≤ k'.session.progress.stage
  of_error : ∀ e, k'.result = .error e → k'.session.progress = k.session.progress ∧
    ∃ comments, k'.state.toList = k.state.toList ++ comments ∧ ∀ e ∈ comments, e.isComment = true

/-- The session is at the start of a stage, and what was reported agrees with that. -/
def Outcome.Settled (k : Outcome (Array Event)) : Prop :=
  k.session.progress.AtRest ∧ k.session.progress.stage.Reached k.state.toList

theorem Outcome.Settled.step {k : Outcome (Array Event)} (h : k.Settled)
    (hp : k.session.progress ≠ .finished) :
    k.Leads (k.session.step .recorder k.state) ∧ (k.session.step .recorder k.state).Settled := by
  refine ⟨⟨rfl, stage_le_step _ _, fun e he => ?_⟩, atRest_step _ _ _, reached_step _ _ hp h.2⟩
  obtain ⟨hr, hc⟩ := step_eq_error _ _ he
  exact ⟨hr.trans h.1, hc⟩

theorem Outcome.Settled.steps {k : Outcome (Array Event)} (h : k.Settled) :
    (k :: k.session.steps .recorder k.state).IsChain Leads ∧
      ∀ j ∈ k :: k.session.steps .recorder k.state, j.Settled := by
  obtain ⟨r, events, session⟩ := k
  dsimp only
  fun_induction Session.steps Observer.recorder session events generalizing r with
  | case1 session events hp => exact ⟨List.IsChain.singleton _, by simpa using h⟩
  | case2 session events hp hr ih =>
    obtain ⟨hl, hs⟩ := h.step hp
    obtain ⟨hchain, hall⟩ := ih _ hs
    exact ⟨List.isChain_cons_cons.mpr ⟨hl, hchain⟩, List.forall_mem_cons.mpr ⟨h, hall⟩⟩
  | case3 session events hp e hr =>
    obtain ⟨hl, hs⟩ := h.step hp
    exact ⟨List.isChain_cons_cons.mpr ⟨hl, List.IsChain.singleton _⟩, by simp [h, hs]⟩

theorem Outcome.Settled.run {k : Outcome (Array Event)} (h : k.Settled) :
    (k.session.run .recorder k.state).Settled := by
  rcases run_eq_or_mem_steps .recorder k.session k.state with hrun | hrun
  · rw [hrun]
    exact h
  · exact h.steps.2 _ (List.mem_cons_of_mem _ hrun)

theorem settled_runs (options : ScanOptions) (source : Source) (n : Nat) :
    ((ofSource options source).runs .recorder #[] n).Settled := by
  induction n with
  | zero => exact ⟨rfl, by simp [ofSource, ofStream, runs, Progress.stage, Stage.Reached]⟩
  | succ n ih => exact ih.run

/-- **Reading keeps its order, however often it is taken up again.** After any number of runs the
steps of the next one lead forward from stage to stage, and what was reported agrees with the stage
after each of them. The run ends as its last step does; on a finished module it does nothing. -/
theorem leads_of_runs (options : ScanOptions) (source : Source) (n : Nat) :
    let before := (ofSource options source).runs .recorder #[] n
    let steps := before.session.steps .recorder before.state
    let after := (ofSource options source).runs .recorder #[] (n + 1)
    (before :: steps).IsChain Outcome.Leads ∧
      (∀ k ∈ before :: steps, Reported k.session.progress.stage k.state.toList) ∧
      (before.session.progress ≠ .finished → steps.getLast? = some after) ∧
      (before.session.progress = .finished →
        after = ⟨.ok (), before.state, before.session⟩) := by
  intro before steps after
  obtain ⟨hchain, hall⟩ := (settled_runs options source n).steps
  refine ⟨hchain, fun k hk => (hall k hk).2.reported, fun hp => ?_, fun hp => ?_⟩
  · have ha : after = steps.getLastD ⟨.ok (), before.state, before.session⟩ := run_eq_steps ..
    rw [ha]
    have hne : steps ≠ [] := steps_ne_nil _ hp _
    rw [List.getLast?_eq_some_getLast hne, List.getLastD_eq_getLast?,
      List.getLast?_eq_some_getLast hne]
    rfl
  · have hrun := run_finished Observer.recorder before.session.stream before.state
    rw [← hp] at hrun
    exact hrun

end Session

end Netlist
