import Netlist.Event.Counts
import Netlist.Proofs.Turns

/-! # Observers only observe

A recorder sees all that any observer can see. So every observer makes a run end in the same way,
and its state is what the recorded events make of it when they are replayed (`run_eq_replay`). Main
statement: `runs_eq_replay`, for observers that are told at once, for buffered reading, and for
counts. -/

namespace Netlist

namespace Session

variable {σ : Type} (o : Observer σ)

theorem report_replay (event : Option Event) (events : Array Event) (s : σ) :
    report o event (o.replay events.toList s) =
      o.replay (report .recorder event events).toList s := by
  rw [toList_report, Observer.replay_append, report_eq]

/-- **A run ends in the same way for every observer**, and what an observer makes of it is the
replay of what was recorded. The observer has caught up with a recorder at the start. -/
theorem run_eq_replay (session : Session) (events : Array Event) (s : σ) :
    session.run o (o.replay events.toList s) =
      ⟨(session.run .recorder events).result,
        o.replay (session.run .recorder events).state.toList s,
        (session.run .recorder events).session⟩ := by
  -- the induction is on the turns of the run
  induction hb : session.bound using Nat.strongRecOn generalizing session events with
  | ind b ih =>
    subst hb
    by_cases hp : session.progress = .finished
    · obtain ⟨stream, p⟩ := session
      subst hp
      rw [run_finished, run_finished]
    · rw [run_eq_turn o hp, run_eq_turn .recorder hp]
      rcases ht : session.turn with ⟨e | event, next⟩
      · rfl
      · dsimp only
        rw [report_replay]
        exact ih _ (bound_turn_lt ht) next _ rfl

theorem runs_eq_runs_recorder (session : Session) (s : σ) (n : Nat) :
    session.runs o s n =
      ⟨(session.runs .recorder #[] n).result,
        o.replay (session.runs .recorder #[] n).state.toList s,
        (session.runs .recorder #[] n).session⟩ := by
  induction n with
  | zero => rfl
  | succ n ih =>
    simp only [runs, ih]
    exact run_eq_replay o _ _ s

/-- **Observers only observe.** After any number of runs every observer has the results and the
session of a recorder, and its own state is the replay of the recorded events; for an observer that
counts these are the counts of the events. Buffered reading gives the result of reading; its
observer ends as if it had been told at once if that succeeds, and where it started if not. -/
theorem runs_eq_replay (options : ScanOptions) (source : Source) (s : σ) (n : Nat) :
    let recorded := (ofSource options source).runs .recorder #[] n
    (ofSource options source).runs o s n =
        ⟨recorded.result, o.replay recorded.state.toList s, recorded.session⟩ ∧
      (ofSource options source).runs Counts.observer {} n =
        ⟨recorded.result, Counts.ofEvents recorded.state.toList, recorded.session⟩ ∧
      readBuffered options source o s = ((read options source o s).1,
        match (read options source o s).1 with
        | .ok () => (read options source o s).2
        | .error _ => s) := by
  refine ⟨runs_eq_runs_recorder o _ s n, runs_eq_runs_recorder Counts.observer _ {} n, ?_⟩
  have hrun := run_eq_replay o (ofSource options source) #[] s
  simp only [Observer.replay_nil, read, readBuffered] at hrun ⊢
  rw [hrun]
  rcases (ofSource options source).run .recorder #[] with ⟨_ | _, events, session⟩ <;> rfl

end Session

end Netlist
