import Netlist.Proofs.Reliable

/-! # The first failure is kept

A sink may take a part of what it is offered, interrupt, or fail, and it may work again after it
failed. The calls of a sink are logged (`Sink.logged`) to see what the printer makes of this: it
stops at the first failure and hands that back, so that the bytes the sink took are the beginning of
the text and have no gap. The invariant is that the calls write the text as far as the sink lets
them (`Sink.Writes`). Main statement: `Printer.finish_replay`. -/

namespace Netlist

namespace Sink

variable {ω : Type}

/-! ### Calls -/

/-- A call of a sink, with what came of it. -/
inductive Call where
  | write (bytes : List UInt8) (outcome : WriteOutcome)
  | flush (result : Except String Unit)

namespace Call

/-- The bytes that the sink took. -/
def taken : Call → List UInt8
  | write bytes (.took n) => bytes.take n
  | _ => []

/-- The call is a write after which writing goes on: the sink took something, or interrupted. -/
inductive GoesOn : Call → Prop
  | took (bytes : List UInt8) (n : Nat) : GoesOn (write bytes (.took (n + 1)))
  | interrupted (bytes : List UInt8) : GoesOn (write bytes .interrupted)

/-- The call is a write that fails with the message. A sink that takes nothing has failed. -/
inductive Fails : Call → String → Prop
  | tookNothing (bytes : List UInt8) : Fails (write bytes (.took 0)) zeroWriteMessage
  | failed (bytes : List UInt8) (message : String) : Fails (write bytes (.failed message)) message

theorem Fails.taken_eq {c : Call} {message : String} (h : c.Fails message) : c.taken = [] := by
  cases h <;> rfl

end Call

/-- The sink with a log of its calls, earliest first. -/
def logged (sink : Sink ω) : Sink (ω × List Call) where
  write bytes s :=
    let (outcome, t) := sink.write bytes s.1
    (outcome, t, s.2 ++ [.write bytes outcome])
  flush s :=
    let (result, t) := sink.flush s.1
    (result, t, s.2 ++ [.flush result])
  patience bytes s := sink.patience bytes s.1
  patience_lt h := by
    obtain ⟨ho, rfl⟩ := Prod.mk.inj h
    exact sink.patience_lt (Prod.ext ho rfl)

/-- The calls write the text and come to the result: all of them go on and the sink has taken all of
the text, or the last one fails and the sink has taken the beginning of the text. -/
inductive Writes : List Call → List UInt8 → Except String Unit → Prop
  | ok {calls : List Call} {text : List UInt8} : (∀ c ∈ calls, c.GoesOn) →
      calls.flatMap Call.taken = text → Writes calls text (.ok ())
  | error {before : List Call} {c : Call} {message : String} {text : List UInt8} :
      (∀ c ∈ before, c.GoesOn) → c.Fails message → before.flatMap Call.taken <+: text →
        Writes (before ++ [c]) text (.error message)

section Writes

variable {calls more : List Call} {c : Call} {text rest : List UInt8} {message : String}
  {result : Except String Unit}

theorem Writes.append (h : Writes calls text (.ok ())) (h' : Writes more rest result) :
    Writes (calls ++ more) (text ++ rest) result := by
  cases h with
  | ok hall htaken =>
    cases h' with
    | ok hall' htaken' =>
      refine .ok (List.forall_mem_append.mpr ⟨hall, hall'⟩) ?_
      rw [List.flatMap_append, htaken, htaken']
    | error hall' hfails htaken' =>
      rw [← List.append_assoc]
      refine .error (List.forall_mem_append.mpr ⟨hall, hall'⟩) hfails ?_
      rw [List.flatMap_append, htaken]
      exact (List.prefix_append_right_inj text).mpr htaken'

theorem Writes.cons (hc : c.GoesOn) (h : Writes calls rest result) :
    Writes (c :: calls) (c.taken ++ rest) result :=
  append (.ok (List.forall_mem_singleton.mpr hc) (List.flatMap_singleton _ _)) h

theorem writes_of_fails (h : c.Fails message) : Writes [c] text (.error message) := by
  have hnone : ∀ c ∈ ([] : List Call), c.GoesOn := List.forall_mem_nil _
  exact Writes.error hnone h List.nil_prefix

/-- A text that could not be written is not written on. -/
theorem Writes.extend (h : Writes calls text (.error message)) (rest : List UInt8) :
    Writes calls (text ++ rest) (.error message) := by
  cases h with
  | error hall hfails htaken => exact .error hall hfails (htaken.trans (List.prefix_append _ _))

theorem Writes.taken_prefix (h : Writes calls text result) :
    calls.flatMap Call.taken <+: text := by
  cases h with
  | ok _ htaken => exact htaken ▸ List.prefix_rfl
  | error _ hfails htaken => simpa [hfails.taken_eq] using htaken

end Writes

/-! ### Writing bytes -/

theorem writeAll_cons (sink : Sink ω) (b : UInt8) (rest : List UInt8) (s : ω) :
    sink.writeAll (b :: rest) s =
      match sink.write (b :: rest) s with
      | (.took 0, t) => (.error zeroWriteMessage, t)
      | (.took (n + 1), t) => sink.writeAll (rest.drop n) t
      | (.interrupted, t) => sink.writeAll (b :: rest) t
      | (.failed message, t) => (.error message, t) := by
  rw [writeAll]
  split <;> simp only [*]

theorem logged_write {sink : Sink ω} {bytes : List UInt8} {s t : ω} {outcome : WriteOutcome}
    (h : sink.write bytes s = (outcome, t)) (calls : List Call) :
    sink.logged.write bytes (s, calls) = (outcome, t, calls ++ [.write bytes outcome]) := by
  simp only [logged, h]

/-- The log changes nothing, and its calls write the bytes. -/
theorem writeAll_logged (sink : Sink ω) (bytes : List UInt8) (s : ω) (calls : List Call) :
    ∃ more, sink.logged.writeAll bytes (s, calls) =
        ((sink.writeAll bytes s).1, (sink.writeAll bytes s).2, calls ++ more) ∧
      Writes more bytes (sink.writeAll bytes s).1 := by
  fun_induction Sink.writeAll sink bytes s generalizing calls with
  | case1 s => exact ⟨[], by simp [writeAll], .ok (List.forall_mem_nil _) rfl⟩
  | case2 s b rest t h =>
    refine ⟨[.write (b :: rest) (.took 0)], ?_, writes_of_fails (.tookNothing _)⟩
    rw [writeAll_cons, logged_write h]
  | case3 s b rest n t h ih =>
    obtain ⟨more, hlog, hwrites⟩ := ih (calls ++ [.write (b :: rest) (.took (n + 1))])
    refine ⟨.write (b :: rest) (.took (n + 1)) :: more, ?_, ?_⟩
    · rw [writeAll_cons, logged_write h]
      simp only [hlog, List.append_assoc, List.singleton_append]
    · have hbytes : (Call.write (b :: rest) (.took (n + 1))).taken ++ rest.drop n = b :: rest := by
        simp [Call.taken]
      have hcons := Writes.cons (.took (b :: rest) n) hwrites
      rwa [hbytes] at hcons
  | case4 s b rest t h ih =>
    obtain ⟨more, hlog, hwrites⟩ := ih (calls ++ [.write (b :: rest) .interrupted])
    refine ⟨.write (b :: rest) .interrupted :: more, ?_, .cons (.interrupted _) hwrites⟩
    rw [writeAll_cons, logged_write h]
    simp only [hlog, List.append_assoc, List.singleton_append]
  | case5 s b rest message t h =>
    refine ⟨[.write (b :: rest) (.failed message)], ?_, writes_of_fails (.failed _ message)⟩
    rw [writeAll_cons, logged_write h]

end Sink

/-! ### Printing -/

namespace Printer

open Sink (Call)

variable {ω : Type}

/-- What writing has come to. -/
def outcome (p : Printer ω) : Except String Unit :=
  match p.failure with
  | none => .ok ()
  | some message => .error message

/-- The printer `q` to the logged sink is where `p` is, and its calls have written the text. -/
structure Logs (q : Printer (ω × List Call)) (p : Printer ω) (text : List UInt8) : Prop where
  state : q.state.1 = p.state
  failure : q.failure = p.failure
  writes : Sink.Writes q.state.2 text p.outcome

namespace Logs

variable {q : Printer (ω × List Call)} {p : Printer ω} {text : List UInt8}

theorem write (h : Logs q p text) (sink : Sink ω) (bytes : List UInt8) :
    Logs (q.write sink.logged bytes) (p.write sink bytes) (text ++ bytes) := by
  obtain ⟨⟨s, calls⟩, failed⟩ := q
  obtain ⟨_, _⟩ := p
  obtain ⟨rfl, rfl, hwrites⟩ := h
  cases failed with
  | some message => exact ⟨rfl, rfl, hwrites.extend bytes⟩
  | none =>
    obtain ⟨more, hlog, hmore⟩ := sink.writeAll_logged bytes s calls
    unfold Printer.write
    simp only [hlog]
    generalize sink.writeAll bytes s = r at hmore ⊢
    rcases r with ⟨_ | _, t⟩ <;> exact ⟨rfl, rfl, hwrites.append hmore⟩

theorem writeLine (h : Logs q p text) (sink : Sink ω) (line : String) :
    Logs (q.writeLine sink.logged line) (p.writeLine sink line)
      (text ++ Utf8.encode (line ++ "\n")) := by
  rw [Utf8.encode_append, ← List.append_assoc]
  exact (h.write sink _).write sink _

theorem replay (h : Logs q p text) (sink : Sink ω) (events : List Event) :
    Logs ((observer sink.logged).replay events q) ((observer sink).replay events p)
      (text ++ Utf8.encode (printed events)) := by
  induction events generalizing q p text with
  | nil => simpa [printed, Utf8.encode] using h
  | cons e events ih =>
    have hprinted : printed (e :: events) = e.text ++ "\n" ++ printed events := String.join_cons
    rw [hprinted, Utf8.encode_append, ← List.append_assoc]
    simp only [Observer.replay_cons, observer, Observer.observe_ofFun]
    exact ih (h.writeLine sink e.text)

end Logs

/-- **The first failure is kept**, whatever the sink does after it. Of the text that the same events
print to memory the sink takes a beginning. After the first write that fails there is no further
call, and its message is handed back. If none fails, then all of the text is taken, the sink is
flushed once, and what came of that is handed back. -/
theorem finish_replay (sink : Sink ω) (s : ω) (events : List Event) :
    let text := ((observer .memory).replay events ⟨#[], none⟩).state.toList
    let result := ((observer sink).replay events ⟨s, none⟩).finish sink
    ∃ calls, ((observer sink.logged).replay events ⟨(s, []), none⟩).finish sink.logged =
        (result.1, result.2, calls) ∧
      calls.flatMap Call.taken <+: text ∧
      ((∃ before c message, calls = before ++ [c] ∧ (∀ c ∈ before, c.GoesOn) ∧ c.Fails message ∧
          result.1 = .error message) ∨
        ∃ before, calls = before ++ [.flush result.1] ∧ (∀ c ∈ before, c.GoesOn) ∧
          calls.flatMap Call.taken = text) := by
  intro text
  have htext : text = Utf8.encode (printed events) := by
    obtain ⟨kept, hreplay, htaken⟩ := Sink.reliable_memory.replay events #[]
    exact (congrArg (fun p => p.state.toList) hreplay).trans htaken
  have hstart : Logs (⟨(s, []), none⟩ : Printer (ω × List Call)) ⟨s, none⟩ [] :=
    ⟨rfl, rfl, .ok (List.forall_mem_nil _) rfl⟩
  obtain ⟨hstate, hfailure, hwrites⟩ := hstart.replay sink events
  rw [List.nil_append, ← htext] at hwrites
  generalize (observer sink.logged).replay events ⟨(s, []), none⟩ = q at *
  generalize (observer sink).replay events ⟨s, none⟩ = p at *
  obtain ⟨⟨t, calls⟩, failed⟩ := q
  obtain ⟨_, _⟩ := p
  obtain rfl := hstate
  obtain rfl := hfailure
  cases failed with
  | some message =>
    refine ⟨calls, rfl, hwrites.taken_prefix, .inl ?_⟩
    cases hwrites with
    | error hall hfails _ => exact ⟨_, _, message, rfl, hall, hfails, rfl⟩
  | none =>
    cases hwrites with
    | ok hall htaken =>
      have hall' : (calls ++ [Call.flush (sink.flush t).1]).flatMap Call.taken = text := by
        simpa [Call.taken] using htaken
      exact ⟨_, rfl, hall' ▸ List.prefix_rfl, .inr ⟨calls, rfl, hall, hall'⟩⟩

end Printer

end Netlist
