import Netlist.Text

/-! # Sinks

A sink takes bytes, perhaps only some of those offered at a time, and may fail. `Sink.writeAll`
offers the rest of a text again until all of it is taken; it goes on after an interruption, and
takes a write of no bytes for a failure. A sink promises not to interrupt for ever: `patience` falls
with every interruption, so `writeAll` ends. -/

namespace Netlist

/-- What one write did. -/
inductive WriteOutcome where
  /-- The first `n` bytes were taken. -/
  | took (n : Nat)
  | interrupted
  | failed (message : String)
  deriving DecidableEq, Repr

/-- A destination of bytes with states in `ω`. -/
structure Sink (ω : Type) where
  write : List UInt8 → ω → WriteOutcome × ω
  flush : ω → Except String Unit × ω
  /-- A bound on the interruptions that can still come before anything else does, while the same
  bytes are offered. -/
  patience : List UInt8 → ω → Nat
  patience_lt : ∀ {bytes : List UInt8} {s t : ω},
    write bytes s = (.interrupted, t) → patience bytes t < patience bytes s

namespace Sink

variable {ω : Type}

/-- The message for a write that took nothing. -/
def zeroWriteMessage : String := "failed to write whole buffer"

/-- Writes all the bytes, or fails with a message. -/
def writeAll (sink : Sink ω) (bytes : List UInt8) (s : ω) : Except String Unit × ω :=
  match bytes with
  | [] => (.ok (), s)
  | b :: rest =>
    match _h : sink.write (b :: rest) s with
    | (.took 0, t) => (.error zeroWriteMessage, t)
    | (.took (n + 1), t) => sink.writeAll (rest.drop n) t
    | (.interrupted, t) => sink.writeAll (b :: rest) t
    | (.failed message, t) => (.error message, t)
termination_by (bytes.length, sink.patience bytes s)
decreasing_by
  · refine Prod.Lex.left _ _ ?_
    rw [List.length_drop, List.length_cons]
    omega
  · exact Prod.Lex.right _ (sink.patience_lt _h)

/-- The sink that keeps all bytes and never fails. -/
def memory : Sink (Array UInt8) where
  write bytes kept := (.took bytes.length, kept ++ bytes.toArray)
  flush kept := (.ok (), kept)
  patience _ _ := 0
  patience_lt h := by simp at h

end Sink

/-! ## Bounded sinks

A sink with room for a number of bytes, to see how writing ends when it cannot go on. A write is
taken up to the room that is left; one that finds no room is refused in one of three ways. A
recovering sink has unlimited room after its first refusal. -/

/-- How a write without room ends. -/
inductive Refusal where
  | fail
  | takeNothing
  | interrupt
  deriving DecidableEq, Repr

/-- A sink with limited room and the bytes that it has taken. -/
structure BoundedSink where
  /-- The room that is left, if it is limited. -/
  room : Option Nat
  refusal : Refusal
  recovers : Bool
  flushFails : Bool
  taken : Array UInt8

namespace BoundedSink

/-- The sink after a refusal. One that interrupts has to recover, since the write comes again. -/
def refuse (s : BoundedSink) : BoundedSink :=
  if s.recovers || s.refusal == .interrupt then { s with room := none } else s

/-- Writes what there is room for. -/
def write (bytes : List UInt8) (s : BoundedSink) : WriteOutcome × BoundedSink :=
  match s.room with
  | none => (.took bytes.length, { s with taken := s.taken ++ bytes.toArray })
  | some (room + 1) =>
    let first := bytes.take (room + 1)
    (.took first.length,
      { s with room := some (room + 1 - first.length), taken := s.taken ++ first.toArray })
  | some 0 =>
    match s.refusal with
    | .fail => (.failed "disk full", s.refuse)
    | .takeNothing => (.took 0, s.refuse)
    | .interrupt => (.interrupted, s.refuse)

def flush (s : BoundedSink) : Except String Unit × BoundedSink :=
  (if s.flushFails then .error "flush failed" else .ok (), s)

/-- The bounded sink. It interrupts once at most. -/
def sink : Sink BoundedSink where
  write := write
  flush := flush
  patience _ s := if s.room.isSome then 1 else 0
  patience_lt {bytes s t} h := by
    obtain ⟨_ | _ | room, refusal, recovers, flushFails, taken⟩ := s
    · simp [write] at h
    · cases refusal <;> simp [write, refuse] at h
      simp [← h]
    · simp [write] at h

end BoundedSink

end Netlist
