import Netlist.Event.Printer
import Netlist.Proofs.Utf8

/-! # Sinks that never fail

A reliable sink takes some bytes with every write, may be interrupted, and never fails. Whatever
its writes take, it ends with all of the printed text (`Sink.Reliable.print`). -/

namespace Netlist

/-- A sink that never fails, by the bytes that it has taken. -/
structure Sink.Reliable {ω : Type} (sink : Sink ω) where
  /-- The bytes that were taken so far. -/
  taken : ω → List UInt8
  took : ∀ {bytes : List UInt8} {s t : ω} {n : Nat}, bytes ≠ [] →
    sink.write bytes s = (.took n, t) → n ≠ 0 ∧ taken t = taken s ++ bytes.take n
  interrupted : ∀ {bytes : List UInt8} {s t : ω},
    sink.write bytes s = (.interrupted, t) → taken t = taken s
  not_failed : ∀ {bytes : List UInt8} {s t : ω} {message : String},
    sink.write bytes s ≠ (.failed message, t)
  flush : ∀ s : ω, ∃ t, sink.flush s = (.ok (), t) ∧ taken t = taken s

namespace Sink

/-- The sink that keeps all bytes is reliable. -/
def reliable_memory : memory.Reliable where
  taken kept := kept.toList
  took {bytes s t n} hne h := by
    simp only [memory, Prod.mk.injEq, WriteOutcome.took.injEq] at h
    obtain ⟨rfl, rfl⟩ := h
    exact ⟨by simpa using hne, by simp⟩
  interrupted h := by simp [memory] at h
  not_failed h := by simp [memory] at h
  flush s := ⟨s, rfl, rfl⟩

namespace Reliable

variable {ω : Type} {sink : Sink ω} (r : sink.Reliable)
include r

theorem writeAll (bytes : List UInt8) (s : ω) :
    ∃ t, sink.writeAll bytes s = (.ok (), t) ∧ r.taken t = r.taken s ++ bytes := by
  fun_induction Sink.writeAll sink bytes s with
  | case1 s => exact ⟨s, rfl, by simp⟩
  | case2 s b rest t h => exact absurd rfl (r.took (by simp) h).1
  | case3 s b rest n t h ih =>
    obtain ⟨u, hu, ht⟩ := ih
    refine ⟨u, hu, ?_⟩
    rw [ht, (r.took (by simp) h).2]
    simp
  | case4 s b rest t h ih =>
    obtain ⟨u, hu, ht⟩ := ih
    exact ⟨u, hu, by rw [ht, r.interrupted h]⟩
  | case5 s b rest message t h => exact absurd h r.not_failed

theorem write (bytes : List UInt8) (s : ω) :
    ∃ t, Printer.write sink bytes ⟨s, none⟩ = ⟨t, none⟩ ∧ r.taken t = r.taken s ++ bytes := by
  obtain ⟨t, h, ht⟩ := r.writeAll bytes s
  exact ⟨t, by simp only [Printer.write, h], ht⟩

theorem writeLine (line : String) (s : ω) :
    ∃ t, Printer.writeLine sink line ⟨s, none⟩ = ⟨t, none⟩ ∧
      r.taken t = r.taken s ++ Utf8.encode (line ++ "\n") := by
  obtain ⟨t, h, ht⟩ := r.write (Utf8.encode line) s
  obtain ⟨u, h', hu⟩ := r.write (Utf8.encode "\n") t
  refine ⟨u, by rw [Printer.writeLine, h, h'], ?_⟩
  rw [hu, ht, Utf8.encode_append, List.append_assoc]

theorem replay (events : List Event) (s : ω) :
    ∃ t, (Printer.observer sink).replay events ⟨s, none⟩ = ⟨t, none⟩ ∧
      r.taken t = r.taken s ++ Utf8.encode (printed events) := by
  induction events generalizing s with
  | nil => exact ⟨s, rfl, by simp [printed, Utf8.encode]⟩
  | cons e events ih =>
    obtain ⟨t, h, ht⟩ := r.writeLine e.text s
    obtain ⟨u, h', hu⟩ := ih t
    refine ⟨u, ?_, ?_⟩
    · rw [Observer.replay_cons, Printer.observer, Observer.observe_ofFun, h]
      exact h'
    · have hprinted : printed (e :: events) = e.text ++ "\n" ++ printed events := String.join_cons
      rw [hu, ht, List.append_assoc, ← Utf8.encode_append, hprinted]

/-- **All of the text is printed** to a sink that never fails. -/
theorem print (events : List Event) (s : ω) :
    ∃ t, ((Printer.observer sink).replay events ⟨s, none⟩).finish sink = (.ok (), t) ∧
      r.taken t = r.taken s ++ Utf8.encode (printed events) := by
  obtain ⟨t, h, ht⟩ := r.replay events s
  obtain ⟨u, hu, hut⟩ := r.flush t
  exact ⟨u, by rw [h]; exact hu, by rw [hut, ht]⟩

end Reliable

end Sink

end Netlist
