import Netlist.Proofs.Name

/-! # Sources of bytes alone

Without pauses and faults a run is the longest part of the bytes that belongs to its class. It is
known by what it holds and by what stops it (`run_append`, `exists_run`). -/

namespace Netlist

/-- No byte of the class comes first. -/
def Stops (p : UInt8 → Bool) (bytes : List UInt8) : Prop := ∀ b ∈ bytes.head?, p b = false

section Stops

variable {p q : UInt8 → Bool} {b : UInt8} {bytes part rest : List UInt8}

theorem stops_nil (p : UInt8 → Bool) : Stops p [] := fun _ hb => nomatch hb

@[simp] theorem stops_cons_iff : Stops p (b :: bytes) ↔ p b = false := by
  simp [Stops]

theorem stops_dropWhile (p : UInt8 → Bool) (bytes : List UInt8) : Stops p (bytes.dropWhile p) := by
  intro x hx
  have h := List.head?_dropWhile_not p bytes
  rw [Option.mem_def.mp hx] at h
  simpa using h

theorem Stops.takeWhile_append (hs : Stops p rest) (h : ∀ x ∈ part, p x = true) :
    (part ++ rest).takeWhile p = part := by
  have hrest : rest.takeWhile p = [] := by cases rest <;> simp_all
  rw [List.takeWhile_append_of_pos h, hrest, List.append_nil]

theorem Stops.dropWhile_append (hs : Stops p rest) (h : ∀ x ∈ part, p x = true) :
    (part ++ rest).dropWhile p = rest := by
  rw [List.dropWhile_append_of_pos h]
  cases rest <;> simp_all

end Stops

namespace Source

@[simp] theorem ofBytes_nil : ofBytes [] = [] := rfl

@[simp] theorem ofBytes_cons (b : UInt8) (bytes : List UInt8) :
    ofBytes (b :: bytes) = .byte b :: ofBytes bytes := rfl

theorem ofBytes_append (xs ys : List UInt8) : ofBytes (xs ++ ys) = ofBytes xs ++ ofBytes ys :=
  List.map_append

theorem ofBytes_injective : Function.Injective ofBytes :=
  List.map_injective_iff.mpr fun _ _ => Item.byte.inj

theorem run_ofBytes (p : UInt8 → Bool) (bytes : List UInt8) : (ofBytes bytes).run p =
    ⟨bytes.takeWhile p, (bytes.dropWhile p).head?, ofBytes (bytes.dropWhile p)⟩ := by
  induction bytes with
  | nil => rfl
  | cons b bytes ih =>
    by_cases h : p b
    · simp [run, h, ih]
    · simp [run, h]

/-- A run is what belongs to its class up to what stops it. -/
theorem run_append {p : UInt8 → Bool} {part : List UInt8} (h : ∀ x ∈ part, p x = true)
    {rest : List UInt8} (hs : Stops p rest) :
    (ofBytes (part ++ rest)).run p = ⟨part, rest.head?, ofBytes rest⟩ := by
  rw [run_ofBytes, hs.takeWhile_append h, hs.dropWhile_append h]

theorem run_of_forall {p : UInt8 → Bool} {part : List UInt8} (h : ∀ x ∈ part, p x = true) :
    (ofBytes part).run p = ⟨part, none, []⟩ := by
  have hrun := run_append h (stops_nil p)
  rwa [List.append_nil] at hrun

theorem exists_run (p : UInt8 → Bool) (bytes : List UInt8) :
    ∃ part rest, bytes = part ++ rest ∧ (∀ x ∈ part, p x = true) ∧ Stops p rest :=
  ⟨bytes.takeWhile p, bytes.dropWhile p, List.takeWhile_append_dropWhile.symm,
    fun _ hx => List.mem_takeWhile_imp hx, stops_dropWhile p bytes⟩

end Source

namespace Cursor

@[simp] theorem look_ofBytes (bytes : List UInt8) (pos : Pos) :
    look ⟨.ofBytes bytes, pos⟩ = (bytes.head?, ⟨.ofBytes bytes, pos⟩) := by
  cases bytes <;> rfl

@[simp] theorem skip_ofBytes_cons (b : UInt8) (bytes : List UInt8) (pos : Pos) :
    skip ⟨.ofBytes (b :: bytes), pos⟩ = ⟨.ofBytes bytes, pos.advance b⟩ := rfl

@[simp] theorem pop_ofBytes_cons (b : UInt8) (bytes : List UInt8) (pos : Pos) :
    pop ⟨.ofBytes (b :: bytes), pos⟩ = (some b, ⟨.ofBytes bytes, pos.advance b⟩) := rfl

end Cursor

end Netlist
