import Mathlib.Data.Prod.Lex
import Netlist.Source

/-! # Positions and their coordinates

Positions are ordered as they follow each other in a text (`Pos.lt_advance`). Coordinates are
ordered in the same way, by their counters. A position is kept as it is where neither counter has
wrapped around (`Pos.Kept`). Of such positions nothing is lost in the coordinates
(`Pos.Kept.coords_eq_iff`, `Pos.Kept.coords_le_iff`), and fewer than `2 ^ 32 - 1` bytes have no
others (`Pos.kept_advanceBy_start`). -/

namespace Netlist

/-- The order of coordinates: by line and then by column. -/
instance : LinearOrder Coords :=
  LinearOrder.lift' (fun c => toLex (c.line.toNat, c.col.toNat)) fun c d h => by
    obtain ⟨hl, hc⟩ := Prod.mk.inj (toLex.injective h)
    cases c; cases d; simp_all [UInt32.toNat_inj]

namespace Pos

/-! ### The order of positions -/

/-- The order of positions in a text: by line and then by column. -/
instance : LinearOrder Pos :=
  LinearOrder.lift' (fun p => toLex (p.row, p.offset)) fun p q h => by
    obtain ⟨hl, hc⟩ := Prod.mk.inj (toLex.injective h)
    cases p; cases q; simp_all

theorem lt_iff {p q : Pos} : p < q ↔ p.row < q.row ∨ p.row = q.row ∧ p.offset < q.offset :=
  Prod.Lex.toLex_lt_toLex

theorem lt_advance (p : Pos) (b : UInt8) : p < p.advance b := by
  rw [lt_iff, advance]
  split
  · exact .inl (Nat.lt_succ_self _)
  · exact .inr ⟨rfl, Nat.lt_succ_self _⟩

theorem le_advanceBy (p : Pos) (bytes : List UInt8) : p ≤ p.advanceBy bytes := by
  induction bytes generalizing p with
  | nil => exact le_refl p
  | cons b bytes ih => exact (p.lt_advance b).le.trans (ih _)

theorem lt_advanceBy (p : Pos) {bytes : List UInt8} (h : bytes ≠ []) : p < p.advanceBy bytes := by
  cases bytes with
  | nil => exact absurd rfl h
  | cons b bytes => exact (p.lt_advance b).trans_le (le_advanceBy _ _)

/-! ### Positions that are kept -/

/-- The position is kept as it is: neither counter has wrapped around. -/
def Kept (p : Pos) : Prop := p.line = p.row ∧ p.col = p.offset

variable {p q : Pos} {bytes : List UInt8}

theorem kept_iff : p.Kept ↔ p.row < UInt32.size ∧ p.offset < UInt32.size := by
  rw [Kept, line, col, coords, UInt32.toNat_ofNat', UInt32.toNat_ofNat', Nat.mod_eq_iff_lt,
    Nat.mod_eq_iff_lt] <;> decide

theorem Kept.coords_eq_iff (hp : p.Kept) (hq : q.Kept) : p.coords = q.coords ↔ p = q := by
  refine ⟨fun h => ?_, congrArg coords⟩
  have hrow : p.row = q.row := by rw [← hp.1, ← hq.1, line, line, h]
  have hoffset : p.offset = q.offset := by rw [← hp.2, ← hq.2, col, col, h]
  cases p
  cases q
  simp_all

theorem Kept.coords_le_iff (hp : p.Kept) (hq : q.Kept) : p.coords ≤ q.coords ↔ p ≤ q := by
  have h : toLex (p.line, p.col) ≤ toLex (q.line, q.col) ↔
      toLex (p.row, p.offset) ≤ toLex (q.row, q.offset) := by rw [hp.1, hp.2, hq.1, hq.2]
  exact h

theorem row_advanceBy_le (p : Pos) (bytes : List UInt8) :
    (p.advanceBy bytes).row ≤ p.row + bytes.length := by
  induction bytes generalizing p with
  | nil => exact Nat.le_refl _
  | cons b bytes ih =>
    have hstep : (p.advance b).row ≤ p.row + 1 := by
      unfold advance
      split <;> simp
    have hrest := ih (p.advance b)
    rw [advanceBy_cons, List.length_cons]
    omega

theorem offset_advanceBy_le (p : Pos) (bytes : List UInt8) :
    (p.advanceBy bytes).offset ≤ max 1 p.offset + bytes.length := by
  induction bytes generalizing p with
  | nil => exact Nat.le_max_right _ _
  | cons b bytes ih =>
    have hstep : max 1 (p.advance b).offset ≤ max 1 p.offset + 1 := by
      unfold advance
      split <;> dsimp only <;> omega
    have hrest := ih (p.advance b)
    rw [advanceBy_cons, List.length_cons]
    omega

/-- **Fewer than `2 ^ 32 - 1` bytes are counted without wrapping around.** -/
theorem kept_advanceBy_start (h : bytes.length + 1 < UInt32.size) :
    (start.advanceBy bytes).Kept := by
  have hrow := row_advanceBy_le start bytes
  have hoffset := offset_advanceBy_le start bytes
  simp only [start, Nat.max_self] at hrow hoffset
  rw [kept_iff]
  simp only [start]
  omega

theorem advanceBy_replicate_space (p : Pos) (n : Nat) :
    p.advanceBy (List.replicate n Ascii.space) = ⟨p.row, p.offset + n⟩ := by
  induction n generalizing p with
  | zero => rfl
  | succ n ih =>
    have hstep : p.advance Ascii.space = ⟨p.row, p.offset + 1⟩ := rfl
    rw [List.replicate_succ, advanceBy_cons, hstep, ih, Nat.add_assoc, Nat.add_comm 1 n]

end Pos

/-- Both ends are kept as they are. -/
def Span.Kept (s : Span) : Prop := s.start.Kept ∧ s.limit.Kept

end Netlist
