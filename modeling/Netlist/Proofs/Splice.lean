import Netlist.Proofs.Blanking

/-! # Insertions into a text

A text with something inserted before and after its bytes, by their positions (`splice`). -/

namespace Netlist

/-- The items of the bytes, the first of which is at the position, with `before` inserted before the
byte that starts at a position and `after` behind the byte that ends there. -/
def splice {α : Type} (item : UInt8 → α) (before after : Pos → List α) :
    Pos → List UInt8 → List α
  | _, [] => []
  | p, b :: bytes =>
    before p ++ item b :: (after (p.advance b) ++ splice item before after (p.advance b) bytes)

variable {α : Type} {item : UInt8 → α} {before after : Pos → List α} {p : Pos}

theorem splice_append (item : UInt8 → α) (before after : Pos → List α) (p : Pos)
    (xs ys : List UInt8) :
    splice item before after p (xs ++ ys) =
      splice item before after p xs ++ splice item before after (p.advanceBy xs) ys := by
  induction xs generalizing p with
  | nil => rfl
  | cons x xs ih => simp [splice, ih]

theorem splice_eq_map {bytes : List UInt8}
    (hb : ∀ q, p ≤ q → q < p.advanceBy bytes → before q = [])
    (ha : ∀ q, p < q → q ≤ p.advanceBy bytes → after q = []) :
    splice item before after p bytes = bytes.map item := by
  induction bytes generalizing p with
  | nil => rfl
  | cons b bytes ih =>
    have hlt := p.lt_advance b
    have hle := (p.advance b).le_advanceBy bytes
    rw [splice, hb p (le_refl p) (hlt.trans_le hle), ha _ hlt hle,
      ih (fun q hq => hb q (hlt.le.trans hq)) fun q hq => ha q (hlt.trans hq)]
    rfl

/-- Where something is inserted at both ends only. -/
theorem splice_eq_append {bytes : List UInt8} (hne : bytes ≠ [])
    (hb : ∀ q, p < q → q < p.advanceBy bytes → before q = [])
    (ha : ∀ q, p < q → q < p.advanceBy bytes → after q = []) :
    splice item before after p bytes =
      before p ++ bytes.map item ++ after (p.advanceBy bytes) := by
  induction bytes generalizing p with
  | nil => exact absurd rfl hne
  | cons b bytes ih =>
    have hlt := p.lt_advance b
    by_cases hnil : bytes = []
    · subst hnil
      simp [splice]
    · have hnext := (p.advance b).lt_advanceBy hnil
      rw [splice, ha _ hlt hnext, ih hnil (fun q hq => hb q (hlt.trans hq)) fun q hq =>
        ha q (hlt.trans hq), hb _ hlt hnext]
      simp

end Netlist
