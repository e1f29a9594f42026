import Netlist.Proofs.Position

/-! # Blanking stretches of a text

A stretch of a text is blanked by writing a space for each of its bytes that is no line feed
(`blank`), which leaves every other byte where it is (`advanceBy_blank`). -/

namespace Netlist

/-- The position belongs to the stretch. -/
def Span.Covers (s : Span) (p : Pos) : Prop := s.start ≤ p ∧ p < s.limit

instance (s : Span) (p : Pos) : Decidable (s.Covers p) := inferInstanceAs (Decidable (_ ∧ _))

/-- The bytes, the first of which is at the position, with a space in place of every byte of the
stretches that is no line feed. -/
def blank (spans : List Span) : Pos → List UInt8 → List UInt8
  | _, [] => []
  | p, b :: bytes =>
    (if b ≠ Ascii.lineFeed ∧ ∃ s ∈ spans, s.Covers p then Ascii.space else b) ::
      blank spans (p.advance b) bytes

section Blank

variable {spans spans' : List Span} {p : Pos} {bytes : List UInt8}

theorem blank_append (spans : List Span) (p : Pos) (xs ys : List UInt8) :
    blank spans p (xs ++ ys) = blank spans p xs ++ blank spans (p.advanceBy xs) ys := by
  induction xs generalizing p with
  | nil => rfl
  | cons b xs ih => rw [List.cons_append, blank, blank, ih, List.cons_append, Pos.advanceBy_cons]

theorem advanceBy_blank (spans : List Span) (p q : Pos) (bytes : List UInt8) :
    q.advanceBy (blank spans p bytes) = q.advanceBy bytes := by
  induction bytes generalizing p q with
  | nil => rfl
  | cons b bytes ih =>
    rw [blank, Pos.advanceBy_cons, Pos.advanceBy_cons, ih]
    split_ifs with h
    · have hb : (b == Ascii.lineFeed) = false := beq_eq_false_iff_ne.mpr h.1
      rw [Pos.advance, Pos.advance, hb]
      rfl
    · rfl

/-- Only the positions of the bytes matter. -/
theorem blank_congr (h : ∀ q, p ≤ q → q < p.advanceBy bytes →
      ((∃ s ∈ spans, s.Covers q) ↔ ∃ s ∈ spans', s.Covers q)) :
    blank spans p bytes = blank spans' p bytes := by
  induction bytes generalizing p with
  | nil => rfl
  | cons b bytes ih =>
    rw [Pos.advanceBy_cons] at h
    have hb := h p (le_refl p) ((p.lt_advance b).trans_le (Pos.le_advanceBy _ _))
    rw [blank, blank, ih fun q hq => h q ((p.lt_advance b).le.trans hq)]
    simp only [hb]

theorem blank_eq_self (h : ∀ q, p ≤ q → q < p.advanceBy bytes → ∀ s ∈ spans, ¬ s.Covers q) :
    blank spans p bytes = bytes := by
  induction bytes generalizing p with
  | nil => rfl
  | cons b bytes ih =>
    rw [Pos.advanceBy_cons] at h
    have hb := h p (le_refl p) ((p.lt_advance b).trans_le (Pos.le_advanceBy _ _))
    rw [blank, ih fun q hq => h q ((p.lt_advance b).le.trans hq),
      if_neg fun hs => hs.2.elim fun s hs => hb s hs.1 hs.2]

theorem isBlank_of_mem_blank {s : Span} (hs : s ∈ spans) (hp : s.start ≤ p)
    (hq : p.advanceBy bytes ≤ s.limit) :
    ∀ b ∈ blank spans p bytes, Ascii.isBlank b = true := by
  induction bytes generalizing p with
  | nil => exact List.forall_mem_nil _
  | cons b bytes ih =>
    rw [Pos.advanceBy_cons] at hq
    have hlt := (p.lt_advance b).trans_le ((Pos.le_advanceBy _ bytes).trans hq)
    refine List.forall_mem_cons.mpr ⟨?_, ih (hp.trans (p.lt_advance b).le) hq⟩
    by_cases hb : b = Ascii.lineFeed
    · subst hb
      rw [if_neg fun h => h.1 rfl]
      rfl
    · rw [if_pos ⟨hb, s, hs, hp, hlt⟩]
      rfl

theorem isBlank_blank (spans : List Span) (p : Pos) (h : ∀ b ∈ bytes, Ascii.isBlank b = true) :
    ∀ b ∈ blank spans p bytes, Ascii.isBlank b = true := by
  induction bytes generalizing p with
  | nil => exact List.forall_mem_nil _
  | cons b bytes ih =>
    obtain ⟨hb, h⟩ := List.forall_mem_cons.mp h
    refine List.forall_mem_cons.mpr ⟨?_, ih _ h⟩
    split_ifs
    · rfl
    · exact hb

end Blank

end Netlist
