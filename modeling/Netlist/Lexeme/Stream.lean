import Netlist.Lexeme.Piece

/-! # Lexeme streams

`Cursor.scan` skips noise until a lexeme, the end or an error comes, and `Cursor.scanAll` reads to
the end. A stream hands out the lexemes of a source one by one and lets its user see one lexeme
ahead. The end of the text and an error are handed out by the look that meets them and are not kept.

Main statements: every scanned lexeme takes at least one item of the source (`size_scan`), and
dropping a lexeme that was seen makes the stream shorter (`size_drop_lt`), so a loop over a stream
ends. -/

namespace Netlist

namespace Cursor

/-- The next lexeme, if any is left. Noise before it is skipped. -/
def scan (options : ScanOptions) (c : Cursor) : Scanned (Option Lexeme) :=
  match _h : c.piece options with
  | (.ok (.lexeme l), d) => (.ok (some l), d)
  | (.ok .noise, d) => d.scan options
  | (.ok .finish, d) => (.ok none, d)
  | (.error e, d) => (.error e, d)
termination_by c.size
decreasing_by
  rcases size_piece _h with h | ⟨h, -⟩
  · exact h
  · cases h

/-- **Progress**: a scanned lexeme takes at least one item of the source, and the end leaves no
more than there was. -/
theorem size_scan {options : ScanOptions} {c d : Cursor} {l? : Option Lexeme}
    (h : c.scan options = (.ok l?, d)) : d.size < c.size ∨ l? = none ∧ d.size ≤ c.size := by
  fun_induction scan options c with
  | case1 c l e he =>
    injection h with _ h
    subst h
    exact (size_piece he).imp_right fun h => by cases h.1
  | case2 c e he ih =>
    have hlt : e.size < c.size := (size_piece he).resolve_right fun h => by cases h.1
    exact .inl ((ih h).elim (Nat.lt_trans · hlt) fun h => Nat.lt_of_le_of_lt h.2 hlt)
  | case3 c e he =>
    injection h with h1 h2
    injection h1 with h1
    subst h1 h2
    rcases size_piece he with h | h
    · exact .inl h
    · exact .inr ⟨rfl, h.2⟩
  | case4 => simp at h

/-- All lexemes from the cursor to the end, or the first error. -/
def scanAll (options : ScanOptions) (c : Cursor) : Scanned (List Lexeme) :=
  match _h : c.scan options with
  | (.ok none, d) => (.ok [], d)
  | (.ok (some l), d) =>
    match d.scanAll options with
    | (.ok ls, e) => (.ok (l :: ls), e)
    | (.error err, e) => (.error err, e)
  | (.error err, d) => (.error err, d)
termination_by c.size
decreasing_by
  rcases size_scan _h with h | ⟨h, -⟩
  · exact h
  · cases h

end Cursor

/-- A cursor and the lexeme that was scanned ahead of its use, if any. -/
structure LexemeStream where
  options : ScanOptions
  cursor : Cursor
  ahead : Option Lexeme

namespace LexemeStream

/-- The stream at the start of a source. -/
def ofSource (options : ScanOptions) (s : Source) : LexemeStream :=
  ⟨options, .ofSource s, none⟩

/-- The position after the last byte that was scanned. -/
def pos (s : LexemeStream) : Pos := s.cursor.pos

/-- Counts on from another position. -/
def setPos (s : LexemeStream) (p : Pos) : LexemeStream :=
  { s with cursor := { s.cursor with pos := p } }

/-- The next lexeme that was not scanned yet. The lexeme ahead stays where it is. -/
def next (s : LexemeStream) : Except ReadError (Option Lexeme) × LexemeStream :=
  let (result, cursor) := s.cursor.scan s.options
  (result, { s with cursor })

/-- The next lexeme, which stays next. -/
def peek (s : LexemeStream) : Except ReadError (Option Lexeme) × LexemeStream :=
  match s.ahead with
  | some l => (.ok (some l), s)
  | none =>
    match s.next with
    | (.ok l?, s) => (.ok l?, { s with ahead := l? })
    | (.error e, s) => (.error e, s)

/-- The stream without the lexeme ahead. -/
def drop (s : LexemeStream) : LexemeStream := { s with ahead := none }

/-- Takes the next lexeme out of the stream. -/
def pop (s : LexemeStream) : Except ReadError (Option Lexeme) × LexemeStream :=
  let (result, s) := s.peek
  (result, s.drop)

/-- How much is still to come: the items to scan and the lexeme ahead. -/
def size (s : LexemeStream) : Nat := s.cursor.size + if s.ahead.isSome then 1 else 0

/-- Looking ahead makes a stream no longer. -/
theorem size_peek_le {s t : LexemeStream} {l? : Option Lexeme} (h : s.peek = (.ok l?, t)) :
    t.size ≤ s.size := by
  obtain ⟨options, cursor, _ | l⟩ := s
  · rcases he : cursor.scan options with ⟨e | m?, d⟩ <;> simp only [peek, next, he] at h
    · simp at h
    · simp only [Prod.mk.injEq, Except.ok.injEq] at h
      obtain ⟨rfl, rfl⟩ := h
      rcases Cursor.size_scan he with h | ⟨rfl, h⟩
      · simp only [size, Option.isSome_none, Bool.false_eq_true, if_false]
        split <;> omega
      · simpa [size] using h
  · simp only [peek, Prod.mk.injEq] at h
    exact Nat.le_of_eq (congrArg size h.2.symm)

/-- **Progress**: dropping a lexeme that was seen makes a stream shorter. -/
theorem size_drop_lt {s t : LexemeStream} {l : Lexeme} (h : s.peek = (.ok (some l), t)) :
    t.drop.size < s.size := by
  have hs := size_peek_le h
  have ht : t.ahead = some l := by
    obtain ⟨options, cursor, _ | m⟩ := s
    · simp only [peek] at h
      split at h
      · simp only [Prod.mk.injEq, Except.ok.injEq] at h
        rw [← h.2, h.1]
      · simp at h
    · simp only [peek, Prod.mk.injEq, Except.ok.injEq] at h
      rw [← h.2, h.1]
  simp only [size, drop, ht, Option.isSome_none, Option.isSome_some, Bool.false_eq_true,
    if_false, if_true] at hs ⊢
  omega

end LexemeStream

end Netlist
