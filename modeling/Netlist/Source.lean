import Netlist.Text

/-! # Sources

A source delivers bytes, and a `Cursor` is the part of it that is still to come, with the position
where that starts. No operation makes a cursor longer (`size_look_le`, `size_skip_le`,
`size_past_le`). -/

namespace Netlist

/-! ## Positions and spans

Lines and columns count from one. A line feed starts a new line, and every other byte moves one
column on, so columns count bytes and not characters. They are kept and shown as counters of 32 bits
that wrap around (`Coords`). A `Pos` is the place itself, without bound. Only its coordinates are
ever shown, and those are where the counters come to that are moved on with each byte
(`coords_advanceBy`). -/

/-- A line and a byte column as they are kept and shown. -/
structure Coords where
  line : UInt32
  col : UInt32
  deriving DecidableEq, Repr, Inhabited

namespace Coords

/-- The coordinates after the byte `b`. Both counters wrap around. -/
def advance (c : Coords) (b : UInt8) : Coords :=
  if b == Ascii.lineFeed then ⟨c.line + 1, 1⟩ else ⟨c.line, c.col + 1⟩

/-- The coordinates after a run of bytes. -/
def advanceBy (c : Coords) (bytes : List UInt8) : Coords := bytes.foldl advance c

/-- Line and column with a colon between them. -/
def text (c : Coords) : String := s!"{c.line}:{c.col}"

end Coords

/-- The place of a byte, without bound: the number of its line and its own number in that line. -/
structure Pos where
  row : Nat
  offset : Nat
  deriving DecidableEq, Repr, Inhabited

namespace Pos

/-- The position of the first byte. -/
def start : Pos := ⟨1, 1⟩

/-- The position after the byte `b`. -/
def advance (p : Pos) (b : UInt8) : Pos :=
  if b == Ascii.lineFeed then ⟨p.row + 1, 1⟩ else ⟨p.row, p.offset + 1⟩

/-- The position after a run of bytes. -/
def advanceBy (p : Pos) (bytes : List UInt8) : Pos := bytes.foldl advance p

/-- What is kept and shown of the position. -/
def coords (p : Pos) : Coords := ⟨.ofNat p.row, .ofNat p.offset⟩

/-- The line that is shown. -/
def line (p : Pos) : Nat := p.coords.line.toNat

/-- The column that is shown. -/
def col (p : Pos) : Nat := p.coords.col.toNat

@[simp] theorem advanceBy_nil (p : Pos) : p.advanceBy [] = p := rfl

@[simp] theorem advanceBy_cons (p : Pos) (b : UInt8) (bytes : List UInt8) :
    p.advanceBy (b :: bytes) = (p.advance b).advanceBy bytes := rfl

theorem advanceBy_append (p : Pos) (xs ys : List UInt8) :
    p.advanceBy (xs ++ ys) = (p.advanceBy xs).advanceBy ys := List.foldl_append

theorem coords_advance (p : Pos) (b : UInt8) : (p.advance b).coords = p.coords.advance b := by
  unfold advance Coords.advance
  split
  · exact congrArg (Coords.mk · 1) (UInt32.ofNat_add p.row 1)
  · exact congrArg (Coords.mk _) (UInt32.ofNat_add p.offset 1)

/-- Counting with 32 bits gives the coordinates of the place. -/
theorem coords_advanceBy (p : Pos) (bytes : List UInt8) :
    (p.advanceBy bytes).coords = p.coords.advanceBy bytes := by
  induction bytes generalizing p with
  | nil => rfl
  | cons b bytes ih => rw [advanceBy_cons, ih, coords_advance]; rfl

end Pos

/-- A stretch of text, from the position of its first byte to the position after its last. -/
structure Span where
  start : Pos
  limit : Pos
  deriving DecidableEq, Repr, Inhabited

namespace Span

/-- The empty span at a position. -/
def empty (p : Pos) : Span := ⟨p, p⟩

/-- The coordinates of both ends with two dots between them. -/
def text (s : Span) : String := s!"{s.start.coords.text}..{s.limit.coords.text}"

end Span

/-! ## Sources

A source delivers bytes, and now and then has none to give: a pause answers one look with "no byte"
and is then over, a fault ends the source for good. A look that meets a pause uses it up, so looking
returns a cursor too.

`Source.run` reads the longest run of bytes of a class. -/

/-- What a source has to give next. -/
inductive Item where
  | byte (b : UInt8)
  | pause
  | fault
  deriving DecidableEq, Repr

/-- The items of a source, in order. After the last one there are no more bytes. -/
abbrev Source := List Item

/-- A run of bytes that was read, the byte that the look after it found, if any, and the source
from there on. -/
structure Run where
  bytes : List UInt8
  next : Option UInt8
  rest : Source
  deriving DecidableEq, Repr

namespace Source

/-- A source of bytes alone. -/
def ofBytes (bytes : List UInt8) : Source := bytes.map .byte

/-- The longest run of bytes of the class `p`. A pause or a fault met by the look that should find
the next byte ends the run. -/
def run (p : UInt8 → Bool) : Source → Run
  | .byte b :: rest =>
    if p b then { run p rest with bytes := b :: (run p rest).bytes }
    else ⟨[], some b, .byte b :: rest⟩
  | .pause :: rest => ⟨[], none, rest⟩
  | .fault :: _ => ⟨[], none, []⟩
  | [] => ⟨[], none, []⟩

theorem length_rest_run_le (p : UInt8 → Bool) (s : Source) :
    (s.run p).rest.length + (s.run p).bytes.length ≤ s.length := by
  induction s with
  | nil => simp [run]
  | cons i rest ih =>
    cases i with
    | byte b => by_cases h : p b <;> simp [run, h]; omega
    | pause => simp [run]
    | fault => simp [run]

/-- No byte of the run lies outside the class. -/
theorem mem_run {p : UInt8 → Bool} {s : Source} {b : UInt8} (h : b ∈ (s.run p).bytes) : p b := by
  induction s with
  | nil => simp [run] at h
  | cons i rest ih =>
    cases i with
    | byte a =>
      by_cases ha : p a
      · simp only [run, ha, if_true, List.mem_cons] at h
        rcases h with rfl | h
        · exact ha
        · exact ih h
      · simp [run, ha] at h
    | pause => simp [run] at h
    | fault => simp [run] at h

end Source

/-- The rest of a source and the position where it starts. -/
structure Cursor where
  rest : Source
  pos : Pos
  deriving DecidableEq, Repr

namespace Cursor

/-- The cursor at the start of a source. -/
def ofSource (s : Source) : Cursor := ⟨s, .start⟩

/-- The next byte, if there is one. A pause is used up by the look, a fault ends the source. -/
def look (c : Cursor) : Option UInt8 × Cursor :=
  match c.rest with
  | [] => (none, c)
  | .byte b :: _ => (some b, c)
  | .pause :: rest => (none, { c with rest })
  | .fault :: _ => (none, { c with rest := [] })

/-- The cursor past the next byte. -/
def skip (c : Cursor) : Cursor :=
  match c.rest with
  | .byte b :: rest => ⟨rest, c.pos.advance b⟩
  | _ => c

/-- The next byte, if there is one, and the cursor past it. -/
def pop (c : Cursor) : Option UInt8 × Cursor :=
  match c.look with
  | (some b, c) => (some b, c.skip)
  | (none, c) => (none, c)

/-- The cursor after a run of bytes. -/
def past (c : Cursor) (r : Run) : Cursor := ⟨r.rest, c.pos.advanceBy r.bytes⟩

/-- How many items are still to come. -/
def size (c : Cursor) : Nat := c.rest.length

theorem size_look_le (c : Cursor) : c.look.2.size ≤ c.size := by
  obtain ⟨rest, pos⟩ := c
  rcases rest with _ | ⟨_ | _ | _, _⟩ <;> simp [look, size]

theorem size_skip_le (c : Cursor) : c.skip.size ≤ c.size := by
  obtain ⟨rest, pos⟩ := c
  rcases rest with _ | ⟨_ | _ | _, _⟩ <;> simp [skip, size]

theorem size_pop_le (c : Cursor) : c.pop.2.size ≤ c.size := by
  obtain ⟨rest, pos⟩ := c
  rcases rest with _ | ⟨_ | _ | _, _⟩ <;> simp [pop, look, skip, size]

theorem size_past_le (c : Cursor) (p : UInt8 → Bool) : (c.past (c.rest.run p)).size ≤ c.size := by
  have := c.rest.length_rest_run_le p
  simp only [past, size]
  omega

/-- A look that finds a byte changes nothing, and the byte is the next item. -/
theorem eq_of_look {c d : Cursor} {b : UInt8} (h : c.look = (some b, d)) :
    d = c ∧ ∃ more, c.rest = .byte b :: more := by
  obtain ⟨rest, pos⟩ := c
  rcases rest with _ | ⟨_ | _ | _, more⟩ <;> simp [look] at h
  obtain ⟨rfl, rfl⟩ := h
  exact ⟨rfl, more, rfl⟩

end Cursor

end Netlist
