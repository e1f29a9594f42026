import Netlist.Diagnostic

/-! # Pieces of text

Scanning reads a source piece by piece. A piece is a lexeme, a stretch of noise that the options let
the scanner skip, or the end. Each reading returns its piece or an error, and the cursor after it.
An error leaves the cursor where the reading stopped, so that scanning can go on.

`Cursor.piece` reads one piece, after the blanks before it. Its first byte tells what kind of piece
it is. Main statement: every piece but the end takes at least one item of the source
(`size_piece`). -/

namespace Netlist

/-- What is skipped beside blanks. A directive or a block comment is an error otherwise. -/
structure ScanOptions where
  skipTimescale : Bool := false
  skipBlockComments : Bool := false
  deriving DecidableEq, Repr

namespace ScanOptions

/-- Nothing but blanks is skipped. -/
def strict : ScanOptions := {}

/-- The noise that synthesis tools write is skipped. -/
def permissive : ScanOptions := ⟨true, true⟩

end ScanOptions

/-- One piece of text between blanks. -/
inductive Piece where
  | lexeme (l : Lexeme)
  | noise
  | finish
  deriving DecidableEq, Repr

namespace Cursor

/-- What reading from a cursor gives, and the cursor after it. -/
abbrev Scanned (α : Type) := Except ReadError α × Cursor

/-- The error of text that was read from `start` to the cursor. -/
def fail {α : Type} (c : Cursor) (start : Pos) (e : LexicalError) : Scanned α :=
  (.error ⟨.lexical e, ⟨start, c.pos⟩⟩, c)

/-- The lexeme of text that was read from `start` to the cursor. -/
def accept (c : Cursor) (start : Pos) (t : Token) : Scanned Piece :=
  (.ok (.lexeme ⟨t, ⟨start, c.pos⟩⟩), c)

/-- The cursor past the blanks. The look that ends them may have used up a pause. -/
def skipBlanks (c : Cursor) : Cursor := c.past (c.rest.run Ascii.isBlank)

/-- The bytes up to a line feed, and the cursor past that line feed. -/
def takeLine (c : Cursor) : List UInt8 × Cursor :=
  let run := c.rest.run (· != Ascii.lineFeed)
  (run.bytes, if run.next.isSome then (c.past run).skip else c.past run)

theorem size_skipBlanks_le (c : Cursor) : c.skipBlanks.size ≤ c.size := c.size_past_le _

theorem size_takeLine_le (c : Cursor) : c.takeLine.2.size ≤ c.size := by
  have h := c.size_past_le (· != Ascii.lineFeed)
  unfold takeLine
  dsimp only
  split
  · exact Nat.le_trans (size_skip_le _) h
  · exact h

/-! ## Names

Plain names, among which the keywords are found, and escaped names. -/

/-- A plain name or a keyword. -/
def scanWord (c : Cursor) : Scanned Piece :=
  let run := c.rest.run Ascii.isNamePart
  let name := Ascii.text run.bytes
  (c.past run).accept c.pos <| match Keyword.ofText? name with
    | some k => .keyword k
    | none => .identifier name

/-- The byte ends an escaped name. -/
def endsEscape (b : UInt8) : Bool := Ascii.isBlank b || b == Ascii.comma

/-- The name that the bytes of an escaped name spell. -/
def escapedName (bytes : List UInt8) : Except LexicalError String :=
  if bytes.isEmpty then .error .emptyEscape
  else match Utf8.decode? bytes with
    | some name => .ok name
    | none => .error .malformedEscape

/-- An escaped name: the bytes after the backslash up to a blank, which is read too, or to a comma,
which is left. Keywords are names here. -/
def scanEscaped (c : Cursor) : Scanned Piece :=
  let start := c.pos
  let c := c.skip
  let run := c.rest.run fun b => !endsEscape b
  let limit := c.past run
  match run.next with
  | none => limit.fail start .unclosedEscape
  | some b =>
    let span : Span := ⟨start, limit.pos⟩
    let after := if b == Ascii.comma then limit else limit.skip
    match escapedName run.bytes with
    | .ok name => (.ok (.lexeme ⟨.escaped name, span⟩), after)
    | .error e => (.error ⟨.lexical e, span⟩, after)

theorem size_scanWord_le {b : UInt8} {more : Source} {pos : Pos} (hb : Ascii.isNamePart b) :
    (scanWord ⟨.byte b :: more, pos⟩).2.size ≤ more.length := by
  have := more.length_rest_run_le Ascii.isNamePart
  simp only [scanWord, accept, past, Source.run, hb, if_true, size]
  omega

theorem size_scanEscaped_le (c : Cursor) : c.scanEscaped.2.size ≤ c.skip.size := by
  have h := c.skip.size_past_le fun b => !endsEscape b
  have h' := (c.skip.past (c.skip.rest.run fun b => !endsEscape b)).size_skip_le
  unfold scanEscaped
  dsimp only
  split
  · exact h
  · split <;> dsimp only <;> split <;> omega

/-! ## Constants

Single-bit constants, written as a decimal number or with a width and a base. -/

/-- The base that a letter after the apostrophe of a constant names, in either case. -/
def base? (b : UInt8) : Option Nat :=
  match (Ascii.char b).toLower with
  | 'b' => some 2
  | 'o' => some 8
  | 'd' => some 10
  | 'h' => some 16
  | _ => none

/-- The byte belongs to the digits of a sized constant, valid or not. -/
def isSizedPart (b : UInt8) : Bool := Ascii.isNamePart b || b == Ascii.question

/-- The constant with the given digits, if these denote zero or one. -/
def judgeConstant (c : Cursor) (start : Pos) (base : Nat) (digits : List UInt8) : Scanned Piece :=
  match Numeral.word? base digits with
  | some 0 => c.accept start (.constant false)
  | some 1 => c.accept start (.constant true)
  | _ => c.fail start (.unsupportedConstant (Ascii.text digits))

/-- The part of a sized constant after its width and apostrophe. -/
def scanSized (c : Cursor) (start : Pos) (width : String) : Scanned Piece :=
  match c.pop with
  | (letter, c) =>
    match letter.bind base? with
    | none => c.fail start (.missingBase width)
    | some base =>
      if width != "1" then c.fail start (.wideConstant width)
      else
        let run := c.rest.run isSizedPart
        (c.past run).judgeConstant start base (run.bytes.filter (· != Ascii.underscore))

/-- A constant: a decimal number, or a width, an apostrophe, a base letter and digits. Only the
values zero and one and the width one are supported. -/
def scanConstant (c : Cursor) : Scanned Piece :=
  let start := c.pos
  let run := c.rest.run Ascii.isDigit
  match (c.past run).look with
  | (next, c) =>
    if next == some Ascii.apostrophe then c.skip.scanSized start (Ascii.text run.bytes)
    else c.judgeConstant start 10 run.bytes

theorem judgeConstant_snd (c : Cursor) (start : Pos) (base : Nat) (digits : List UInt8) :
    (c.judgeConstant start base digits).2 = c := by
  unfold judgeConstant
  split <;> rfl

theorem size_scanSized_le (c : Cursor) (start : Pos) (width : String) :
    (c.scanSized start width).2.size ≤ c.size := by
  have h := c.size_pop_le
  unfold scanSized
  dsimp only
  split
  · exact h
  · split
    · exact h
    · rw [judgeConstant_snd]
      exact Nat.le_trans (size_past_le _ _) h

theorem size_scanConstant_le {b : UInt8} {more : Source} {pos : Pos} (hb : Ascii.isDigit b) :
    (scanConstant ⟨.byte b :: more, pos⟩).2.size ≤ more.length := by
  have h : (past ⟨.byte b :: more, pos⟩ (Source.run Ascii.isDigit (.byte b :: more))).size
      ≤ more.length := by
    have := more.length_rest_run_le Ascii.isDigit
    simp only [past, Source.run, hb, if_true, size]
    omega
  have hl := Nat.le_trans (size_look_le _) h
  unfold scanConstant
  dsimp only
  split
  · exact Nat.le_trans (size_scanSized_le _ _ _) (Nat.le_trans (size_skip_le _) hl)
  · rw [judgeConstant_snd]
    exact hl

/-! ## Comments and directives

Line comments are lexemes. Block comments and time scale directives are noise where the options
allow them, and errors elsewhere. -/

/-- The bytes less one carriage return at their end. -/
def dropReturn (bytes : List UInt8) : List UInt8 :=
  if bytes.getLast? = some Ascii.carriageReturn then bytes.dropLast else bytes

/-- The rest of a block comment. -/
structure Block where
  bytes : List UInt8
  closed : Bool
  rest : Source

/-- The bytes after the opening of a block comment, through its closing star and slash.
`afterStar` tells that the byte before them is a star of the comment's inside. -/
def blockTail (afterStar : Bool) : Source → Block
  | .byte b :: rest =>
    if afterStar && b == Ascii.slash then ⟨[b], true, rest⟩
    else
      let block := blockTail (b == Ascii.star) rest
      { block with bytes := b :: block.bytes }
  | .pause :: rest => ⟨[], false, rest⟩
  | .fault :: _ => ⟨[], false, []⟩
  | [] => ⟨[], false, []⟩

/-- What starts with a slash: a line comment, which is a lexeme through its line feed, or a block
comment, which is noise. -/
def scanSlash (options : ScanOptions) (c : Cursor) : Scanned Piece :=
  let start := c.pos
  match c.skip.look with
  | (next, c) =>
    if next == some Ascii.slash then
      let (bytes, c) := c.skip.takeLine
      c.accept start (.comment (Utf8.decodeLossy (dropReturn bytes)))
    else if next == some Ascii.star then
      if options.skipBlockComments then
        let c := c.skip
        let block := blockTail false c.rest
        let c : Cursor := ⟨block.rest, c.pos.advanceBy block.bytes⟩
        if block.closed then (.ok .noise, c) else c.fail start .unclosedBlockComment
      else c.fail start .blockComment
    else c.fail start .loneSlash

/-- A directive: noise through the end of its line if its word is the one that sets the time scale.
The word of a directive is made of letters and underscores. -/
def scanDirective (options : ScanOptions) (c : Cursor) : Scanned Piece :=
  if options.skipTimescale then
    let start := c.pos
    let c := c.skip
    let run := c.rest.run Ascii.isNameStart
    let c := c.past run
    if Ascii.text run.bytes == "timescale" then (.ok .noise, c.takeLine.2)
    else c.fail start (.unknownDirective (Ascii.text run.bytes))
  else c.fail c.pos (.unexpectedByte Ascii.backtick)

theorem length_rest_blockTail_le (afterStar : Bool) (s : Source) :
    (blockTail afterStar s).rest.length ≤ s.length := by
  induction s generalizing afterStar with
  | nil => simp [blockTail]
  | cons i rest ih =>
    cases i with
    | byte b =>
      unfold blockTail
      split
      · simp
      · exact Nat.le_trans (ih _) (by simp)
    | pause => simp [blockTail]
    | fault => simp [blockTail]

theorem size_scanSlash_le (options : ScanOptions) (c : Cursor) :
    (c.scanSlash options).2.size ≤ c.skip.size := by
  have h := c.skip.size_look_le
  have hs := Nat.le_trans c.skip.look.2.size_skip_le h
  unfold scanSlash
  dsimp only
  split
  · exact Nat.le_trans (size_takeLine_le _) hs
  · split
    · split
      · have hb := Nat.le_trans (length_rest_blockTail_le false c.skip.look.2.skip.rest) hs
        split <;> exact hb
      · exact h
    · exact h

theorem size_scanDirective_le {options : ScanOptions} {c d : Cursor} {p : Piece}
    (h : c.scanDirective options = (.ok p, d)) : d.size ≤ c.skip.size := by
  unfold scanDirective at h
  split at h
  · dsimp only at h
    split at h
    · injection h with _ h
      subst h
      exact Nat.le_trans (size_takeLine_le _) (c.skip.size_past_le _)
    · simp [fail] at h
  · simp [fail] at h

/-! ## Pieces -/

/-- The piece that starts with the byte `b` at the cursor. A byte that starts nothing is left. -/
def scanFrom (options : ScanOptions) (b : UInt8) (c : Cursor) : Scanned Piece :=
  if b == Ascii.backtick then c.scanDirective options
  else if b == Ascii.slash then c.scanSlash options
  else if b == Ascii.backslash then c.scanEscaped
  else if Ascii.isNameStart b then c.scanWord
  else if Ascii.isDigit b then c.scanConstant
  else match Punct.ofByte? b with
    | some p => c.skip.accept c.pos (.punct p)
    | none => c.fail c.pos (.unexpectedByte b)

/-- The next piece after blanks. Its first byte takes a look of its own after the looks that skip
the blanks. So a pause that ends the blanks does not end the text; but a blank after that pause is
taken for the first byte of a piece, and refused. -/
def piece (options : ScanOptions) (c : Cursor) : Scanned Piece :=
  match c.skipBlanks.look with
  | (none, c) => (.ok .finish, c)
  | (some b, c) => c.scanFrom options b

/-- A piece that starts at a byte takes that byte. -/
theorem size_scanFrom_le {options : ScanOptions} {b : UInt8} {more : Source} {pos : Pos}
    {p : Piece} {d : Cursor} (h : scanFrom options b ⟨.byte b :: more, pos⟩ = (.ok p, d)) :
    d.size ≤ more.length := by
  have hd : (scanFrom options b ⟨.byte b :: more, pos⟩).2.size = d.size := by rw [h]
  unfold scanFrom at h hd
  split at h
  · exact size_scanDirective_le h
  · rename_i h1
    rw [if_neg h1] at hd
    split at h
    · rename_i h2
      rw [if_pos h2] at hd
      exact hd ▸ size_scanSlash_le options ⟨.byte b :: more, pos⟩
    · rename_i h2
      rw [if_neg h2] at hd
      split at h
      · rename_i h3
        rw [if_pos h3] at hd
        exact hd ▸ size_scanEscaped_le ⟨.byte b :: more, pos⟩
      · rename_i h3
        rw [if_neg h3] at hd
        split at h
        · rename_i h4
          rw [if_pos h4] at hd
          exact hd ▸ size_scanWord_le (Ascii.isNamePart_of_isNameStart h4)
        · rename_i h4
          rw [if_neg h4] at hd
          split at h
          · rename_i h5
            rw [if_pos h5] at hd
            exact hd ▸ size_scanConstant_le h5
          · split at h
            · simp only [accept, skip, Prod.mk.injEq] at h
              simp [← h.2, size]
            · simp [fail] at h

/-- Every piece but the end takes at least one item of the source. -/
theorem size_piece {options : ScanOptions} {c d : Cursor} {p : Piece}
    (h : c.piece options = (.ok p, d)) : d.size < c.size ∨ p = .finish ∧ d.size ≤ c.size := by
  have hs := c.size_skipBlanks_le
  have hl := c.skipBlanks.size_look_le
  unfold piece at h
  split at h
  · rename_i e he
    simp only [Prod.mk.injEq, Except.ok.injEq] at h
    rw [he, h.2] at hl
    exact .inr ⟨h.1.symm, Nat.le_trans hl hs⟩
  · rename_i b e he
    obtain ⟨rfl, more, hm⟩ := eq_of_look he
    refine .inl (Nat.lt_of_lt_of_le ?_ hs)
    have hc : c.skipBlanks = ⟨.byte b :: more, c.skipBlanks.pos⟩ := by rw [← hm]
    rw [hc] at h ⊢
    exact Nat.lt_succ_of_le (size_scanFrom_le h)

end Cursor

end Netlist
