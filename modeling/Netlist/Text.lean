/-! # Text as bytes

What a netlist text is made of: the classes of ASCII bytes (`Ascii`), characters as bytes and bytes
as characters (`Utf8`), and the values of runs of digits (`Numeral`). -/

/-! ## ASCII bytes

The byte classes of netlist text and the two ways bytes become text: a run of ASCII bytes read as
characters (`text`), and a single byte quoted in a message (`escaped`). Bytes from `0x80` on belong
to no class. -/

namespace Netlist.Ascii

abbrev tab : UInt8 := 0x09

abbrev lineFeed : UInt8 := 0x0A

abbrev formFeed : UInt8 := 0x0C

abbrev carriageReturn : UInt8 := 0x0D

abbrev space : UInt8 := 0x20

abbrev apostrophe : UInt8 := 0x27

abbrev star : UInt8 := 0x2A

abbrev comma : UInt8 := 0x2C

abbrev slash : UInt8 := 0x2F

abbrev question : UInt8 := 0x3F

abbrev backslash : UInt8 := 0x5C

abbrev underscore : UInt8 := 0x5F

abbrev backtick : UInt8 := 0x60

/-- Blanks separate lexemes: space, tab, line feed, form feed and carriage return. The vertical tab
is not a blank. -/
def isBlank (b : UInt8) : Bool :=
  b == space || b == tab || b == lineFeed || b == formFeed || b == carriageReturn

def isDigit (b : UInt8) : Bool := 0x30 ≤ b && b ≤ 0x39

def isUpper (b : UInt8) : Bool := 0x41 ≤ b && b ≤ 0x5A

def isLower (b : UInt8) : Bool := 0x61 ≤ b && b ≤ 0x7A

def isLetter (b : UInt8) : Bool := isUpper b || isLower b

/-- A simple name starts with a letter or an underscore. -/
def isNameStart (b : UInt8) : Bool := isLetter b || b == underscore

/-- A simple name goes on with letters, digits and underscores. -/
def isNamePart (b : UInt8) : Bool := isLetter b || isDigit b || b == underscore

theorem isNamePart_of_isNameStart {b : UInt8} (h : isNameStart b) : isNamePart b := by
  simp only [isNameStart, isNamePart, Bool.or_eq_true] at h ⊢
  exact h.imp_left .inl

/-- The byte as the character of the same number. -/
def char (b : UInt8) : Char := Char.ofNat b.toNat

/-- A run of ASCII bytes as text. -/
def text (bytes : List UInt8) : String := String.ofList (bytes.map char)

/-- The byte in two hexadecimal digits, letters in lower case. -/
def hex (b : UInt8) : String :=
  String.ofList [Nat.digitChar (b.toNat / 16), Nat.digitChar (b.toNat % 16)]

/-- The byte as messages quote it: quotes, the backslash and the three common control characters
with a backslash, other printable bytes as they are, and the rest by number. -/
def escaped (b : UInt8) : String :=
  if b == tab then "\\t"
  else if b == lineFeed then "\\n"
  else if b == carriageReturn then "\\r"
  else if b == apostrophe then "\\'"
  else if b == 0x22 then "\\\""
  else if b == backslash then "\\\\"
  else if 0x20 ≤ b && b ≤ 0x7E then text [b]
  else "\\x" ++ hex b

end Netlist.Ascii

/-! ## UTF-8

Text as bytes and bytes as text. Bytes are cut into pieces, each a character or a malformed
sequence as long as it can still be the start of a character (`pieces`). Strict reading
(`decode?`) refuses malformed pieces, lenient reading (`decodeLossy`) puts the replacement
character for each. -/

namespace Netlist.Utf8

/-- The bytes of a text. -/
def encode (s : String) : List UInt8 := s.toList.flatMap String.utf8EncodeChar

/-- How many bytes follow the lead byte `a`. The bytes `0x80` to `0xC1` and those from `0xF5` on
lead no character. -/
def tailCount? (a : UInt8) : Option Nat :=
  if a < 0x80 then some 0
  else if a < 0xC2 then none
  else if a < 0xE0 then some 1
  else if a < 0xF0 then some 2
  else if a < 0xF5 then some 3
  else none

/-- The byte may stand second after the lead byte `a`: longer forms than needed, surrogates and
numbers above the last code point are excluded here. -/
def isSecond (a b : UInt8) : Bool :=
  if a == 0xE0 then 0xA0 ≤ b && b < 0xC0
  else if a == 0xED then 0x80 ≤ b && b < 0xA0
  else if a == 0xF0 then 0x90 ≤ b && b < 0xC0
  else if a == 0xF4 then 0x80 ≤ b && b < 0x90
  else 0x80 ≤ b && b < 0xC0

/-- The byte may stand third or fourth. -/
def isLater (b : UInt8) : Bool := 0x80 ≤ b && b < 0xC0

/-- The bytes after the lead byte `a`, at most `n`, that continue a character. -/
def tail (a : UInt8) (n : Nat) (rest : List UInt8) : List UInt8 :=
  match rest.take n with
  | [] => []
  | b :: more => if isSecond a b then b :: more.takeWhile isLater else []

/-- The character with the lead byte `a` and the given following bytes: the lead byte gives what
its length mark leaves, every other byte six bits. -/
def assemble (a : UInt8) (following : List UInt8) : Char :=
  let first := match following.length with
    | 0 => a.toNat
    | 1 => a.toNat % 32
    | 2 => a.toNat % 16
    | _ => a.toNat % 8
  Char.ofNat (following.foldl (fun n b => n * 64 + b.toNat % 64) first)

/-- The piece that starts with the byte `a`, and how many further bytes it takes. -/
def piece (a : UInt8) (rest : List UInt8) : Option Char × Nat :=
  match tailCount? a with
  | none => (none, 0)
  | some n =>
    let t := tail a n rest
    (if t.length = n then some (assemble a t) else none, t.length)

/-- The characters and malformed sequences of a byte string, in order. -/
def pieces : List UInt8 → List (Option Char)
  | [] => []
  | a :: rest => (piece a rest).1 :: pieces (rest.drop (piece a rest).2)
termination_by bytes => bytes.length
decreasing_by
  rw [List.length_drop, List.length_cons]
  omega

/-- The text of well-formed bytes. -/
def decode? (bytes : List UInt8) : Option String :=
  ((pieces bytes).mapM id).map String.ofList

/-- The text of any bytes, with the replacement character for each malformed sequence. -/
def decodeLossy (bytes : List UInt8) : String :=
  String.ofList ((pieces bytes).map fun c => c.getD '\uFFFD')

end Netlist.Utf8

/-! ## Numerals

The value of a run of digits in a base. `value?` is the number itself; `word?` is the reading that
gives up as soon as 64 bits do not hold it. -/

namespace Netlist.Numeral

/-- The value of a digit: `0` to `9`, then letters of either case from ten on. -/
def digit? (b : UInt8) : Option Nat :=
  if Ascii.isDigit b then some (b.toNat - 0x30)
  else if Ascii.isUpper b then some (b.toNat - 0x41 + 10)
  else if Ascii.isLower b then some (b.toNat - 0x61 + 10)
  else none

/-- The value of a digit of the given base. -/
def digitBelow? (base : Nat) (b : UInt8) : Option Nat :=
  (digit? b).filter (· < base)

/-- The value of a non-empty run of digits. -/
def value? (base : Nat) : List UInt8 → Option Nat
  | [] => none
  | digits => digits.foldlM (fun n b => (digitBelow? base b).map (n * base + ·)) 0

/-- A number that 64 bits hold. -/
def fit? (n : Nat) : Option Nat := if n < UInt64.size then some n else none

/-- The value of a non-empty run of digits, as long as each partial value fits into 64 bits. -/
def word? (base : Nat) : List UInt8 → Option Nat
  | [] => none
  | digits => digits.foldlM (fun n b => do fit? (n * base + (← digitBelow? base b))) 0

end Netlist.Numeral
