import Netlist.Lexeme.Stream
import Netlist.Proofs.Utf8
import Netlist.Token

/-! # Names

Names are told apart by characters where they are written and by bytes where they are scanned. The
two classifications agree on ASCII, and the bytes of other characters belong to no class. So a
scanned name is one that can be written: it is not empty and holds no blank and no comma
(`wellFormed_of_scan`). -/

namespace Netlist

/-! ### Bytes of characters -/

namespace Utf8

theorem encodeChar_of_lt {c : Char} (h : c.toNat < 0x80) :
    String.utf8EncodeChar c = [UInt8.ofNat c.toNat] := by
  rw [encodeChar_eq, if_pos (by omega)]

/-- A byte of a character is the character itself, or no ASCII byte. -/
theorem toNat_of_mem_encodeChar {c : Char} {b : UInt8} (h : b ∈ String.utf8EncodeChar c) :
    b.toNat = c.toNat ∨ 0x80 ≤ b.toNat := by
  rw [encodeChar_eq] at h
  split_ifs at h
  · rw [List.mem_singleton] at h
    left
    rw [h, toNat_ofNat_of_lt (by omega)]
  all_goals
    right
    simp only [List.mem_cons, List.not_mem_nil, or_false] at h
    rcases h with rfl | h
    · rw [toNat_ofNat_of_lt (by omega)]; omega
  · rw [h, toNat_ofNat_of_lt (by omega)]; omega
  · rcases h with rfl | rfl <;> rw [toNat_ofNat_of_lt (by omega)] <;> omega
  · rcases h with rfl | rfl | rfl <;> rw [toNat_ofNat_of_lt (by omega)] <;> omega

theorem mem_encode {s : String} {b : UInt8} :
    b ∈ encode s ↔ ∃ c ∈ s.toList, b ∈ String.utf8EncodeChar c := List.mem_flatMap

theorem exists_of_mem_encode {s : String} {b : UInt8} (h : b ∈ encode s) (hb : b.toNat < 0x80) :
    ∃ c ∈ s.toList, c.toNat = b.toNat := by
  obtain ⟨c, hc, h⟩ := mem_encode.mp h
  refine ⟨c, hc, ?_⟩
  have := toNat_of_mem_encodeChar h
  omega

theorem mem_encode_of_lt {s : String} {c : Char} (h : c ∈ s.toList) (hc : c.toNat < 0x80) :
    UInt8.ofNat c.toNat ∈ encode s :=
  mem_encode.mpr ⟨c, h, by rw [encodeChar_of_lt hc]; exact List.mem_singleton.mpr rfl⟩

theorem encode_of_lt {s : String} (h : ∀ c ∈ s.toList, c.toNat < 0x80) :
    encode s = s.toList.map fun c => UInt8.ofNat c.toNat := by
  unfold encode
  rw [List.map_eq_flatMap]
  exact List.flatMap_congr fun c hc => encodeChar_of_lt (h c hc)

end Utf8

/-! ### Classes of bytes and of characters -/

namespace Ascii

theorem isBlank_iff {b : UInt8} : isBlank b = true ↔ b.toNat = 0x20 ∨ b.toNat = 0x09 ∨
    b.toNat = 0x0A ∨ b.toNat = 0x0C ∨ b.toNat = 0x0D := by
  simp [isBlank, space, tab, lineFeed, formFeed, carriageReturn, ← UInt8.toNat_inj, or_assoc]

theorem isNameStart_iff {b : UInt8} : isNameStart b = true ↔ (0x41 ≤ b.toNat ∧ b.toNat ≤ 0x5A) ∨
    (0x61 ≤ b.toNat ∧ b.toNat ≤ 0x7A) ∨ b.toNat = 0x5F := by
  simp [isNameStart, isLetter, isUpper, isLower, underscore, ← UInt8.toNat_inj,
    UInt8.le_iff_toNat_le, or_assoc]

theorem isNamePart_iff {b : UInt8} : isNamePart b = true ↔ (0x41 ≤ b.toNat ∧ b.toNat ≤ 0x5A) ∨
    (0x61 ≤ b.toNat ∧ b.toNat ≤ 0x7A) ∨ (0x30 ≤ b.toNat ∧ b.toNat ≤ 0x39) ∨ b.toNat = 0x5F := by
  simp [isNamePart, isLetter, isUpper, isLower, isDigit, underscore, ← UInt8.toNat_inj,
    UInt8.le_iff_toNat_le, or_assoc]

theorem toNat_char {b : UInt8} (h : b.toNat < 0x80) : (char b).toNat = b.toNat :=
  Utf8.toNat_charOfNat (.inl (by omega))

theorem text_encode {s : String} (h : ∀ c ∈ s.toList, c.toNat < 0x80) :
    text (Utf8.encode s) = s := by
  unfold text
  rw [Utf8.encode_of_lt h, List.map_map, List.map_congr_left (g := id) fun c hc => ?_,
    List.map_id, String.ofList_toList]
  have := h c hc
  rw [Function.comp_apply, char, Utf8.toNat_ofNat_of_lt (by omega), Char.ofNat_toNat, id]

theorem encode_text {bytes : List UInt8} (h : ∀ b ∈ bytes, b.toNat < 0x80) :
    Utf8.encode (text bytes) = bytes := by
  have hlt : ∀ c ∈ (text bytes).toList, c.toNat < 0x80 := fun c hc => by
    rw [text, String.toList_ofList, List.mem_map] at hc
    obtain ⟨b, hb, rfl⟩ := hc
    rw [toNat_char (h b hb)]
    exact h b hb
  rw [Utf8.encode_of_lt hlt, text, String.toList_ofList, List.map_map,
    List.map_congr_left (g := id) fun b hb => ?_, List.map_id]
  rw [Function.comp_apply, toNat_char (h b hb), UInt8.ofNat_toNat, id]

end Ascii

theorem isAlpha_iff {c : Char} : c.isAlpha = true ↔ (0x41 ≤ c.toNat ∧ c.toNat ≤ 0x5A) ∨
    (0x61 ≤ c.toNat ∧ c.toNat ≤ 0x7A) := by
  have h : c.isAlpha = (decide (c.val ≥ 'A'.val ∧ c.val ≤ 'Z'.val) ||
      (decide (c.val ≥ 'a'.val) && decide (c.val ≤ 'z'.val))) := rfl
  simp [h, UInt32.le_iff_toNat_le]

theorem isNameStart_iff {c : Char} : isNameStart c = true ↔ (0x41 ≤ c.toNat ∧ c.toNat ≤ 0x5A) ∨
    (0x61 ≤ c.toNat ∧ c.toNat ≤ 0x7A) ∨ c.toNat = 0x5F := by
  simp [isNameStart, isAlpha_iff, ← Char.toNat_inj, or_assoc]

theorem isNamePart_iff {c : Char} : isNamePart c = true ↔ (0x41 ≤ c.toNat ∧ c.toNat ≤ 0x5A) ∨
    (0x61 ≤ c.toNat ∧ c.toNat ≤ 0x7A) ∨ (0x30 ≤ c.toNat ∧ c.toNat ≤ 0x39) ∨ c.toNat = 0x5F := by
  simp [isNamePart, Char.isAlphanum, isAlpha_iff, Char.isDigit_iff_toNat, ← Char.toNat_inj,
    or_assoc]

theorem isSimpleName_iff {s : String} : isSimpleName s = true ↔
    ∃ c rest, s.toList = c :: rest ∧ isNameStart c = true ∧
      ∀ d ∈ s.toList, isNamePart d = true := by
  unfold isSimpleName
  cases h : s.toList with
  | nil => simp
  | cons c rest =>
    have hs : isNameStart c = true → isNamePart c = true := fun hc => by
      rw [isNameStart_iff] at hc; rw [isNamePart_iff]; omega
    simp only [Bool.and_eq_true, List.all_eq_true, List.mem_cons, forall_eq_or_imp]
    constructor
    · rintro ⟨h1, h2⟩; exact ⟨c, rest, rfl, h1, hs h1, h2⟩
    · rintro ⟨_, _, he, h1, -, h2⟩
      obtain ⟨rfl, rfl⟩ := List.cons.inj he
      exact ⟨h1, h2⟩

/-! ### Names that can be written -/

/-- The character ends an escaped name: a blank or a comma. -/
def endsName (c : Char) : Bool :=
  c == ' ' || c == '\t' || c == '\n' || c == '\x0c' || c == '\r' || c == ','

/-- The text is a name: it is not empty and holds no blank and no comma. -/
def IsName (s : String) : Prop := s ≠ "" ∧ ∀ c ∈ s.toList, endsName c = false

theorem endsName_iff {c : Char} : endsName c = true ↔ c.toNat = 0x20 ∨ c.toNat = 0x09 ∨
    c.toNat = 0x0A ∨ c.toNat = 0x0C ∨ c.toNat = 0x0D ∨ c.toNat = 0x2C := by
  simp [endsName, ← Char.toNat_inj, or_assoc]

theorem endsEscape_iff {b : UInt8} : Cursor.endsEscape b = true ↔ b.toNat = 0x20 ∨
    b.toNat = 0x09 ∨ b.toNat = 0x0A ∨ b.toNat = 0x0C ∨ b.toNat = 0x0D ∨ b.toNat = 0x2C := by
  simp only [Cursor.endsEscape, Bool.or_eq_true, Ascii.isBlank_iff, beq_iff_eq, ← UInt8.toNat_inj,
    Ascii.comma, UInt8.reduceToNat, or_assoc]

theorem ne_empty_of_toList {s : String} {c : Char} {cs : List Char} (h : s.toList = c :: cs) :
    s ≠ "" := by
  rintro rfl
  simp at h

theorem isName_of_isSimpleName {s : String} (h : isSimpleName s = true) : IsName s := by
  obtain ⟨c, rest, hs, -, hp⟩ := isSimpleName_iff.mp h
  refine ⟨ne_empty_of_toList hs, fun d hd => Bool.eq_false_iff.mpr fun he => ?_⟩
  have hd := isNamePart_iff.mp (hp d hd)
  rw [endsName_iff] at he
  omega

/-- Bytes that do not end an escaped name spell characters that do not end a name. -/
theorem isName_iff_bytes {s : String} :
    IsName s ↔ Utf8.encode s ≠ [] ∧ ∀ b ∈ Utf8.encode s, Cursor.endsEscape b = false := by
  refine and_congr ?_ ⟨fun h b hb => ?_, fun h c hc => ?_⟩
  · rw [not_iff_not]
    constructor
    · rintro rfl; rfl
    · intro h
      have := Utf8.decode?_encode s
      rw [h, show ([] : List UInt8) = Utf8.encode "" from rfl, Utf8.decode?_encode] at this
      exact (Option.some.inj this).symm
  · refine Bool.eq_false_iff.mpr fun he => ?_
    rw [endsEscape_iff] at he
    obtain ⟨c, hc, hn⟩ := Utf8.exists_of_mem_encode hb (by omega)
    have := h c hc
    rw [Bool.eq_false_iff, Ne, endsName_iff] at this
    omega
  · refine Bool.eq_false_iff.mpr fun he => ?_
    rw [endsName_iff] at he
    have := h _ (Utf8.mem_encode_of_lt hc (by omega))
    rw [Bool.eq_false_iff, Ne, endsEscape_iff, Utf8.toNat_ofNat_of_lt (by omega)] at this
    omega

theorem isSimpleName_text {b : UInt8} {bytes : List UInt8} (hb : Ascii.isNameStart b = true)
    (h : ∀ x ∈ b :: bytes, Ascii.isNamePart x = true) :
    isSimpleName (Ascii.text (b :: bytes)) = true := by
  have ht : (Ascii.text (b :: bytes)).toList = (b :: bytes).map Ascii.char := by simp [Ascii.text]
  rw [isSimpleName_iff, ht]
  refine ⟨_, _, rfl, ?_, fun d hd => ?_⟩
  · rw [Ascii.isNameStart_iff] at hb
    rw [isNameStart_iff, Ascii.toNat_char (by omega)]
    exact hb
  · obtain ⟨x, hx, rfl⟩ := List.mem_map.mp hd
    have hx := Ascii.isNamePart_iff.mp (h x hx)
    rw [isNamePart_iff, Ascii.toNat_char (by omega)]
    exact hx

/-! ### Scanned tokens -/

/-- The token is one that scanning can give: its name can be written, and a comment keeps to its
line. -/
def Token.WellFormed : Token → Prop
  | .identifier name => isSimpleName name = true ∧ Keyword.ofText? name = none
  | .escaped name => IsName name
  | .comment text => '\n' ∉ text.toList
  | _ => True

/-- The token is no comment. -/
def Token.isSignificant : Token → Bool
  | .comment _ => false
  | _ => true

theorem Token.eq_comment_of_isSignificant {t : Token} (h : t.isSignificant = false) :
    ∃ text, t = .comment text := by
  cases t <;> first | exact ⟨_, rfl⟩ | cases h

theorem Token.isSignificant_of_name? {t : Token} {name : String} (h : t.name? = some name) :
    t.isSignificant = true := by
  cases t <;> first | rfl | cases h

theorem Token.ne_keyword_of_name? {t : Token} {name : String} (h : t.name? = some name)
    (k : Keyword) : t ≠ .keyword k := by
  rintro rfl
  cases h

theorem Token.WellFormed.isName {t : Token} {name : String} (h : t.WellFormed)
    (hn : t.name? = some name) : IsName name := by
  cases t <;> simp only [Token.name?, Option.some.injEq, reduceCtorEq] at hn <;> subst hn
  · exact isName_of_isSimpleName h.1
  · exact h

namespace Cursor

/-- The piece, if it is a lexeme, has a well-formed token. -/
def PieceWellFormed (r : Scanned Piece) : Prop :=
  ∀ l, r.1 = .ok (.lexeme l) → l.token.WellFormed

theorem pieceWellFormed_fail (c : Cursor) (start : Pos) (e : LexicalError) :
    PieceWellFormed (c.fail start e) := fun l h => by simp [fail] at h

theorem pieceWellFormed_accept {c : Cursor} {start : Pos} {t : Token} (ht : t.WellFormed) :
    PieceWellFormed (c.accept start t) := fun l h => by
  simp only [accept, Except.ok.injEq, Piece.lexeme.injEq] at h
  rw [← h]
  exact ht

theorem pieceWellFormed_scanWord {b : UInt8} {more : Source} {pos : Pos}
    (hb : Ascii.isNameStart b = true) : PieceWellFormed (scanWord ⟨.byte b :: more, pos⟩) := by
  have hr : (Source.run Ascii.isNamePart (.byte b :: more)).bytes =
      b :: (more.run Ascii.isNamePart).bytes := by
    simp [Source.run, Ascii.isNamePart_of_isNameStart hb]
  unfold scanWord
  simp only [hr]
  refine pieceWellFormed_accept ?_
  split
  · trivial
  · rename_i hk
    refine ⟨isSimpleName_text hb fun x hx => ?_, hk⟩
    rw [← hr] at hx
    exact Source.mem_run hx

theorem pieceWellFormed_scanEscaped (c : Cursor) : PieceWellFormed c.scanEscaped := by
  unfold scanEscaped
  dsimp only
  split
  · exact pieceWellFormed_fail _ _ _
  · split
    · rename_i name hn
      intro l hl
      simp only [Except.ok.injEq, Piece.lexeme.injEq] at hl
      rw [← hl]
      unfold escapedName at hn
      split at hn
      · simp at hn
      · rename_i hne
        split at hn
        · rename_i s hs
          injection hn with hn
          subst hn
          rw [Utf8.decode?_eq_some_iff] at hs
          refine isName_iff_bytes.mpr ⟨?_, fun b hb => ?_⟩
          · rw [← hs]
            simpa using hne
          · rw [← hs] at hb
            simpa using Source.mem_run hb
        · simp at hn
    · intro l hl
      simp at hl

theorem pieceWellFormed_judgeConstant (c : Cursor) (start : Pos) (base : Nat)
    (digits : List UInt8) : PieceWellFormed (c.judgeConstant start base digits) := by
  unfold judgeConstant
  split
  · exact pieceWellFormed_accept trivial
  · exact pieceWellFormed_accept trivial
  · exact pieceWellFormed_fail _ _ _

theorem pieceWellFormed_scanConstant (c : Cursor) : PieceWellFormed c.scanConstant := by
  unfold scanConstant
  dsimp only
  split
  · unfold scanSized
    dsimp only
    split
    · exact pieceWellFormed_fail _ _ _
    · split
      · exact pieceWellFormed_fail _ _ _
      · exact pieceWellFormed_judgeConstant _ _ _ _
  · exact pieceWellFormed_judgeConstant _ _ _ _

theorem mem_of_mem_dropReturn {bytes : List UInt8} {b : UInt8} (h : b ∈ dropReturn bytes) :
    b ∈ bytes := by
  unfold dropReturn at h
  split at h
  · exact List.dropLast_subset _ h
  · exact h

/-- Lenient reading makes no line feeds. -/
theorem lineFeed_mem_of_mem_decodeLossy {bytes : List UInt8}
    (h : '\n' ∈ (Utf8.decodeLossy bytes).toList) : Ascii.lineFeed ∈ bytes := by
  simp only [Utf8.decodeLossy, String.toList_ofList, List.mem_map] at h
  obtain ⟨c?, hc, he⟩ := h
  cases c? with
  | none => exact absurd he (by decide)
  | some c =>
    obtain rfl : c = '\n' := he
    obtain ⟨before, after, rfl⟩ := Utf8.exists_of_mem_pieces hc
    simp [show String.utf8EncodeChar '\n' = [Ascii.lineFeed] from rfl]

theorem pieceWellFormed_scanSlash (options : ScanOptions) (c : Cursor) :
    PieceWellFormed (c.scanSlash options) := by
  unfold scanSlash
  dsimp only
  split
  · refine pieceWellFormed_accept fun h => ?_
    have h := mem_of_mem_dropReturn (lineFeed_mem_of_mem_decodeLossy h)
    have := Source.mem_run h
    simp at this
  · split
    · split
      · split
        · intro l h; simp at h
        · exact pieceWellFormed_fail _ _ _
      · exact pieceWellFormed_fail _ _ _
    · exact pieceWellFormed_fail _ _ _

theorem pieceWellFormed_piece (options : ScanOptions) (c : Cursor) :
    PieceWellFormed (c.piece options) := by
  unfold piece
  split
  · intro l h; simp at h
  · rename_i b d hd
    obtain ⟨rfl, more, hm⟩ := eq_of_look hd
    unfold scanFrom
    split_ifs with h1 h2 h3 h4 h5
    · unfold scanDirective
      split_ifs
      · dsimp only
        split_ifs
        · intro l h; simp at h
        · exact pieceWellFormed_fail _ _ _
      · exact pieceWellFormed_fail _ _ _
    · exact pieceWellFormed_scanSlash _ _
    · exact pieceWellFormed_scanEscaped _
    · have hc : c.skipBlanks = ⟨.byte b :: more, c.skipBlanks.pos⟩ := by rw [← hm]
      rw [hc]
      exact pieceWellFormed_scanWord h4
    · exact pieceWellFormed_scanConstant _
    · split
      · exact pieceWellFormed_accept trivial
      · exact pieceWellFormed_fail _ _ _

/-- **Every scanned token is well formed.** -/
theorem wellFormed_of_scan {options : ScanOptions} {c d : Cursor} {l : Lexeme}
    (h : c.scan options = (.ok (some l), d)) : l.token.WellFormed := by
  fun_induction scan options c with
  | case1 c m e he =>
    simp only [Prod.mk.injEq, Except.ok.injEq, Option.some.injEq] at h
    rw [← h.1]
    exact pieceWellFormed_piece options c m (by rw [he])
  | case2 c e he ih => exact ih h
  | case3 => simp at h
  | case4 => simp at h

end Cursor

end Netlist
