import Netlist.Proofs.Lexed

/-! # Scanning written tokens

Tokens are written one after the other with white space after each; a mark needs none
(`Spelled`). Scanning gives the tokens of such a text again, whatever the options
(`scans_spelled`). -/

namespace Netlist

/-! ### Scanning several lexemes -/

namespace Cursor

/-- Noise is skipped; any other piece is what scanning gives. -/
theorem scan_eq (options : ScanOptions) (c : Cursor) : c.scan options =
    match c.piece options with
    | (.ok (.lexeme l), d) => (.ok (some l), d)
    | (.ok .noise, d) => d.scan options
    | (.ok .finish, d) => (.ok none, d)
    | (.error e, d) => (.error e, d) := by
  rw [scan]
  split <;> rename_i h <;> rw [h]

theorem scanAll_eq (options : ScanOptions) (c : Cursor) : c.scanAll options =
    match c.scan options with
    | (.ok none, d) => (.ok [], d)
    | (.ok (some l), d) =>
      match d.scanAll options with
      | (.ok ls, e) => (.ok (l :: ls), e)
      | (.error err, e) => (.error err, e)
    | (.error err, d) => (.error err, d) := by
  rw [scanAll]
  split <;> rename_i h <;> exact h ▸ rfl

/-- Scanning from the cursor gives the lexemes one after the other and then stands at another
cursor. -/
inductive Scans (options : ScanOptions) : Cursor → List Lexeme → Cursor → Prop
  | nil (c : Cursor) : Scans options c [] c
  | cons {c d e : Cursor} {l : Lexeme} {ls : List Lexeme} :
      c.scan options = (.ok (some l), d) → Scans options d ls e → Scans options c (l :: ls) e

theorem Scans.append {options : ScanOptions} {c d e : Cursor} {ls ms : List Lexeme}
    (h : Scans options c ls d) (h' : Scans options d ms e) : Scans options c (ls ++ ms) e := by
  induction h with
  | nil => exact h'
  | cons hs _ ih => exact .cons hs (ih h')

theorem Scans.exists_append {options : ScanOptions} {c e : Cursor} {ls ms : List Lexeme}
    (h : Scans options c (ls ++ ms) e) : ∃ d, Scans options c ls d ∧ Scans options d ms e := by
  induction ls generalizing c with
  | nil => exact ⟨c, .nil c, h⟩
  | cons l ls ih =>
    cases h with
    | cons hs hrest =>
      obtain ⟨d, hls, hms⟩ := ih hrest
      exact ⟨d, .cons hs hls, hms⟩

theorem Scans.scanAll {options : ScanOptions} {c d e : Cursor} {ls : List Lexeme}
    (h : Scans options c ls d) (he : d.scan options = (.ok none, e)) :
    c.scanAll options = (.ok ls, e) := by
  induction h with
  | nil => rw [scanAll_eq, he]
  | cons hl _ ih =>
    rw [scanAll_eq]
    simp only [hl, ih he]

theorem scan_of_scanFrom {options : ScanOptions} {blanks : List UInt8}
    (hw : ∀ b ∈ blanks, Ascii.isBlank b = true) {x : UInt8} (hx : Ascii.isBlank x = false)
    {more : List UInt8} {pos : Pos} {l : Lexeme} {d : Cursor}
    (h : scanFrom options x ⟨.ofBytes (x :: more), pos.advanceBy blanks⟩ =
      (.ok (.lexeme l), d)) :
    scan options ⟨.ofBytes (blanks ++ x :: more), pos⟩ = (.ok (some l), d) := by
  rw [← piece_of_blanks hw hx] at h
  rw [scan_eq, h]

theorem scan_blanks (options : ScanOptions) {blanks : List UInt8}
    (hw : ∀ b ∈ blanks, Ascii.isBlank b = true) (pos : Pos) :
    scan options ⟨.ofBytes blanks, pos⟩ = (.ok none, ⟨[], pos.advanceBy blanks⟩) := by
  rw [scan_eq, piece_of_blanks_nil options hw]

end Cursor

/-! ### The spelling of a token -/

namespace Token

/-- The token without the white space that ends it. -/
def spelling : Token → String
  | escaped name => "\\" ++ name
  | comment text => "//" ++ text
  | t => t.text

/-- The token that a name is written as. -/
def ofName (name : String) : Token :=
  if isSimpleName name && (Keyword.ofText? name).isNone then .identifier name else .escaped name

@[simp] theorem name?_ofName (name : String) : (ofName name).name? = some name := by
  unfold ofName
  split <;> rfl

theorem spelling_ofName (name : String) : (ofName name).spelling = quoteName name := by
  unfold ofName quoteName
  split <;> rfl

theorem wellFormed_ofName {name : String} (h : IsName name) : (ofName name).WellFormed := by
  unfold ofName
  split
  · rename_i hn
    rwa [Bool.and_eq_true, Option.isNone_iff_eq_none] at hn
  · exact h

@[simp] theorem isSignificant_ofName (name : String) : (ofName name).isSignificant = true := by
  unfold ofName
  split <;> rfl

end Token

/-! ### Scanning one token -/

namespace Cursor

/-- The scanned text is the token, and what is left after it is white space and then `bytes`. -/
def Gives (r : Scanned Piece) (t : Token) (bytes : List UInt8) : Prop :=
  ∃ span pos blanks, (∀ b ∈ blanks, Ascii.isBlank b = true) ∧
    r = (.ok (.lexeme ⟨t, span⟩), ⟨.ofBytes (blanks ++ bytes), pos⟩)

theorem isNamePart_eq_false_of_isBlank {b : UInt8} (hb : Ascii.isBlank b = true) :
    Ascii.isNamePart b = false := by
  rw [Ascii.isBlank_iff] at hb
  rw [Bool.eq_false_iff, Ne, Ascii.isNamePart_iff]
  omega

theorem isBit_constantName (value : Bool) : IsBit value (Utf8.encode (constantName value)) := by
  cases value
  · exact @IsBit.sized false 0x62 2 [0x30] rfl (List.forall_mem_singleton.mpr rfl) rfl
  · exact @IsBit.sized true 0x62 2 [0x31] rfl (List.forall_mem_singleton.mpr rfl) rfl

/-- A written token is read where a blank follows: its spelling, and the blank too if it is an
escaped name. -/
theorem exists_readFrom_spelling {t : Token} (ht : t.WellFormed) (hs : t.isSignificant = true)
    {b : UInt8} (hb : Ascii.isBlank b = true) (bytes : List UInt8) :
    ∃ tail blanks, b :: bytes = tail ++ (blanks ++ bytes) ∧
      (∀ x ∈ blanks, Ascii.isBlank x = true) ∧
      t.ReadFrom (Utf8.encode t.spelling) tail (blanks ++ bytes) := by
  have hname : Stops Ascii.isNamePart ([b] ++ bytes) :=
    stops_cons_iff.mpr (isNamePart_eq_false_of_isBlank hb)
  have hblank : ∀ x ∈ [b], Ascii.isBlank x = true := List.forall_mem_singleton.mpr hb
  cases t with
  | identifier name => exact ⟨[], [b], rfl, hblank, ht, rfl, rfl, hname⟩
  | keyword k => exact ⟨[], [b], rfl, hblank, ht, rfl, rfl, hname⟩
  | escaped name =>
    refine ⟨[b], [], rfl, List.forall_mem_nil _, ht, ?_, .inl ⟨b, hb, rfl⟩⟩
    rw [Token.spelling, Utf8.encode_append]
    rfl
  | constant value =>
    have hmem : Ascii.apostrophe ∈ Utf8.encode (constantName value) := by cases value <;> decide
    have hsized : isSizedPart b = false := by
      rw [isSizedPart, isNamePart_eq_false_of_isBlank hb, Bool.false_or, beq_eq_false_iff_ne]
      rintro rfl
      exact absurd hb (by decide)
    refine ⟨[], [b], rfl, hblank, trivial, isBit_constantName value, rfl, stops_cons_iff.mpr ?_⟩
    rw [continuesConstant]
    exact (if_pos hmem).trans hsized
  | punct p => exact ⟨[], [b], rfl, hblank, ht, by cases p <;> rfl, rfl⟩
  | comment text => cases hs

end Cursor

/-! ### Comments -/

/-- The text less one carriage return at its end. -/
def trimReturn (text : String) : String :=
  if text.toList.getLast? = some '\r' then String.ofList text.toList.dropLast else text

theorem trimReturn_eq_self_iff {text : String} :
    trimReturn text = text ↔ text.toList.getLast? ≠ some '\r' := by
  unfold trimReturn
  split_ifs with h
  · refine iff_of_false (fun he => ?_) (by simp [h])
    have hl := congrArg (fun s : String => s.toList.length) he
    have hne : text.toList ≠ [] := fun hn => by simp [hn] at h
    have := List.length_pos_of_ne_nil hne
    simp only [String.toList_ofList, List.length_dropLast] at hl
    omega
  · exact iff_of_true rfl h

namespace Cursor

theorem dropReturn_encode (text : String) :
    dropReturn (Utf8.encode text) = Utf8.encode (trimReturn text) := by
  rcases List.eq_nil_or_concat text.toList with hs | ⟨init, c, hs⟩
  · simp [dropReturn, trimReturn, Utf8.encode, hs]
  · have hb : Utf8.encode text = init.flatMap String.utf8EncodeChar ++ String.utf8EncodeChar c := by
      simp [Utf8.encode, hs]
    by_cases hc : c = '\r'
    · have ht : trimReturn text = String.ofList init := by simp [trimReturn, hs, hc]
      have he : String.utf8EncodeChar c = [Ascii.carriageReturn] := by rw [hc]; rfl
      rw [ht, Utf8.encode_ofList, hb, he]
      simp [dropReturn]
    · have ht : trimReturn text = text := trimReturn_eq_self_iff.mpr (by simp [hs, hc])
      rw [ht, dropReturn, if_neg]
      intro hl
      have hm : Ascii.carriageReturn ∈ String.utf8EncodeChar c := by
        rw [hb, List.getLast?_append_of_ne_nil _ String.utf8EncodeChar_ne_nil] at hl
        exact List.mem_of_getLast? hl
      rcases Utf8.toNat_of_mem_encodeChar hm with h | h
      · exact hc (Char.toNat_inj.mp h.symm)
      · exact absurd h (by decide)

/-- A comment is scanned through the end of its line, and loses a carriage return there. -/
theorem scanSlash_spelling (options : ScanOptions) {text : String} (h : '\n' ∉ text.toList)
    (bytes : List UInt8) (pos : Pos) :
    Gives (scanSlash options ⟨.ofBytes (Ascii.slash :: Ascii.slash ::
        (Utf8.encode text ++ Ascii.lineFeed :: bytes)), pos⟩)
      (.comment (trimReturn text)) bytes := by
  have hin : Ascii.lineFeed ∉ Utf8.encode text := fun hx => by
    obtain ⟨c, hc, hn⟩ := Utf8.exists_of_mem_encode hx (by decide)
    exact h (Char.toNat_inj.mp (show c.toNat = '\n'.toNat from hn) ▸ hc)
  have hscan :=
    @scanSlash_append (Utf8.encode text) [Ascii.lineFeed] bytes options hin (.inl rfl) pos
  rw [dropReturn_encode, Utf8.decodeLossy_encode] at hscan
  exact ⟨_, _, [], List.forall_mem_nil _, hscan⟩

end Cursor

/-! ### Texts of tokens -/

/-- The bytes spell the tokens, with white space after each token that needs it. A comment ends
with its line, and a carriage return before the line feed does not belong to it. -/
inductive Spelled : List Token → List UInt8 → Prop
  | nil : Spelled [] []
  | blank {b : UInt8} {ts : List Token} {bytes : List UInt8} :
      Ascii.isBlank b = true → Spelled ts bytes → Spelled ts (b :: bytes)
  | mark (p : Punct) {ts : List Token} {bytes : List UInt8} :
      Spelled ts bytes → Spelled (.punct p :: ts) (p.byte :: bytes)
  | token {t : Token} {b : UInt8} {ts : List Token} {bytes : List UInt8} :
      t.WellFormed → t.isSignificant = true → Ascii.isBlank b = true → Spelled ts bytes →
        Spelled (t :: ts) (Utf8.encode t.spelling ++ b :: bytes)
  | comment {text : String} {ts : List Token} {bytes : List UInt8} :
      '\n' ∉ text.toList → Spelled ts bytes →
        Spelled (.comment (trimReturn text) :: ts)
          (Utf8.encode ("//" ++ text) ++ Ascii.lineFeed :: bytes)

namespace Cursor

theorem scanFrom_spelling (options : ScanOptions) {t : Token} (ht : t.WellFormed)
    (hs : t.isSignificant = true) {b : UInt8} (hb : Ascii.isBlank b = true)
    (bytes : List UInt8) :
    ∃ x more, Utf8.encode t.spelling ++ b :: bytes = x :: more ∧ Ascii.isBlank x = false ∧
      ∀ pos, Gives (scanFrom options x ⟨.ofBytes (x :: more), pos⟩) t bytes := by
  obtain ⟨tail, blanks, he, hw, hread⟩ := exists_readFrom_spelling ht hs hb bytes
  obtain ⟨x, more, hx, hblank, hscan⟩ := scanFrom_of_readFrom options hread
  refine ⟨x, more ++ b :: bytes, by rw [hx]; rfl, hblank, fun pos => ?_⟩
  have hp := hscan pos
  rw [← he, hx] at hp
  exact ⟨_, _, blanks, hw, hp⟩

theorem scans_cons {options : ScanOptions} {x : UInt8} {more bytes : List UInt8} {t : Token}
    {ts : List Token} (hx : Ascii.isBlank x = false)
    (h : ∀ pos, Gives (scanFrom options x ⟨.ofBytes (x :: more), pos⟩) t bytes)
    (ih : ∀ blanks, (∀ b ∈ blanks, Ascii.isBlank b = true) → ∀ pos, ∃ ls d last,
      ls.map Lexeme.token = ts ∧ Scans options ⟨.ofBytes (blanks ++ bytes), pos⟩ ls d ∧
        d.scan options = (.ok none, ⟨[], last⟩))
    (blanks : List UInt8) (hw : ∀ b ∈ blanks, Ascii.isBlank b = true) (pos : Pos) :
    ∃ ls d last, ls.map Lexeme.token = t :: ts ∧
      Scans options ⟨.ofBytes (blanks ++ x :: more), pos⟩ ls d ∧
        d.scan options = (.ok none, ⟨[], last⟩) := by
  obtain ⟨span, pos', blanks', hw', hgives⟩ := h (pos.advanceBy blanks)
  obtain ⟨ls, d, last, hls, hscans, hend⟩ := ih blanks' hw' pos'
  exact ⟨⟨t, span⟩ :: ls, d, last, by rw [List.map_cons, hls],
    .cons (scan_of_scanFrom hw hx hgives) hscans, hend⟩

/-- **A text of tokens is scanned to its tokens**, with any options and after any blanks, and then
it is at its end. -/
theorem scans_spelled (options : ScanOptions) {ts : List Token} {bytes : List UInt8}
    (h : Spelled ts bytes) (blanks : List UInt8) (hw : ∀ b ∈ blanks, Ascii.isBlank b = true)
    (pos : Pos) :
    ∃ ls d last, ls.map Lexeme.token = ts ∧
      Scans options ⟨.ofBytes (blanks ++ bytes), pos⟩ ls d ∧
        d.scan options = (.ok none, ⟨[], last⟩) := by
  induction h generalizing blanks pos with
  | nil =>
    rw [List.append_nil]
    exact ⟨[], _, _, rfl, .nil _, scan_blanks options hw pos⟩
  | @blank b ts bytes hb _ ih =>
    have h := ih (blanks ++ [b]) (by simpa [or_imp, forall_and] using ⟨hw, hb⟩) pos
    rwa [List.append_assoc] at h
  | @mark p ts bytes _ ih =>
    refine scans_cons (by cases p <;> decide) (fun pos => ?_) ih blanks hw pos
    rw [scanMark]
    exact ⟨_, _, [], by simp, rfl⟩
  | @token t b ts bytes ht hs hb _ ih =>
    obtain ⟨x, more, he, hx, hgives⟩ := scanFrom_spelling options ht hs hb bytes
    rw [he]
    exact scans_cons hx hgives ih blanks hw pos
  | @comment text ts bytes hn _ ih =>
    have he : Utf8.encode ("//" ++ text) ++ Ascii.lineFeed :: bytes =
        Ascii.slash :: Ascii.slash :: (Utf8.encode text ++ Ascii.lineFeed :: bytes) := by
      rw [Utf8.encode_append]; rfl
    rw [he]
    refine scans_cons (by decide) (fun pos => ?_) ih blanks hw pos
    rw [scanFrom_slash]
    exact scanSlash_spelling options hn bytes pos

end Cursor

end Netlist
