import Netlist.Lexeme.Stream
import Netlist.Proofs.Constant

/-! # The bytes of a lexeme

Every token has its spellings (`Token.SpelledBy`), and what follows a spelling must not go on in it
(`Token.EndsBefore`). Main statements: where a token is spelled and ends it is read, under any
options (`Cursor.piece_of_readFrom`), and nothing else is read (`Cursor.exists_readFrom_of_piece`).
-/

namespace Netlist

namespace Token

/-- The bytes are a spelling of the token. The text of a comment is what the bytes behind its
slashes read as, less one carriage return at their end; a line feed after them belongs to the
spelling and not to the text. -/
def SpelledBy (t : Token) (lex : List UInt8) : Prop :=
  match t with
  | identifier name => lex = Utf8.encode name
  | keyword k => lex = Utf8.encode k.text
  | escaped name => lex = Ascii.backslash :: Utf8.encode name
  | constant value => IsBit value lex
  | punct p => lex = [p.byte]
  | comment text => ∃ line ending, lex = Ascii.slash :: Ascii.slash :: (line ++ ending) ∧
      Ascii.lineFeed ∉ line ∧ (ending = [] ∨ ending = [Ascii.lineFeed]) ∧
      text = Utf8.decodeLossy (Cursor.dropReturn line)

/-- The spelling of the token ends before `rest`, after the bytes `tail` that are read with it: an
escaped name takes the blank that ends it, but no comma, and the last comment of a text may lack its
line feed. -/
def EndsBefore (t : Token) (lex tail rest : List UInt8) : Prop :=
  match t with
  | identifier _ | keyword _ => tail = [] ∧ Stops Ascii.isNamePart rest
  | escaped _ => (∃ b, Ascii.isBlank b = true ∧ tail = [b]) ∨
      tail = [] ∧ rest.head? = some Ascii.comma
  | constant _ => tail = [] ∧ Stops (continuesConstant lex) rest
  | punct _ => tail = []
  | comment _ => tail = [] ∧ (lex.getLast? = some Ascii.lineFeed ∨ rest = [])

/-- The token is read from the bytes `lex`, with the bytes `tail` after them, before `rest`. -/
structure ReadFrom (t : Token) (lex tail rest : List UInt8) : Prop where
  wellFormed : t.WellFormed
  spelledBy : t.SpelledBy lex
  endsBefore : t.EndsBefore lex tail rest

end Token

namespace Cursor

variable {options : ScanOptions} {d : Cursor} {pos : Pos} {l : Lexeme} {name : String}
  {b : UInt8} {bytes line ending rest : List UInt8}

theorem accept_eq_lexeme {c : Cursor} {start : Pos} {t : Token}
    (h : c.accept start t = (.ok (.lexeme l), d)) : l = ⟨t, ⟨start, c.pos⟩⟩ ∧ d = c := by
  cases h
  exact ⟨rfl, rfl⟩

/-! ### Words -/

/-- The token that a run of name bytes is. -/
def wordToken (word : List UInt8) : Token :=
  match Keyword.ofText? (Ascii.text word) with
  | some k => .keyword k
  | none => .identifier (Ascii.text word)

theorem scanWord_append {word : List UInt8} (hw : ∀ x ∈ word, Ascii.isNamePart x = true)
    (hs : Stops Ascii.isNamePart rest) (pos : Pos) :
    scanWord ⟨.ofBytes (word ++ rest), pos⟩ =
      accept ⟨.ofBytes rest, pos.advanceBy word⟩ pos (wordToken word) := by
  simp only [scanWord, Source.run_append hw hs, past]
  rfl

theorem lt_of_isNamePart {b : UInt8} (h : Ascii.isNamePart b = true) : b.toNat < 0x80 := by
  rw [Ascii.isNamePart_iff] at h
  omega

theorem readFrom_wordToken {word : List UInt8} (hb : Ascii.isNameStart b = true)
    (hw : ∀ x ∈ b :: word, Ascii.isNamePart x = true) (hs : Stops Ascii.isNamePart rest) :
    (wordToken (b :: word)).ReadFrom (b :: word) [] rest := by
  have he : Utf8.encode (Ascii.text (b :: word)) = b :: word :=
    Ascii.encode_text fun x hx => lt_of_isNamePart (hw x hx)
  unfold wordToken
  split
  · rename_i k hk
    refine ⟨trivial, ?_, rfl, hs⟩
    rw [Token.SpelledBy, Keyword.text_eq_of_ofText? hk, he]
  · rename_i hk
    exact ⟨⟨isSimpleName_text hb hw, hk⟩, he.symm, rfl, hs⟩

theorem encode_of_isSimpleName (h : isSimpleName name = true) :
    ∃ b bytes, Utf8.encode name = b :: bytes ∧ Ascii.isNameStart b = true ∧
      (∀ x ∈ b :: bytes, Ascii.isNamePart x = true) ∧ Ascii.text (b :: bytes) = name := by
  obtain ⟨c, cs, hc, hs, hp⟩ := isSimpleName_iff.mp h
  have hlt : ∀ d ∈ name.toList, d.toNat < 0x80 := fun d hd => by
    have := isNamePart_iff.mp (hp d hd)
    omega
  have hmap := Utf8.encode_of_lt hlt
  have he : Utf8.encode name =
      UInt8.ofNat c.toNat :: cs.map fun d => UInt8.ofNat d.toNat := by
    rw [hmap, hc, List.map_cons]
  have hc' : c ∈ name.toList := by simp [hc]
  refine ⟨_, _, he, ?_, fun x hx => ?_, ?_⟩
  · have hb := isNameStart_iff.mp hs
    rwa [Ascii.isNameStart_iff, Utf8.toNat_ofNat_of_lt (by have := hlt c hc'; omega)]
  · rw [← he, hmap, List.mem_map] at hx
    obtain ⟨d, hd, rfl⟩ := hx
    have := isNamePart_iff.mp (hp d hd)
    rwa [Ascii.isNamePart_iff, Utf8.toNat_ofNat_of_lt (by omega)]
  · rw [← he, Ascii.text_encode hlt]

theorem isSimpleName_text_keyword (k : Keyword) : isSimpleName k.text = true := by
  cases k <;> decide

theorem wordToken_text_keyword (k : Keyword) : wordToken (Utf8.encode k.text) = .keyword k := by
  obtain ⟨b, more, he, -, -, htext⟩ := encode_of_isSimpleName (isSimpleName_text_keyword k)
  rw [he, wordToken, htext, Keyword.ofText?_text]

/-! ### Escaped names -/

theorem escapedName_eq_ok_iff : escapedName bytes = .ok name ↔
    bytes = Utf8.encode name ∧ bytes ≠ [] := by
  unfold escapedName
  rw [← Utf8.decode?_eq_some_iff]
  split_ifs with h
  · simp [List.isEmpty_iff.mp h]
  · have hne : bytes ≠ [] := by simpa using h
    cases Utf8.decode? bytes <;> simp [hne]

/-- An escaped name is read up to a blank, which is taken, or to a comma, which is left. -/
theorem scanEscaped_of_readFrom {tail : List UInt8}
    (h : (Token.escaped name).ReadFrom bytes tail rest) (pos : Pos) :
    scanEscaped ⟨.ofBytes (bytes ++ (tail ++ rest)), pos⟩ =
      (.ok (.lexeme ⟨.escaped name, ⟨pos, pos.advanceBy bytes⟩⟩),
        ⟨.ofBytes rest, pos.advanceBy (bytes ++ tail)⟩) := by
  obtain ⟨hn, rfl, hends⟩ := h
  obtain ⟨hne, hpart⟩ := isName_iff_bytes.mp hn
  have hpart : ∀ x ∈ Utf8.encode name, (!endsEscape x) = true := fun x hx => by
    rw [hpart x hx]; rfl
  have hname : escapedName (Utf8.encode name) = .ok name := escapedName_eq_ok_iff.mpr ⟨rfl, hne⟩
  rcases hends with ⟨b, hb, rfl⟩ | ⟨rfl, hcomma⟩
  · have hs : Stops (fun x => !endsEscape x) (b :: rest) :=
      stops_cons_iff.mpr (by simp [endsEscape, hb])
    have hcomma : (b == Ascii.comma) = false := by
      rw [beq_eq_false_iff_ne]
      rintro rfl
      exact absurd hb (by decide)
    simp only [List.cons_append, List.nil_append, scanEscaped, skip_ofBytes_cons,
      Source.run_append hpart hs, List.head?_cons, hname, hcomma, past, Bool.false_eq_true,
      if_false, Pos.advanceBy_cons, Pos.advanceBy_append, Pos.advanceBy_nil]
  · obtain ⟨rest, rfl⟩ := List.head?_eq_some_iff.mp hcomma
    have hs : Stops (fun x => !endsEscape x) (Ascii.comma :: rest) := stops_cons_iff.mpr rfl
    simp only [List.cons_append, List.nil_append, scanEscaped, skip_ofBytes_cons,
      Source.run_append hpart hs, List.head?_cons, hname, past, beq_self_eq_true, if_true,
      Pos.advanceBy_cons, List.append_nil]

theorem exists_readFrom_of_scanEscaped
    (h : scanEscaped ⟨.ofBytes (Ascii.backslash :: bytes), pos⟩ = (.ok (.lexeme l), d)) :
    ∃ lex tail rest, Ascii.backslash :: bytes = lex ++ (tail ++ rest) ∧
      l.token.ReadFrom lex tail rest ∧ l.span = ⟨pos, pos.advanceBy lex⟩ ∧
      d = ⟨.ofBytes rest, pos.advanceBy (lex ++ tail)⟩ := by
  obtain ⟨part, rest, rfl, hpart, hs⟩ := Source.exists_run (fun x => !endsEscape x) bytes
  simp only [scanEscaped, skip_ofBytes_cons, Source.run_append hpart hs, past] at h
  cases rest with
  | nil => simp [fail] at h
  | cons b rest =>
    simp only [List.head?_cons] at h
    split at h
    · rename_i name hname
      cases h
      obtain ⟨rfl, hne⟩ := escapedName_eq_ok_iff.mp hname
      have hn : IsName name := isName_iff_bytes.mpr ⟨hne, fun x hx => by simpa using hpart x hx⟩
      have hb : Ascii.isBlank b = true ∨ b = Ascii.comma := by
        have hb := stops_cons_iff.mp hs
        rwa [Bool.not_eq_false', endsEscape, Bool.or_eq_true, beq_iff_eq] at hb
      by_cases hcomma : b = Ascii.comma
      · subst hcomma
        refine ⟨_, [], Ascii.comma :: rest, rfl, ⟨hn, rfl, .inr ⟨rfl, rfl⟩⟩, rfl, ?_⟩
        rw [List.append_nil]
        rfl
      · refine ⟨_, [b], rest, rfl, ⟨hn, rfl, .inl ⟨b, hb.resolve_right hcomma, rfl⟩⟩, rfl, ?_⟩
        rw [if_neg (by simpa using hcomma), skip_ofBytes_cons, Pos.advanceBy_append]
        rfl
    · cases h

/-! ### Lines -/

theorem exists_line (bytes : List UInt8) : ∃ line ending rest, bytes = line ++ (ending ++ rest) ∧
    Ascii.lineFeed ∉ line ∧ (ending = [Ascii.lineFeed] ∨ ending = [] ∧ rest = []) := by
  obtain ⟨line, rest, rfl, hline, hs⟩ := Source.exists_run (· != Ascii.lineFeed) bytes
  have hline : Ascii.lineFeed ∉ line := fun hm => absurd (hline _ hm) (by decide)
  cases rest with
  | nil => exact ⟨line, [], [], rfl, hline, .inr ⟨rfl, rfl⟩⟩
  | cons b rest =>
    obtain rfl : b = Ascii.lineFeed := by simpa using stops_cons_iff.mp hs
    exact ⟨line, [Ascii.lineFeed], rest, rfl, hline, .inl rfl⟩

theorem takeLine_append (hl : Ascii.lineFeed ∉ line)
    (he : ending = [Ascii.lineFeed] ∨ ending = [] ∧ rest = []) (pos : Pos) :
    takeLine ⟨.ofBytes (line ++ (ending ++ rest)), pos⟩ =
      (line, ⟨.ofBytes rest, pos.advanceBy (line ++ ending)⟩) := by
  have hline : ∀ x ∈ line, (x != Ascii.lineFeed) = true := fun x hx => by
    rw [bne_iff_ne]
    rintro rfl
    exact hl hx
  rcases he with rfl | ⟨rfl, rfl⟩
  · have hrun := Source.run_append hline
      (show Stops _ (Ascii.lineFeed :: rest) from stops_cons_iff.mpr rfl)
    simp only [List.singleton_append, takeLine, hrun, past, List.head?_cons, Option.isSome_some,
      if_true, skip_ofBytes_cons, Pos.advanceBy_append, Pos.advanceBy_cons, Pos.advanceBy_nil]
  · simp only [List.append_nil, takeLine, Source.run_of_forall hline, past, Option.isSome_none,
      Bool.false_eq_true, if_false, Source.ofBytes_nil]

theorem scanSlash_append (options : ScanOptions) (hl : Ascii.lineFeed ∉ line)
    (he : ending = [Ascii.lineFeed] ∨ ending = [] ∧ rest = []) (pos : Pos) :
    scanSlash options
        ⟨.ofBytes (Ascii.slash :: Ascii.slash :: (line ++ (ending ++ rest))), pos⟩ =
      accept ⟨.ofBytes rest, pos.advanceBy (Ascii.slash :: Ascii.slash :: (line ++ ending))⟩ pos
        (.comment (Utf8.decodeLossy (dropReturn line))) := by
  simp only [scanSlash, skip_ofBytes_cons, look_ofBytes, List.head?_cons, beq_self_eq_true, if_true,
    takeLine_append hl he, Pos.advanceBy_cons]

theorem scanSlash_of_readFrom (options : ScanOptions) {text : String} {tail : List UInt8}
    (h : (Token.comment text).ReadFrom bytes tail rest) (pos : Pos) :
    scanSlash options ⟨.ofBytes (bytes ++ (tail ++ rest)), pos⟩ =
      (.ok (.lexeme ⟨.comment text, ⟨pos, pos.advanceBy bytes⟩⟩),
        ⟨.ofBytes rest, pos.advanceBy (bytes ++ tail)⟩) := by
  obtain ⟨-, ⟨line, ending, rfl, hline, hending, rfl⟩, rfl, hends⟩ := h
  have he : ending = [Ascii.lineFeed] ∨ ending = [] ∧ rest = [] := by
    rcases hending with rfl | rfl
    · refine .inr ⟨rfl, hends.resolve_left fun hlast => ?_⟩
      have hm := List.mem_of_getLast? hlast
      rw [List.append_nil, List.mem_cons, List.mem_cons] at hm
      exact hm.elim (by decide) fun hm => hm.elim (by decide) hline
    · exact .inl rfl
  have hscan := scanSlash_append options hline he pos
  rw [List.append_nil, List.nil_append, List.cons_append, List.cons_append, List.append_assoc]
  exact hscan

theorem exists_readFrom_of_scanSlash
    (h : scanSlash options ⟨.ofBytes (Ascii.slash :: bytes), pos⟩ = (.ok (.lexeme l), d)) :
    ∃ lex tail rest, Ascii.slash :: bytes = lex ++ (tail ++ rest) ∧
      l.token.ReadFrom lex tail rest ∧ l.span = ⟨pos, pos.advanceBy lex⟩ ∧
      d = ⟨.ofBytes rest, pos.advanceBy (lex ++ tail)⟩ := by
  by_cases hslash : bytes.head? = some Ascii.slash
  · obtain ⟨bytes, rfl⟩ := List.head?_eq_some_iff.mp hslash
    obtain ⟨line, ending, rest, rfl, hline, he⟩ := exists_line bytes
    have hw := pieceWellFormed_scanSlash options
      ⟨.ofBytes (Ascii.slash :: Ascii.slash :: (line ++ (ending ++ rest))), pos⟩ l (by rw [h])
    rw [scanSlash_append options hline he] at h
    obtain ⟨rfl, rfl⟩ := accept_eq_lexeme h
    refine ⟨Ascii.slash :: Ascii.slash :: (line ++ ending), [], rest, by simp,
      ⟨hw, ⟨line, ending, rfl, hline, ?_, rfl⟩, rfl, ?_⟩, rfl, by rw [List.append_nil]⟩
    · exact he.elim .inr fun he => .inl he.1
    · rcases he with rfl | ⟨rfl, rfl⟩
      · exact .inl (by rw [← List.cons_append, ← List.cons_append, List.getLast?_concat])
      · exact .inr rfl
  · have hslash : (bytes.head? == some Ascii.slash) = false := beq_eq_false_iff_ne.mpr hslash
    simp only [scanSlash, skip_ofBytes_cons, look_ofBytes, hslash, Bool.false_eq_true,
      if_false] at h
    split_ifs at h <;> simp [fail] at h

/-! ### Pieces -/

theorem scanFrom_of_isNameStart (options : ScanOptions) (hb : Ascii.isNameStart b = true)
    (c : Cursor) : c.scanFrom options b = c.scanWord := by
  have h := Ascii.isNameStart_iff.mp hb
  have hne : ∀ x : UInt8, b.toNat ≠ x.toNat → (b == x) = false := fun x hx =>
    beq_eq_false_iff_ne.mpr fun he => hx (he ▸ rfl)
  have h1 := hne Ascii.backtick (by simp only [Ascii.backtick, UInt8.reduceToNat]; omega)
  have h2 := hne Ascii.slash (by simp only [Ascii.slash, UInt8.reduceToNat]; omega)
  have h3 := hne Ascii.backslash (by simp only [Ascii.backslash, UInt8.reduceToNat]; omega)
  simp only [scanFrom, h1, h2, h3, hb, Bool.false_eq_true, if_false, if_true]

theorem isDigit_iff : Ascii.isDigit b = true ↔ 0x30 ≤ b.toNat ∧ b.toNat ≤ 0x39 := by
  simp [Ascii.isDigit, UInt8.le_iff_toNat_le]

theorem scanFrom_of_isDigit (options : ScanOptions) (hb : Ascii.isDigit b = true) (c : Cursor) :
    c.scanFrom options b = c.scanConstant := by
  have h := isDigit_iff.mp hb
  have hne : ∀ x : UInt8, b.toNat ≠ x.toNat → (b == x) = false := fun x hx =>
    beq_eq_false_iff_ne.mpr fun he => hx (he ▸ rfl)
  have h1 := hne Ascii.backtick (by simp only [Ascii.backtick, UInt8.reduceToNat]; omega)
  have h2 := hne Ascii.slash (by simp only [Ascii.slash, UInt8.reduceToNat]; omega)
  have h3 := hne Ascii.backslash (by simp only [Ascii.backslash, UInt8.reduceToNat]; omega)
  have h4 : Ascii.isNameStart b = false := by
    rw [Bool.eq_false_iff, Ne, Ascii.isNameStart_iff]
    omega
  simp only [scanFrom, h1, h2, h3, h4, hb, Bool.false_eq_true, if_false, if_true]

theorem scanFrom_slash (options : ScanOptions) (c : Cursor) :
    c.scanFrom options Ascii.slash = c.scanSlash options := rfl

theorem scanMark (options : ScanOptions) (p : Punct) (bytes : List UInt8) (pos : Pos) :
    scanFrom options p.byte ⟨.ofBytes (p.byte :: bytes), pos⟩ =
      accept ⟨.ofBytes bytes, pos.advance p.byte⟩ pos (.punct p) := by
  cases p <;> rfl

theorem scanDirective_ne_lexeme {c : Cursor} :
    c.scanDirective options ≠ (.ok (.lexeme l), d) := by
  unfold scanDirective
  dsimp only
  split_ifs <;> simp [fail]

theorem isBlank_eq_false_of_isNameStart (hb : Ascii.isNameStart b = true) :
    Ascii.isBlank b = false := by
  rw [Ascii.isNameStart_iff] at hb
  rw [Bool.eq_false_iff, Ne, Ascii.isBlank_iff]
  omega

theorem isBlank_eq_false_of_isDigit (hb : Ascii.isDigit b = true) : Ascii.isBlank b = false := by
  rw [isDigit_iff] at hb
  rw [Bool.eq_false_iff, Ne, Ascii.isBlank_iff]
  omega

theorem exists_cons_of_isBit {value : Bool} (h : IsBit value bytes) :
    ∃ b more, bytes = b :: more ∧ Ascii.isDigit b = true := by
  cases h with
  | decimal hd hv =>
    cases bytes with
    | nil => simp [Numeral.value?] at hv
    | cons b more => exact ⟨b, more, rfl, hd b List.mem_cons_self⟩
  | sized => exact ⟨_, _, rfl, by decide⟩

/-- **A token is read** where it is spelled and ends, at the first byte of its spelling. -/
theorem scanFrom_of_readFrom (options : ScanOptions) {t : Token} {lex tail rest : List UInt8}
    (h : t.ReadFrom lex tail rest) :
    ∃ b more, lex = b :: more ∧ Ascii.isBlank b = false ∧ ∀ pos,
      scanFrom options b ⟨.ofBytes (lex ++ (tail ++ rest)), pos⟩ =
        (.ok (.lexeme ⟨t, ⟨pos, pos.advanceBy lex⟩⟩),
          ⟨.ofBytes rest, pos.advanceBy (lex ++ tail)⟩) := by
  have word {name : String} (hn : isSimpleName name = true) (hl : lex = Utf8.encode name)
      (ht : wordToken (Utf8.encode name) = t) (htail : tail = [])
      (hs : Stops Ascii.isNamePart rest) : ∃ b more, lex = b :: more ∧ Ascii.isBlank b = false ∧
        ∀ pos, scanFrom options b ⟨.ofBytes (lex ++ (tail ++ rest)), pos⟩ =
          (.ok (.lexeme ⟨t, ⟨pos, pos.advanceBy lex⟩⟩),
            ⟨.ofBytes rest, pos.advanceBy (lex ++ tail)⟩) := by
    obtain ⟨b, more, he, hb, hpart, -⟩ := encode_of_isSimpleName hn
    rw [hl, he, htail]
    refine ⟨b, more, rfl, isBlank_eq_false_of_isNameStart hb, fun pos => ?_⟩
    rw [scanFrom_of_isNameStart options hb, List.nil_append, scanWord_append hpart hs, ← he, ht,
      List.append_nil]
    rfl
  cases t with
  | identifier name =>
    obtain ⟨⟨hn, hk⟩, hl, htail, hs⟩ := h
    obtain ⟨b, more, he, -, -, htext⟩ := encode_of_isSimpleName hn
    exact word hn hl (by rw [he, wordToken, htext, hk]) htail hs
  | keyword k =>
    obtain ⟨-, hl, htail, hs⟩ := h
    exact word (isSimpleName_text_keyword k) hl (wordToken_text_keyword k) htail hs
  | escaped name =>
    obtain rfl := h.spelledBy
    exact ⟨_, _, rfl, by decide, scanEscaped_of_readFrom h⟩
  | constant value =>
    obtain ⟨-, hbit, rfl, hs⟩ := h
    obtain ⟨b, more, rfl, hb⟩ := exists_cons_of_isBit hbit
    refine ⟨b, more, rfl, isBlank_eq_false_of_isDigit hb, fun pos => ?_⟩
    rw [scanFrom_of_isDigit options hb, List.nil_append, scanConstant_of_isBit hbit hs,
      List.append_nil]
    rfl
  | punct p =>
    obtain ⟨-, rfl, rfl⟩ := h
    exact ⟨_, _, rfl, by cases p <;> decide, fun pos => scanMark options p rest pos⟩
  | comment text =>
    obtain ⟨line, ending, rfl, -⟩ := h.spelledBy
    exact ⟨_, _, rfl, by decide, scanSlash_of_readFrom options h⟩

/-- **What is read** is spelled and ends there. -/
theorem exists_readFrom_of_scanFrom
    (h : scanFrom options b ⟨.ofBytes (b :: bytes), pos⟩ = (.ok (.lexeme l), d)) :
    ∃ lex tail rest, b :: bytes = lex ++ (tail ++ rest) ∧ l.token.ReadFrom lex tail rest ∧
      l.span = ⟨pos, pos.advanceBy lex⟩ ∧ d = ⟨.ofBytes rest, pos.advanceBy (lex ++ tail)⟩ := by
  unfold scanFrom at h
  split_ifs at h with _ hslash hback hname hdigit
  · exact absurd h scanDirective_ne_lexeme
  · obtain rfl := beq_iff_eq.mp hslash
    exact exists_readFrom_of_scanSlash h
  · obtain rfl := beq_iff_eq.mp hback
    exact exists_readFrom_of_scanEscaped h
  · obtain ⟨word, rest, rfl, hword, hs⟩ := Source.exists_run Ascii.isNamePart bytes
    have hword : ∀ x ∈ b :: word, Ascii.isNamePart x = true :=
      List.forall_mem_cons.mpr ⟨Ascii.isNamePart_of_isNameStart hname, hword⟩
    have hscan := scanWord_append hword hs pos
    rw [List.cons_append, h] at hscan
    obtain ⟨rfl, rfl⟩ := accept_eq_lexeme hscan.symm
    exact ⟨b :: word, [], rest, rfl, readFrom_wordToken hname hword hs, rfl,
      by rw [List.append_nil]⟩
  · obtain ⟨value, lex, rest, he, hbit, hs, rfl, rfl⟩ := exists_isBit_of_scanConstant h
    exact ⟨lex, [], rest, he, ⟨trivial, hbit, rfl, hs⟩, rfl, by rw [List.append_nil]⟩
  · split at h
    · rename_i p hp
      obtain ⟨rfl, rfl⟩ := accept_eq_lexeme h
      obtain rfl := Punct.byte_of_ofByte? hp
      exact ⟨[p.byte], [], bytes, rfl, ⟨trivial, rfl, rfl⟩, rfl, rfl⟩
    · simp [fail] at h

variable {blanks : List UInt8}

theorem piece_of_blanks {options : ScanOptions} (hw : ∀ b ∈ blanks, Ascii.isBlank b = true)
    {x : UInt8} (hx : Ascii.isBlank x = false) (more : List UInt8) (pos : Pos) :
    piece options ⟨.ofBytes (blanks ++ x :: more), pos⟩ =
      scanFrom options x ⟨.ofBytes (x :: more), pos.advanceBy blanks⟩ := by
  have h : skipBlanks ⟨.ofBytes (blanks ++ x :: more), pos⟩ =
      ⟨.ofBytes (x :: more), pos.advanceBy blanks⟩ := by
    simp only [skipBlanks, past, Source.run_append hw (stops_cons_iff.mpr hx)]
  unfold piece
  rw [h]
  rfl

theorem piece_of_blanks_nil (options : ScanOptions) (hw : ∀ b ∈ blanks, Ascii.isBlank b = true)
    (pos : Pos) :
    piece options ⟨.ofBytes blanks, pos⟩ = (.ok .finish, ⟨[], pos.advanceBy blanks⟩) := by
  have h : skipBlanks ⟨.ofBytes blanks, pos⟩ = ⟨[], pos.advanceBy blanks⟩ := by
    simp only [skipBlanks, past, Source.run_of_forall hw]
  rw [piece, h]
  rfl

/-- **A token is read after blanks** where it is spelled and ends. -/
theorem piece_of_readFrom (options : ScanOptions) (hw : ∀ b ∈ blanks, Ascii.isBlank b = true)
    {t : Token} {lex tail rest : List UInt8} (h : t.ReadFrom lex tail rest) (pos : Pos) :
    piece options ⟨.ofBytes (blanks ++ (lex ++ (tail ++ rest))), pos⟩ =
      (.ok (.lexeme ⟨t, ⟨pos.advanceBy blanks, (pos.advanceBy blanks).advanceBy lex⟩⟩),
        ⟨.ofBytes rest, (pos.advanceBy blanks).advanceBy (lex ++ tail)⟩) := by
  obtain ⟨b, more, rfl, hb, hscan⟩ := scanFrom_of_readFrom options h
  rw [List.cons_append, piece_of_blanks hw hb]
  exact hscan _

/-- **A piece that is a lexeme** is a token that is spelled after blanks and ends. -/
theorem exists_readFrom_of_piece (h : piece options ⟨.ofBytes bytes, pos⟩ = (.ok (.lexeme l), d)) :
    ∃ blanks lex tail rest, bytes = blanks ++ (lex ++ (tail ++ rest)) ∧
      (∀ b ∈ blanks, Ascii.isBlank b = true) ∧ l.token.ReadFrom lex tail rest ∧
      l.span = ⟨pos.advanceBy blanks, (pos.advanceBy blanks).advanceBy lex⟩ ∧
      d = ⟨.ofBytes rest, (pos.advanceBy blanks).advanceBy (lex ++ tail)⟩ := by
  obtain ⟨blanks, rest, rfl, hw, hs⟩ := Source.exists_run Ascii.isBlank bytes
  cases rest with
  | nil =>
    rw [List.append_nil, piece_of_blanks_nil options hw] at h
    cases h
  | cons b rest =>
    rw [piece_of_blanks hw (stops_cons_iff.mp hs)] at h
    obtain ⟨lex, tail, rest', he, hread, hspan, hd⟩ := exists_readFrom_of_scanFrom h
    exact ⟨blanks, lex, tail, rest', by rw [he], hw, hread, hspan, hd⟩

end Cursor

end Netlist
