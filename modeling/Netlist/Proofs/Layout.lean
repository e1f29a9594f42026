import Netlist.Proofs.Gap
import Netlist.Proofs.Position

/-! # The layout of a text

What has been scanned of a source of bytes are the spellings of the lexemes with gaps before them,
and the span of each lexeme is where its spelling stands (`Laid`), as long as the counters hold it
(`Laid.kept`). Nothing else is taken but the blank that ends an escaped name at the end. Main
statement: `exists_laid_of_scans`. -/

namespace Netlist

/-- The bytes, the first of which is at the position, are the lexemes in a row: each is spelled
behind a gap, from the start of its span up to its limit. -/
inductive Laid (options : ScanOptions) : Pos → List Lexeme → List UInt8 → Prop
  | nil (pos : Pos) : Laid options pos [] []
  | cons {pos : Pos} {t : Token} {gap lex bytes : List UInt8} {ls : List Lexeme} :
      Gap options gap → t.SpelledBy lex →
      Laid options ((pos.advanceBy gap).advanceBy lex) ls bytes →
      Laid options pos
        (⟨t, ⟨pos.advanceBy gap, (pos.advanceBy gap).advanceBy lex⟩⟩ :: ls)
        (gap ++ (lex ++ bytes))

/-- What is taken after the last lexeme: the blank that ends an escaped name, unless a comma ends
it, and nothing otherwise. -/
def Trails (ls : List Lexeme) (trail rest : List UInt8) : Prop :=
  (∃ l name b, ls.getLast? = some l ∧ l.token = .escaped name ∧ Ascii.isBlank b = true ∧
    trail = [b]) ∨
  trail = [] ∧ ∀ l name, ls.getLast? = some l → l.token = .escaped name →
    rest.head? = some Ascii.comma

variable {options : ScanOptions} {pos : Pos} {ls : List Lexeme} {bytes rest trail : List UInt8}

theorem Laid.blanks_append {blanks : List UInt8} (hw : ∀ b ∈ blanks, Ascii.isBlank b = true)
    (h : Laid options (pos.advanceBy blanks) ls bytes) (hne : ls ≠ []) :
    Laid options pos ls (blanks ++ bytes) := by
  cases h with
  | nil => exact absurd rfl hne
  | @cons _ t gap lex bytes ls hgap hlex h =>
    have hpos : (pos.advanceBy blanks).advanceBy gap = pos.advanceBy (blanks ++ gap) :=
      (Pos.advanceBy_append ..).symm
    rw [hpos] at h ⊢
    rw [← List.append_assoc]
    exact .cons (hgap.blanks_append hw) hlex h

theorem Token.EndsBefore.trails {l : Lexeme} {lex tail : List UInt8}
    (h : l.token.EndsBefore lex tail rest) : Trails [l] tail rest := by
  cases ht : l.token with
  | escaped name =>
    rw [ht] at h
    rcases h with ⟨b, hb, rfl⟩ | ⟨rfl, hcomma⟩
    · exact .inl ⟨l, name, b, rfl, ht, hb, rfl⟩
    · exact .inr ⟨rfl, fun _ _ _ _ => hcomma⟩
  | punct p =>
    rw [ht] at h
    refine .inr ⟨h, fun m name hm hn => ?_⟩
    cases hm
    cases ht.symm.trans hn
  | _ =>
    rw [ht] at h
    refine .inr ⟨h.1, fun m name hm hn => ?_⟩
    cases hm
    cases ht.symm.trans hn

theorem Token.EndsBefore.isBlank {t : Token} {lex tail : List UInt8}
    (h : t.EndsBefore lex tail rest) : ∀ b ∈ tail, Ascii.isBlank b = true := by
  cases t with
  | escaped name =>
    rcases h with ⟨b, hb, rfl⟩ | ⟨rfl, -⟩
    · exact List.forall_mem_singleton.mpr hb
    · exact List.forall_mem_nil _
  | punct p =>
    obtain rfl := h
    exact List.forall_mem_nil _
  | _ =>
    obtain ⟨rfl, -⟩ := h
    exact List.forall_mem_nil _

/-- The blank that ends an escaped name belongs to the gap before the next lexeme. -/
theorem exists_laid_of_scans_from {d : Cursor}
    (h : Cursor.Scans options ⟨.ofBytes bytes, pos⟩ ls d) :
    ∃ laid trail rest, bytes = laid ++ (trail ++ rest) ∧
      d = ⟨.ofBytes rest, pos.advanceBy (laid ++ trail)⟩ ∧ Laid options pos ls laid ∧
      Trails ls trail rest := by
  generalize hc : (⟨.ofBytes bytes, pos⟩ : Cursor) = c at h
  induction h generalizing bytes pos with
  | nil =>
    subst hc
    exact ⟨[], [], bytes, rfl, rfl, .nil pos, .inr ⟨rfl, fun _ _ h => nomatch h⟩⟩
  | @cons c e f l ls hs h ih =>
    subst hc
    obtain ⟨gap, lex, tail, rest, rfl, hgap, hread, hspan, rfl⟩ := Cursor.exists_gap_of_scan hs
    obtain ⟨t, span⟩ := l
    obtain rfl : span = _ := hspan
    have hends : t.EndsBefore lex tail rest := hread.endsBefore
    cases ls with
    | nil =>
      cases h
      refine ⟨gap ++ (lex ++ []), tail, rest, ?_, ?_, .cons hgap hread.spelledBy (.nil _),
        Token.EndsBefore.trails hends⟩
      · simp only [List.append_assoc, List.nil_append]
      · simp only [Pos.advanceBy_append, Pos.advanceBy_nil]
    | cons m ls =>
      obtain ⟨laid, trail, rest, rfl, rfl, hlaid, htrails⟩ := ih rfl
      rw [Pos.advanceBy_append] at hlaid
      have hnext := hlaid.blanks_append hends.isBlank (List.cons_ne_nil m ls)
      refine ⟨gap ++ (lex ++ (tail ++ laid)), trail, rest, ?_, ?_,
        .cons hgap hread.spelledBy hnext, ?_⟩
      · simp only [List.append_assoc]
      · simp only [Pos.advanceBy_append]
      · rwa [Trails, List.getLast?_cons_cons]

theorem Laid.exists_place {l : Lexeme} (h : Laid options pos ls bytes) (hl : l ∈ ls) :
    ∃ before lex after, bytes = before ++ (lex ++ after) ∧ l.token.SpelledBy lex ∧
      l.span = ⟨pos.advanceBy before, pos.advanceBy (before ++ lex)⟩ := by
  induction h with
  | nil => cases hl
  | @cons pos t gap lex bytes ls _ hlex _ ih =>
    rcases List.mem_cons.mp hl with rfl | hl
    · exact ⟨gap, lex, bytes, rfl, hlex, by rw [Pos.advanceBy_append]⟩
    · obtain ⟨before, part, after, rfl, hpart, hspan⟩ := ih hl
      refine ⟨gap ++ (lex ++ before), part, after, ?_, hpart, ?_⟩
      · simp only [List.append_assoc]
      · simp only [hspan, Pos.advanceBy_append]

theorem Laid.kept (h : Laid options .start ls bytes) (hsize : bytes.length + 1 < UInt32.size) :
    ∀ l ∈ ls, l.span.Kept := by
  intro l hl
  obtain ⟨before, lex, after, rfl, -, hspan⟩ := h.exists_place hl
  simp only [List.length_append] at hsize
  rw [hspan]
  refine ⟨Pos.kept_advanceBy_start ?_, Pos.kept_advanceBy_start ?_⟩
  · omega
  · rw [List.length_append]
    omega

theorem Cursor.Scans.kept {d : Cursor}
    (h : Cursor.Scans options (.ofSource (.ofBytes bytes)) ls d)
    (hsize : bytes.length + 1 < UInt32.size) : ∀ l ∈ ls, l.span.Kept := by
  obtain ⟨laid, trail, rest, rfl, -, hlaid, -⟩ := exists_laid_of_scans_from h
  rw [List.length_append] at hsize
  exact hlaid.kept (by omega)

/-- **Nothing is lost, and the spans are exact.** When lexemes have been scanned from the start of a
source of bytes, what has been taken are their spellings with gaps before them, and the blank that
ends an escaped name at the end. If the spellings and gaps are fewer than `2 ^ 32 - 1` bytes, the
counters of every span are at the line and the column where it stands. -/
theorem exists_laid_of_scans {d : Cursor}
    (h : Cursor.Scans options (.ofSource (.ofBytes bytes)) ls d) :
    ∃ laid trail rest, bytes = laid ++ (trail ++ rest) ∧
      d = ⟨.ofBytes rest, Pos.start.advanceBy (laid ++ trail)⟩ ∧ Laid options .start ls laid ∧
      Trails ls trail rest ∧ (laid.length + 1 < UInt32.size → ∀ l ∈ ls, l.span.Kept) := by
  obtain ⟨laid, trail, rest, hbytes, hd, hlaid, htrails⟩ := exists_laid_of_scans_from h
  exact ⟨laid, trail, rest, hbytes, hd, hlaid, htrails, hlaid.kept⟩

/-- An escaped name that a comma ends, and one that a blank ends behind a block comment. -/
theorem exists_laid_of_scans_of_escaped :
    let ls := [⟨.escaped "a+b", ⟨⟨1, 1⟩, ⟨1, 5⟩⟩⟩, ⟨.punct .comma, ⟨⟨1, 5⟩, ⟨1, 6⟩⟩⟩,
      ⟨.escaped "c", ⟨⟨1, 11⟩, ⟨1, 13⟩⟩⟩]
    ∃ laid trail rest, Utf8.encode "\\a+b,/*x*/\\c y" = laid ++ (trail ++ rest) ∧
      (⟨.ofBytes (Utf8.encode "y"), ⟨1, 14⟩⟩ : Cursor) =
        ⟨.ofBytes rest, Pos.start.advanceBy (laid ++ trail)⟩ ∧
      Laid .permissive .start ls laid ∧ Trails ls trail rest ∧ ∀ l ∈ ls, l.span.Kept := by
  have hname : (Cursor.ofSource (.ofBytes (Utf8.encode "\\a+b,/*x*/\\c y"))).scan .permissive =
      (.ok (some ⟨.escaped "a+b", ⟨⟨1, 1⟩, ⟨1, 5⟩⟩⟩),
        ⟨.ofBytes (Utf8.encode ",/*x*/\\c y"), ⟨1, 5⟩⟩) := by decide +kernel
  have hcomma : Cursor.scan .permissive ⟨.ofBytes (Utf8.encode ",/*x*/\\c y"), ⟨1, 5⟩⟩ =
      (.ok (some ⟨.punct .comma, ⟨⟨1, 5⟩, ⟨1, 6⟩⟩⟩),
        ⟨.ofBytes (Utf8.encode "/*x*/\\c y"), ⟨1, 6⟩⟩) := by decide +kernel
  have hnext : Cursor.scan .permissive ⟨.ofBytes (Utf8.encode "/*x*/\\c y"), ⟨1, 6⟩⟩ =
      (.ok (some ⟨.escaped "c", ⟨⟨1, 11⟩, ⟨1, 13⟩⟩⟩), ⟨.ofBytes (Utf8.encode "y"), ⟨1, 14⟩⟩) := by
    decide +kernel
  obtain ⟨laid, trail, rest, hbytes, hd, hlaid, htrails, hkept⟩ :=
    exists_laid_of_scans (.cons hname (.cons hcomma (.cons hnext (.nil _))))
  refine ⟨laid, trail, rest, hbytes, hd, hlaid, htrails, hkept ?_⟩
  have hlength : (Utf8.encode "\\a+b,/*x*/\\c y").length = 14 := by decide
  rw [hbytes, List.length_append] at hlength
  exact (show laid.length + 1 ≤ 15 by omega).trans_lt (by decide)

theorem Cursor.piece_of_spaces (options : ScanOptions) (n : Nat) {x : UInt8}
    (hx : Ascii.isBlank x = false) (more : List UInt8) (pos : Pos) :
    piece options ⟨.ofBytes (List.replicate n Ascii.space ++ x :: more), pos⟩ =
      scanFrom options x ⟨.ofBytes (x :: more), ⟨pos.row, pos.offset + n⟩⟩ := by
  have hw : ∀ b ∈ List.replicate n Ascii.space, Ascii.isBlank b = true := fun b hb => by
    rw [List.eq_of_mem_replicate hb]
    rfl
  rw [piece_of_blanks hw hx, Pos.advanceBy_replicate_space]

theorem scans_of_spaces (n : Nat) :
    Cursor.Scans .strict (.ofSource (.ofBytes (List.replicate n Ascii.space ++ [0x61])))
      [⟨.identifier "a", ⟨⟨1, 1 + n⟩, ⟨1, 1 + n + 1⟩⟩⟩] ⟨[], ⟨1, 1 + n + 1⟩⟩ := by
  refine .cons ?_ (.nil _)
  rw [Cursor.scan_eq, Cursor.ofSource, Cursor.piece_of_spaces _ _ rfl]
  rfl

/-- Behind `2 ^ 32 - 1` spaces the column has wrapped around to zero. Nor do spans count from the
start of the source once another position has been set. -/
theorem exists_scans_not_kept :
    let bytes := List.replicate (UInt32.size - 1) Ascii.space ++ [0x61]
    let stream := LexemeStream.ofSource .strict (.ofBytes (Utf8.encode "a b"))
    (∃ l d, Cursor.Scans .strict (.ofSource (.ofBytes bytes)) [l] d ∧
        l.span.start.offset = UInt32.size ∧ l.span.start.col = 0) ∧
      stream.next.1 = .ok (some ⟨.identifier "a", ⟨⟨1, 1⟩, ⟨1, 2⟩⟩⟩) ∧
      (stream.next.2.setPos ⟨7, 7⟩).next.1 = .ok (some ⟨.identifier "b", ⟨⟨7, 8⟩, ⟨7, 9⟩⟩⟩) := by
  refine ⟨⟨_, _, scans_of_spaces _, ?_, ?_⟩, ?_, ?_⟩
  · decide
  · decide
  · decide +kernel
  · decide +kernel

end Netlist
