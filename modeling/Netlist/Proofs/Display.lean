import Netlist.Proofs.Spelled

/-! # Displayed tokens

Tokens are displayed in a row with blanks after each (`display`). Main statement: scanning gives the
displayed tokens again, whatever the options and whichever the blanks (`Cursor.scanAll_display`). -/

namespace Netlist

/-- The token is read again as it is displayed. The line feed that ends a comment would take a
carriage return before it away. -/
structure Token.Displayable (t : Token) : Prop where
  wellFormed : t.WellFormed
  noReturn : ∀ text, t = .comment text → text.toList.getLast? ≠ some '\r'

/-- The text of tokens with the bytes that follow each. -/
def display (xs : List (Token × List UInt8)) : List UInt8 :=
  xs.flatMap fun x => Utf8.encode x.1.text ++ x.2

namespace Spelled

variable {t : Token} {ts : List Token} {blanks bytes : List UInt8}

theorem blanks_append (hw : ∀ b ∈ blanks, Ascii.isBlank b = true) (h : Spelled ts bytes) :
    Spelled ts (blanks ++ bytes) := by
  induction blanks with
  | nil => exact h
  | cons b blanks ih =>
    obtain ⟨hb, hw⟩ := List.forall_mem_cons.mp hw
    exact .blank hb (ih hw)

/-- A token whose text is its spelling is spelled with the first of the blanks. -/
theorem spelling_append (ht : t.WellFormed) (hs : t.isSignificant = true) (hne : blanks ≠ [])
    (hw : ∀ b ∈ blanks, Ascii.isBlank b = true) (h : Spelled ts bytes) :
    Spelled (t :: ts) (Utf8.encode t.spelling ++ (blanks ++ bytes)) := by
  cases blanks with
  | nil => exact absurd rfl hne
  | cons b blanks =>
    obtain ⟨hb, hw⟩ := List.forall_mem_cons.mp hw
    exact .token ht hs hb (h.blanks_append hw)

/-- A displayed token is spelled with the blanks after it. Of its own it brings the space that ends
an escaped name and the line feed that ends a comment. -/
theorem text_append (ht : t.Displayable) (hne : blanks ≠ [])
    (hw : ∀ b ∈ blanks, Ascii.isBlank b = true) (h : Spelled ts bytes) :
    Spelled (t :: ts) (Utf8.encode t.text ++ (blanks ++ bytes)) := by
  cases t with
  | escaped name =>
    have hspace : ∀ b ∈ Ascii.space :: blanks, Ascii.isBlank b = true :=
      List.forall_mem_cons.mpr ⟨rfl, hw⟩
    have hspelled := h.spelling_append ht.wellFormed rfl (List.cons_ne_nil _ _) hspace
    rw [Token.text, Utf8.encode_append, List.append_assoc]
    exact hspelled
  | comment text =>
    have hspelled := Spelled.comment ht.wellFormed (h.blanks_append hw)
    rw [trimReturn_eq_self_iff.mpr (ht.noReturn text rfl)] at hspelled
    rw [Token.text, Utf8.encode_append, List.append_assoc]
    exact hspelled
  | _ => exact h.spelling_append ht.wellFormed rfl hne hw

theorem display {xs : List (Token × List UInt8)}
    (hx : ∀ x ∈ xs, x.1.Displayable ∧ x.2 ≠ [] ∧ ∀ b ∈ x.2, Ascii.isBlank b = true) :
    Spelled (xs.map Prod.fst) (display xs) := by
  induction xs with
  | nil => exact .nil
  | cons x xs ih =>
    obtain ⟨⟨ht, hne, hw⟩, hx⟩ := List.forall_mem_cons.mp hx
    rw [Netlist.display, List.flatMap_cons, List.append_assoc]
    exact (ih hx).text_append ht hne hw

end Spelled

/-- **Displayed tokens are scanned to themselves**, with any options, when there is a blank after
each; and then the text is at its end. -/
theorem Cursor.scanAll_display (options : ScanOptions) {xs : List (Token × List UInt8)}
    (hx : ∀ x ∈ xs, x.1.Displayable ∧ x.2 ≠ [] ∧ ∀ b ∈ x.2, Ascii.isBlank b = true) :
    ∃ ls last, (ofSource (.ofBytes (display xs))).scanAll options = (.ok ls, ⟨[], last⟩) ∧
      ls.map Lexeme.token = xs.map Prod.fst := by
  obtain ⟨ls, d, last, hls, hscans, hend⟩ :=
    scans_spelled options (Spelled.display hx) [] (List.forall_mem_nil _) .start
  exact ⟨ls, last, hscans.scanAll hend, hls⟩

/-- A name that looks like a constant, the constant itself, and a comment that looks like noise. -/
theorem Cursor.scanAll_display_of_constantName :
    ∃ ls last, (ofSource (.ofBytes (Utf8.encode "\\1'b0  1'b0\n///* \n\t"))).scanAll .permissive =
        (.ok ls, ⟨[], last⟩) ∧
      ls.map Lexeme.token = [.escaped "1'b0", .constant false, .comment "/* "] := by
  have hname : (Token.escaped "1'b0").Displayable :=
    ⟨by simp [Token.WellFormed, IsName, endsName], by simp⟩
  have hconstant : (Token.constant false).Displayable := ⟨trivial, by simp⟩
  have hcomment : (Token.comment "/* ").Displayable :=
    ⟨show '\n' ∉ "/* ".toList by decide, fun text h => by cases h; decide⟩
  exact @scanAll_display .permissive [(.escaped "1'b0", [Ascii.space]),
    (.constant false, [Ascii.lineFeed]), (.comment "/* ", [0x09])]
    (by simp [hname, hconstant, hcomment, Ascii.isBlank])

end Netlist
