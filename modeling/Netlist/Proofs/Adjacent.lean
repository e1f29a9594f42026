import Netlist.Proofs.Calls
import Netlist.Proofs.Skipped

/-! # What stands next to a constant

A sized constant takes every letter, digit and underscore that follows, and is refused if they are
no digits of its base. A decimal number takes digits only, so a letter or an underscore next to it
is left over (`stops_isNamePart_iff`), and is scanned as the start of a word
(`readFrom_of_not_stops`). Main statement: `adjacent_of_answer`. -/

namespace Netlist

theorem Ascii.isNamePart_eq_or (b : UInt8) : isNamePart b = (isNameStart b || isDigit b) := by
  rw [isNamePart, isNameStart, Bool.or_right_comm]

section Stops

variable {lex rest : List UInt8}

/-- Behind a sized constant no byte of a name follows, and behind a decimal number none but the
start of a name. -/
theorem stops_isNamePart_iff (h : Stops (continuesConstant lex) rest) :
    Stops Ascii.isNamePart rest ↔ Ascii.apostrophe ∈ lex ∨ Stops Ascii.isNameStart rest := by
  cases rest with
  | nil => exact iff_of_true (stops_nil _) (.inr (stops_nil _))
  | cons b rest =>
    rw [stops_cons_iff, continuesConstant] at h
    rw [stops_cons_iff, stops_cons_iff]
    split_ifs at h with hsized
    · rw [Cursor.isSizedPart, Bool.or_eq_false_iff] at h
      exact iff_of_true h.1 (.inl hsized)
    · rw [Bool.or_eq_false_iff] at h
      rw [Ascii.isNamePart_eq_or, h.1, Bool.or_false, or_iff_right hsized]

theorem readFrom_of_not_stops (hs : Stops (continuesConstant lex) rest)
    (h : ¬ Stops Ascii.isNamePart rest) :
    let word := rest.takeWhile Ascii.isNamePart
    (Cursor.wordToken word).ReadFrom word [] (rest.dropWhile Ascii.isNamePart) := by
  intro word
  have hstart : ¬ Stops Ascii.isNameStart rest := fun hr =>
    h ((stops_isNamePart_iff hs).mpr (.inr hr))
  cases rest with
  | nil => exact absurd (stops_nil _) h
  | cons b rest =>
    rw [stops_cons_iff, Bool.not_eq_false] at h hstart
    have hword : ∀ x ∈ b :: rest.takeWhile Ascii.isNamePart, Ascii.isNamePart x = true :=
      List.forall_mem_cons.mpr ⟨h, fun x hx => List.mem_takeWhile_imp hx⟩
    rw [show word = b :: rest.takeWhile Ascii.isNamePart from List.takeWhile_cons_of_pos h,
      List.dropWhile_cons_of_pos h]
    exact Cursor.readFrom_wordToken hstart hword (stops_dropWhile _ _)

end Stops

namespace LexemeStream

/-- **A letter or an underscore next to a constant** is left over exactly behind a decimal number,
and then the next result is the word that it starts. -/
theorem adjacent_of_answer (options : ScanOptions) (bytes : List UInt8) (calls : List Call)
    (call : Call) (value : Bool) (span : Span)
    (h : (((ofSource options (.ofBytes bytes)).after calls).answer call).1 =
      .ok (some ⟨.constant value, span⟩)) :
    let fresh := ofSource options (.ofBytes bytes)
    ∃ before lex rest i, bytes = before ++ (lex ++ rest) ∧ IsBit value lex ∧
      span = ⟨Pos.start.advanceBy before, Pos.start.advanceBy (before ++ lex)⟩ ∧
      fresh.nth i = (.ok (some ⟨.constant value, span⟩), span.limit) ∧
      (Stops Ascii.isNamePart rest ↔ Ascii.apostrophe ∈ lex ∨ Stops Ascii.isNameStart rest) ∧
      (¬ Stops Ascii.isNamePart rest → (fresh.nth (i + 1)).1 =
        let word := rest.takeWhile Ascii.isNamePart
        .ok (some ⟨Cursor.wordToken word, ⟨span.limit, span.limit.advanceBy word⟩⟩)) := by
  intro fresh
  obtain ⟨i, hi⟩ := exists_nth_of_answer fresh rfl calls call
  have hresult : (fresh.nth i).1 = .ok (some ⟨.constant value, span⟩) := hi.symm.trans h
  -- what the result was scanned from, and where the scan stopped
  obtain ⟨taken, rest, rfl, hcursor⟩ :=
    (after_reaches fresh (.replicate i .next)).exists_eq_append
  have hoptions (j) : (fresh.fetched j).options = options := options_after _ _
  have hscan : Cursor.scan options ⟨.ofBytes rest, Pos.start.advanceBy taken⟩ =
      (.ok (some ⟨.constant value, span⟩), (fresh.fetched (i + 1)).cursor) := by
    rw [fetched_succ, ← hresult, nth, next, hoptions, fetched, hcursor]
  obtain ⟨gap, lex, tail, rest, rfl, -, ⟨-, hbit, rfl, hs⟩, rfl, hnext⟩ :=
    Cursor.scan_eq_ok_some_iff.mp hscan
  rw [List.append_nil] at hnext
  refine ⟨taken ++ gap, lex, rest, i, by simp, hbit, by simp only [Pos.advanceBy_append],
    Prod.ext hresult ?_, stops_isNamePart_iff hs, fun hr => ?_⟩
  · rw [nth, ← fetched_succ]
    exact congrArg Cursor.pos hnext
  · have hword := Cursor.scan_of_readFrom options (readFrom_of_not_stops hs hr)
      (((Pos.start.advanceBy taken).advanceBy gap).advanceBy lex)
    rw [List.nil_append, List.takeWhile_append_dropWhile] at hword
    rw [nth, next, hoptions, hnext, hword]

/-- The one in `1_0` is a result of its own. -/
theorem adjacent_of_underscore :
    let fresh := ofSource .strict (.ofBytes (Utf8.encode "1_0"))
    let span : Span := ⟨⟨1, 1⟩, ⟨1, 2⟩⟩
    ((fresh.after []).answer .pop).1 = .ok (some ⟨.constant true, span⟩) ∧
      ∃ before lex rest i, Utf8.encode "1_0" = before ++ (lex ++ rest) ∧ IsBit true lex ∧
        fresh.nth i = (.ok (some ⟨.constant true, span⟩), span.limit) := by
  intro fresh span
  have h : ((fresh.after []).answer .pop).1 = .ok (some ⟨.constant true, span⟩) := by
    decide +kernel
  obtain ⟨before, lex, rest, i, hbytes, hbit, -, hnth, -⟩ :=
    adjacent_of_answer .strict (Utf8.encode "1_0") [] .pop true span h
  exact ⟨h, before, lex, rest, i, hbytes, hbit, hnth⟩

/-- In `1_0` the byte next to the constant is an underscore. -/
theorem not_stops_of_underscore : ¬ ∀ (options : ScanOptions) (bytes : List UInt8)
    (calls : List Call) (call : Call) (value : Bool) (span : Span),
    (((ofSource options (.ofBytes bytes)).after calls).answer call).1 =
      .ok (some ⟨.constant value, span⟩) →
    ∀ before rest, bytes = before ++ rest → Pos.start.advanceBy before = span.limit →
      Stops Ascii.isNamePart rest := by
  intro h
  have hscan : (((ofSource .strict (.ofBytes (Utf8.encode "1_0"))).after []).answer .pop).1 =
      .ok (some ⟨.constant true, ⟨⟨1, 1⟩, ⟨1, 2⟩⟩⟩) := by decide +kernel
  have hstops := h _ _ _ _ _ _ hscan (Utf8.encode "1") (Utf8.encode "_0") (by decide) (by decide)
  exact absurd (hstops Ascii.underscore (by decide)) (by decide)

end LexemeStream

end Netlist
