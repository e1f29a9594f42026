import Netlist.Proofs.Noise
import Netlist.Proofs.Refusal
import Netlist.Proofs.Shadow

/-! # Gaps are skipped

A gap is skipped whatever comes after it (`Cursor.scan_gap_append`), so what a scan gives is told by
the text alone: a lexeme where a token is spelled behind a gap (`Cursor.scan_eq_ok_some_iff`), and
the end where nothing but a gap is left (`Cursor.scan_eq_ok_none_iff`). -/

namespace Netlist

theorem Source.run_ofBytes_append_byte {p : UInt8 → Bool} {part : List UInt8}
    (h : ∀ x ∈ part, p x = true) {b : UInt8} (hb : p b = false) (more : Source) :
    (ofBytes part ++ .byte b :: more).run p = ⟨part, some b, .byte b :: more⟩ := by
  rw [run_ofBytes_append h]
  simp [run, hb]

namespace Cursor

variable {options : ScanOptions} {c d : Cursor} {pos : Pos} {l : Lexeme}
  {gap region bytes line : List UInt8}

/-! ### Noise before anything -/

/-- A block comment ends at its first star and slash. The star of its opening does not count, but
one that was just read does. -/
theorem blockTail_append {afterStar : Bool} {inside : List UInt8}
    (h : ¬ [Ascii.star, Ascii.slash] <:+:
      (if afterStar then [Ascii.star] else []) ++ (inside ++ [Ascii.star])) (x : Source) :
    blockTail afterStar (.ofBytes (inside ++ [Ascii.star, Ascii.slash]) ++ x) =
      ⟨inside ++ [Ascii.star, Ascii.slash], true, x⟩ := by
  induction inside generalizing afterStar with
  | nil => cases afterStar <;> rfl
  | cons b inside ih =>
    have hclose : (afterStar && b == Ascii.slash) = false := by
      rw [Bool.eq_false_iff]
      intro hb
      rw [Bool.and_eq_true, beq_iff_eq] at hb
      obtain ⟨rfl, rfl⟩ := hb
      exact h (List.prefix_append [Ascii.star, Ascii.slash] (inside ++ [Ascii.star])).isInfix
    have hsuffix : (if (b == Ascii.star) = true then [Ascii.star] else []) ++
        (inside ++ [Ascii.star]) <:+ b :: inside ++ [Ascii.star] := by
      by_cases hb : b = Ascii.star
      · subst hb
        exact List.suffix_refl _
      · rw [if_neg (by simpa using hb)]
        exact List.suffix_cons _ _
    have hrest := fun hi =>
      h (List.IsInfix.trans hi (hsuffix.trans (List.suffix_append _ _)).isInfix)
    rw [List.cons_append, Source.ofBytes_cons, List.cons_append, blockTail,
      if_neg (Bool.eq_false_iff.mp hclose), ih hrest]

theorem takeLine_append_lineFeed (hl : Ascii.lineFeed ∉ line) (x : Source) (pos : Pos) :
    takeLine ⟨.ofBytes (line ++ [Ascii.lineFeed]) ++ x, pos⟩ =
      (line, ⟨x, pos.advanceBy (line ++ [Ascii.lineFeed])⟩) := by
  have hline : ∀ b ∈ line, (b != Ascii.lineFeed) = true := fun b hb => by
    rw [bne_iff_ne]
    rintro rfl
    exact hl hb
  have hrun := Source.run_ofBytes_append_byte hline (bne_self_eq_false Ascii.lineFeed) x
  rw [Source.ofBytes_append, List.append_assoc]
  simp only [Source.ofBytes_cons, Source.ofBytes_nil, List.cons_append, List.nil_append, takeLine,
    hrun, past, skip, Option.isSome_some, if_true, Pos.advanceBy_append, Pos.advanceBy_cons,
    Pos.advanceBy_nil]

theorem scanFrom_backtick (options : ScanOptions) (c : Cursor) :
    c.scanFrom options Ascii.backtick = c.scanDirective options := rfl

theorem piece_of_byte (options : ScanOptions) {b : UInt8} (hb : Ascii.isBlank b = false)
    (more : Source) (pos : Pos) :
    piece options ⟨.byte b :: more, pos⟩ = scanFrom options b ⟨.byte b :: more, pos⟩ := by
  have h : skipBlanks ⟨.byte b :: more, pos⟩ = ⟨.byte b :: more, pos⟩ := by
    simp [skipBlanks, Source.run, hb, past]
  rw [piece, h]
  rfl

theorem scanDirective_timescale (hskips : options.skipTimescale = true) {y : Source}
    {next : Option UInt8} (hy : y.run Ascii.isNameStart = ⟨[], next, y⟩) (pos : Pos) :
    scanDirective options
        ⟨.byte Ascii.backtick :: (Source.ofBytes (Utf8.encode "timescale") ++ y), pos⟩ =
      (.ok .noise, (takeLine ⟨y, pos.advanceBy
        (Ascii.backtick :: Utf8.encode "timescale")⟩).2) := by
  have hword : (Utf8.encode "timescale").all Ascii.isNameStart = true := by decide
  have htext : Ascii.text (Utf8.encode "timescale") = "timescale" := by decide
  simp only [scanDirective, hskips, if_true, skip,
    Source.run_ofBytes_append (List.all_eq_true.mp hword), hy, List.append_nil, past, htext,
    beq_self_eq_true, Pos.advanceBy_cons]

theorem piece_noise_append (h : IsNoise options region) (x : Source) (pos : Pos) :
    piece options ⟨.ofBytes region ++ x, pos⟩ = (.ok .noise, ⟨x, pos.advanceBy region⟩) := by
  cases h with
  | @block inside hskips hinside =>
    have htail : blockTail false (.ofBytes (inside ++ [Ascii.star, Ascii.slash]) ++ x) =
        ⟨inside ++ [Ascii.star, Ascii.slash], true, x⟩ := blockTail_append hinside x
    rw [Source.ofBytes_cons, Source.ofBytes_cons, List.cons_append, List.cons_append,
      piece_of_byte options rfl, scanFrom_slash]
    simp only [scanSlash, skip, look, hskips, htail, if_true, beq_self_eq_true,
      Pos.advanceBy_cons]
    rfl
  | @directive line hskips hs hline =>
    have hy : (Source.ofBytes (line ++ [Ascii.lineFeed]) ++ x).run Ascii.isNameStart =
        ⟨[], (line ++ [Ascii.lineFeed]).head?, .ofBytes (line ++ [Ascii.lineFeed]) ++ x⟩ := by
      cases line with
      | nil => rfl
      | cons b line =>
        exact Source.run_ofBytes_append_byte (List.forall_mem_nil _) (stops_cons_iff.mp hs) _
    rw [Source.ofBytes_cons, List.cons_append, piece_of_byte options rfl, scanFrom_backtick,
      Source.ofBytes_append, List.append_assoc, scanDirective_timescale hskips hy,
      takeLine_append_lineFeed hline, ← Pos.advanceBy_append]
    rfl

/-- A directive at the end may lack its line feed. -/
theorem piece_noise_end (h : IsNoise options (region ++ [Ascii.lineFeed])) (pos : Pos) :
    piece options ⟨.ofBytes region, pos⟩ = (.ok .noise, ⟨[], pos.advanceBy region⟩) := by
  generalize hr : region ++ [Ascii.lineFeed] = whole at h
  cases h with
  | block =>
    have hlast := congrArg List.getLast? hr
    simp [List.getLast?_cons] at hlast
    exact absurd hlast (by decide)
  | @directive line hskips hs hline =>
    obtain rfl : region = Ascii.backtick :: (Utf8.encode "timescale" ++ line) := by
      rw [← List.append_assoc, ← List.cons_append] at hr
      exact List.append_cancel_right hr
    have hy : (Source.ofBytes line).run Ascii.isNameStart = ⟨[], line.head?, .ofBytes line⟩ :=
      Source.run_append (List.forall_mem_nil _) hs
    have htake := @takeLine_append line [] [] hline (.inr ⟨rfl, rfl⟩)
      (pos.advanceBy (Ascii.backtick :: Utf8.encode "timescale"))
    rw [List.append_nil, List.append_nil] at htake
    rw [Source.ofBytes_cons, piece_of_byte options rfl, scanFrom_backtick, Source.ofBytes_append,
      scanDirective_timescale hskips hy, htake, ← Pos.advanceBy_append]
    rfl

/-! ### Scans -/

/-- **A gap is skipped** before anything. -/
theorem scan_gap_append (h : Gap options gap) (x : Source) (pos : Pos) :
    scan options ⟨.ofBytes gap ++ x, pos⟩ = scan options ⟨x, pos.advanceBy gap⟩ := by
  induction h generalizing pos with
  | nil => rfl
  | @blank b gap hb _ ih =>
    have hskip := scan_append_blanks options (List.forall_mem_singleton.mpr hb)
      (.ofBytes gap ++ x) pos
    exact hskip.trans (ih _)
  | @noise region gap hnoise _ ih =>
    rw [Source.ofBytes_append, List.append_assoc, scan_eq, piece_noise_append hnoise,
      Pos.advanceBy_append]
    exact ih _

theorem scan_gap_punct (h : Gap options gap) (p : Punct) (x : Source) (pos : Pos) :
    scan options ⟨.ofBytes (gap ++ [p.byte]) ++ x, pos⟩ =
      (.ok (some ⟨.punct p, ⟨pos.advanceBy gap, pos.advanceBy (gap ++ [p.byte])⟩⟩),
        ⟨x, pos.advanceBy (gap ++ [p.byte])⟩) := by
  have hpiece : piece options ⟨.ofBytes [p.byte] ++ x, pos.advanceBy gap⟩ =
      accept ⟨x, (pos.advanceBy gap).advanceBy [p.byte]⟩ (pos.advanceBy gap) (.punct p) := by
    cases p <;> rfl
  rw [Source.ofBytes_append, List.append_assoc, scan_gap_append h, Pos.advanceBy_append, scan_eq,
    hpiece]
  rfl

theorem scan_gap_readFrom (hgap : Gap options gap) {t : Token} {lex tail rest : List UInt8}
    (hread : t.ReadFrom lex tail rest) (pos : Pos) :
    scan options ⟨.ofBytes (gap ++ (lex ++ (tail ++ rest))), pos⟩ =
      (.ok (some ⟨t, ⟨pos.advanceBy gap, (pos.advanceBy gap).advanceBy lex⟩⟩),
        ⟨.ofBytes rest, (pos.advanceBy gap).advanceBy (lex ++ tail)⟩) := by
  rw [Source.ofBytes_append, scan_gap_append hgap, scan_of_readFrom options hread]

/-- **A lexeme is scanned** exactly where its token is spelled behind a gap. -/
theorem scan_eq_ok_some_iff : scan options ⟨.ofBytes bytes, pos⟩ = (.ok (some l), d) ↔
    ∃ gap lex tail rest, bytes = gap ++ (lex ++ (tail ++ rest)) ∧ Gap options gap ∧
      l.token.ReadFrom lex tail rest ∧
      l.span = ⟨pos.advanceBy gap, (pos.advanceBy gap).advanceBy lex⟩ ∧
      d = ⟨.ofBytes rest, (pos.advanceBy gap).advanceBy (lex ++ tail)⟩ := by
  refine ⟨exists_gap_of_scan, ?_⟩
  rintro ⟨gap, lex, tail, rest, rfl, hgap, hread, hspan, rfl⟩
  rw [scan_gap_readFrom hgap hread, ← hspan]

theorem gap_of_scan_none (h : scan options ⟨.ofBytes bytes, pos⟩ = (.ok none, d)) :
    Gap options (bytes ++ [Ascii.lineFeed]) ∧ d = ⟨[], pos.advanceBy bytes⟩ := by
  generalize hc : (⟨.ofBytes bytes, pos⟩ : Cursor) = c at h
  fun_induction scan options c generalizing bytes pos with
  | case1 => cases h
  | case2 c e hp ih =>
    subst hc
    obtain ⟨blanks, region, rest, rfl, hw, hnoise, -, rfl⟩ := exists_noise_of_piece hp
    obtain ⟨hgap, rfl⟩ := ih rfl h
    refine ⟨?_, by simp only [Pos.advanceBy_append]⟩
    rw [List.append_assoc, List.append_assoc]
    refine Gap.blanks_append hw ?_
    rcases hnoise with hnoise | ⟨rfl, hnoise⟩
    · exact .noise hnoise hgap
    · have hend := Gap.noise hnoise .nil
      rwa [List.append_nil] at hend
  | case3 c e hp =>
    subst hc
    cases h
    obtain ⟨hw, rfl⟩ := eq_blanks_of_piece hp
    exact ⟨Gap.blanks_append hw (.blank rfl .nil), rfl⟩
  | case4 => cases h

theorem scan_of_gap {whole : List UInt8} (h : Gap options whole)
    (hw : bytes ++ [Ascii.lineFeed] = whole) (pos : Pos) :
    scan options ⟨.ofBytes bytes, pos⟩ = (.ok none, ⟨[], pos.advanceBy bytes⟩) := by
  induction h generalizing bytes pos with
  | nil => simp at hw
  | @blank b gap hb _ ih =>
    cases bytes with
    | nil => exact scan_of_rest_eq_nil options rfl
    | cons a bytes =>
      obtain ⟨rfl, hgap⟩ := List.cons.inj hw
      have hskip := scan_append_blanks options (List.forall_mem_singleton.mpr hb)
        (.ofBytes bytes) pos
      exact hskip.trans (ih hgap _)
  | @noise region gap hnoise _ ih =>
    rcases List.eq_nil_or_concat gap with rfl | ⟨gap, b, rfl⟩
    · rw [List.append_nil] at hw
      rw [scan_eq, piece_noise_end (hw ▸ hnoise)]
      exact scan_of_rest_eq_nil options rfl
    · rw [List.concat_eq_append, ← List.append_assoc] at hw
      obtain ⟨rfl, hb⟩ := List.append_inj' hw rfl
      rw [Source.ofBytes_append, scan_eq, piece_noise_append hnoise, Pos.advanceBy_append]
      exact ih (by rw [hb, List.concat_eq_append]) _

/-- **Scanning is at the end** exactly where nothing but a gap is left. A last line may lack its
line feed. -/
theorem scan_eq_ok_none_iff : scan options ⟨.ofBytes bytes, pos⟩ = (.ok none, d) ↔
    Gap options (bytes ++ [Ascii.lineFeed]) ∧ d = ⟨[], pos.advanceBy bytes⟩ :=
  ⟨gap_of_scan_none, fun ⟨hgap, hd⟩ => hd ▸ scan_of_gap hgap rfl pos⟩

/-! ### Spans -/

theorem span_of_scan (h : scan options ⟨.ofBytes bytes, pos⟩ = (.ok (some l), d)) :
    pos ≤ l.span.start ∧ l.span.start < l.span.limit ∧ l.span.limit ≤ d.pos := by
  obtain ⟨gap, lex, tail, rest, -, -, hread, hspan, rfl⟩ := exists_gap_of_scan h
  obtain ⟨b, more, rfl, -⟩ := scanFrom_of_readFrom options hread
  rw [hspan, Pos.advanceBy_append]
  exact ⟨Pos.le_advanceBy _ _, Pos.lt_advanceBy _ (List.cons_ne_nil _ _), Pos.le_advanceBy _ _⟩

theorem Yields.reaches {rs : List ScanResult} (h : Yields options c rs d) : Reaches c d := by
  induction h with
  | nil c => exact .refl c
  | cons hs _ ih => exact (reaches_of_scan hs).trans ih

theorem Yields.span {rs : List ScanResult} (h : Yields options c rs d) (hc : c.IsPlain)
    (hl : .ok (some l) ∈ rs) :
    c.pos ≤ l.span.start ∧ l.span.start < l.span.limit ∧ l.span.limit ≤ d.pos := by
  induction h with
  | nil => cases hl
  | @cons c d e r rs hs hrest ih =>
    rcases List.mem_cons.mp hl with rfl | hl
    · obtain ⟨bytes, hbytes⟩ := hc
      obtain ⟨_, pos⟩ := c
      subst hbytes
      obtain ⟨hstart, hlt, hle⟩ := span_of_scan hs
      exact ⟨hstart, hlt, hle.trans hrest.reaches.pos_le⟩
    · obtain ⟨hstart, hspan⟩ := ih (hc.scan hs) hl
      exact ⟨(reaches_of_scan hs).pos_le.trans hstart, hspan⟩

theorem Scans.yields {ls : List Lexeme} (h : Scans options c ls d) :
    Yields options c (ls.map (.ok ∘ some)) d := by
  induction h with
  | nil c => exact .nil c
  | cons hs _ ih => exact .cons hs ih

end Cursor

end Netlist
