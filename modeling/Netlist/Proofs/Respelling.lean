import Netlist.Proofs.Interchange
import Netlist.Proofs.Refusal
import Netlist.Proofs.Skipped
import Netlist.Proofs.Splice
import Netlist.Proofs.Truncation

/-! # Names that are spelled anew

A plain name can be written as an escaped one, with a backslash before it and a space behind it
(`respell`). Scanning gives the same lexemes then, up to the spelling of names and to places
(`Cursor.echoes_respell`). Main statement: reading does not depend on how names are spelled
(`Session.run_respelled`). -/

namespace Netlist

/-- The bytes, the first of which is at the position, with a backslash before each of the stretches
and a space behind it. -/
def respell (spans : List Span) : Pos → List UInt8 → List UInt8 :=
  splice id (fun q => if ∃ s ∈ spans, s.start = q then [Ascii.backslash] else [])
    fun q => if ∃ s ∈ spans, s.limit = q then [Ascii.space] else []

/-- The stretch lies before the position. -/
def Span.Before (s : Span) (p : Pos) : Prop := s.start < p ∧ s.limit ≤ p

/-- The stretch lies behind the position, or starts there. -/
def Span.From (s : Span) (p : Pos) : Prop := p ≤ s.start ∧ p < s.limit

theorem Span.Before.mono {s : Span} {p q : Pos} (h : s.Before p) (hq : p ≤ q) : s.Before q :=
  ⟨h.1.trans_le hq, h.2.trans hq⟩

theorem Span.From.mono {s : Span} {p q : Pos} (h : s.From p) (hq : q ≤ p) : s.From q :=
  ⟨hq.trans h.1, hq.trans_lt h.2⟩

section Respell

variable {spans : List Span} {p : Pos} {bytes : List UInt8}

theorem respell_append (spans : List Span) (p : Pos) (xs ys : List UInt8) :
    respell spans p (xs ++ ys) = respell spans p xs ++ respell spans (p.advanceBy xs) ys :=
  splice_append _ _ _ p xs ys

theorem respell_eq_self (h : ∀ s ∈ spans, s.Before p ∨ s.From (p.advanceBy bytes)) :
    respell spans p bytes = bytes := by
  refine (splice_eq_map (fun q hq hlt => ?_) fun q hq hle => ?_).trans (List.map_id bytes)
  · refine if_neg ?_
    rintro ⟨s, hs, rfl⟩
    rcases h s hs with hbefore | hfrom
    · exact absurd hbefore.1 (not_lt.mpr hq)
    · exact absurd hfrom.1 (not_le.mpr hlt)
  · refine if_neg ?_
    rintro ⟨s, hs, rfl⟩
    rcases h s hs with hbefore | hfrom
    · exact absurd hbefore.2 (not_le.mpr hq)
    · exact absurd hfrom.2 (not_lt.mpr hle)

theorem respell_span (hne : bytes ≠ []) (hmem : ⟨p, p.advanceBy bytes⟩ ∈ spans)
    (h : ∀ s ∈ spans, s = ⟨p, p.advanceBy bytes⟩ ∨ s.Before p ∨ s.From (p.advanceBy bytes)) :
    respell spans p bytes = Ascii.backslash :: (bytes ++ [Ascii.space]) := by
  rw [respell, splice_eq_append hne, if_pos ⟨_, hmem, rfl⟩, if_pos ⟨_, hmem, rfl⟩, List.map_id]
  · rfl
  · intro q hq hlt
    refine if_neg ?_
    rintro ⟨s, hs, rfl⟩
    rcases h s hs with rfl | hbefore | hfrom
    · exact hq.false
    · exact absurd hbefore.1 (not_lt.mpr hq.le)
    · exact absurd hfrom.1 (not_le.mpr hlt)
  · intro q hq hlt
    refine if_neg ?_
    rintro ⟨s, hs, rfl⟩
    rcases h s hs with rfl | hbefore | hfrom
    · exact hlt.false
    · exact absurd hbefore.2 (not_le.mpr hq)
    · exact absurd hfrom.2 (not_lt.mpr hlt.le)

example : respell [⟨⟨1, 8⟩, ⟨1, 9⟩⟩] .start (Utf8.encode "assign a=b;") =
    Utf8.encode "assign \\a =b;" := by decide

/-- The first byte stays, or a backslash is put before it. -/
theorem head?_respell (spans : List Span) (p : Pos) (bytes : List UInt8) :
    (respell spans p bytes).head? = bytes.head? ∨
      (respell spans p bytes).head? = some Ascii.backslash ∧ ∃ s ∈ spans, s.start = p := by
  cases bytes with
  | nil => exact .inl rfl
  | cons b bytes =>
    by_cases hs : ∃ s ∈ spans, s.start = p
    · rw [respell, splice, if_pos hs]
      exact .inr ⟨rfl, hs⟩
    · rw [respell, splice, if_neg hs]
      exact .inl rfl

end Respell

/-- The plain name that was scanned. -/
def identifierOf? : ScanResult → Option Lexeme
  | .ok (some ⟨.identifier name, span⟩) => some ⟨.identifier name, span⟩
  | _ => none

/-- The plain names that were scanned. -/
def identifiers (rs : List ScanResult) : List Lexeme := rs.filterMap identifierOf?

theorem mem_identifiers {rs : List ScanResult} {l : Lexeme} :
    l ∈ identifiers rs ↔ .ok (some l) ∈ rs ∧ ∃ name, l.token = .identifier name := by
  rw [identifiers, List.mem_filterMap]
  constructor
  · rintro ⟨r, hr, h⟩
    unfold identifierOf? at h
    split at h <;> cases h
    exact ⟨hr, _, rfl⟩
  · rintro ⟨hl, name, ht⟩
    obtain ⟨t, span⟩ := l
    obtain rfl : t = .identifier name := ht
    exact ⟨_, hl, rfl⟩

namespace Cursor

variable {options : ScanOptions} {c d : Cursor} {pos : Pos} {l : Lexeme} {bytes : List UInt8}
  {rs : List ScanResult} {spans : List Span}

/-! ### Errors of scans -/

/-- Whether a scan fails does not depend on the place. -/
theorem exists_error_of_scan {e : ReadError}
    (h : scan options ⟨.ofBytes bytes, pos⟩ = (.error e, d)) (pos' : Pos) :
    ∃ e' d', scan options ⟨.ofBytes bytes, pos'⟩ = (.error e', d') := by
  rcases hs : scan options ⟨.ofBytes bytes, pos'⟩ with ⟨e' | _ | l, d'⟩
  · exact ⟨e', d', rfl⟩
  · obtain ⟨hgap, -⟩ := scan_eq_ok_none_iff.mp hs
    cases h.symm.trans (scan_eq_ok_none_iff.mpr ⟨hgap, rfl⟩)
  · obtain ⟨gap, lex, tail, rest, rfl, hgap, hread, -, -⟩ := scan_eq_ok_some_iff.mp hs
    cases h.symm.trans (scan_gap_readFrom hgap hread pos)

/-! ### Scans of respelled bytes -/

/-- A plain name that starts where scanning starts is the next byte on. -/
theorem Yields.identifier_start (h : Yields options c rs d) (hc : c.IsPlain)
    (hl : l ∈ identifiers rs) (hstart : l.span.start = c.pos) :
    ∃ b more, c.rest = .byte b :: more ∧ b ≠ Ascii.comma := by
  induction h with
  | nil => cases hl
  | @cons c d e r rs hs hrest ih =>
    obtain ⟨bytes, hbytes⟩ := hc
    obtain ⟨_, pos⟩ := c
    subst hbytes
    obtain ⟨hmem, name, ht⟩ := mem_identifiers.mp hl
    rcases List.mem_cons.mp hmem with rfl | hmem
    · obtain ⟨gap, lex, tail, rest, rfl, -, hread, hspan, -⟩ := exists_gap_of_scan hs
      obtain rfl : gap = [] := by
        by_contra hne
        rw [hspan] at hstart
        exact absurd hstart (pos.lt_advanceBy hne).ne'
      rw [ht] at hread
      obtain ⟨b, more, he, hb, -⟩ := encode_of_isSimpleName hread.wellFormed.1
      obtain rfl : lex = b :: more := hread.spelledBy.trans he
      refine ⟨b, _, rfl, ?_⟩
      rintro rfl
      cases hb
    · obtain ⟨taken, more, rfl, rfl⟩ := (reaches_of_scan hs).exists_eq_append
      -- nothing was taken before
      obtain rfl : taken = [] := by
        by_contra hne
        have hle := (hrest.span ⟨more, rfl⟩ hmem).1
        exact absurd (hle.trans_eq hstart) (not_le.mpr (pos.lt_advanceBy hne))
      exact ih ⟨more, rfl⟩ (mem_identifiers.mpr ⟨hmem, name, ht⟩) hstart

theorem scan_respell_identifier {name : String}
    (hs : scan options ⟨.ofBytes bytes, pos⟩ = (.ok (some l), d)) (ht : l.token = .identifier name)
    (hmem : l.span ∈ spans)
    (hat : ∀ s ∈ spans, s = l.span ∨ s.Before pos ∨ s.From d.pos) (pos' : Pos) :
    ∃ more span e, d.rest = .ofBytes more ∧
      scan options ⟨.ofBytes (respell spans pos bytes), pos'⟩ =
        (.ok (some ⟨.escaped name, span⟩), ⟨.ofBytes (respell spans d.pos more), e⟩) := by
  obtain ⟨gap, lex, tail, rest, rfl, hgap, hread, hspan, rfl⟩ := exists_gap_of_scan hs
  rw [ht] at hread
  obtain rfl : tail = [] := hread.endsBefore.1
  obtain ⟨b, more, hlexne, -⟩ := scanFrom_of_readFrom options hread
  have hne : lex ≠ [] := hlexne ▸ List.cons_ne_nil b more
  rw [List.append_nil] at hat ⊢
  rw [hspan] at hmem hat
  have hgapSame : respell spans pos gap = gap := respell_eq_self fun s hs => by
    rcases hat s hs with rfl | hbefore | hfrom
    · exact .inr ⟨le_refl _, Pos.lt_advanceBy _ hne⟩
    · exact .inl hbefore
    · exact .inr (hfrom.mono (Pos.le_advanceBy _ lex))
  have hlex : respell spans (pos.advanceBy gap) lex =
      Ascii.backslash :: (lex ++ [Ascii.space]) := respell_span hne hmem fun s hs =>
    (hat s hs).imp_right (.imp_left (Span.Before.mono · (Pos.le_advanceBy _ gap)))
  have hread' : (Token.escaped name).ReadFrom (Ascii.backslash :: lex) [Ascii.space]
      (respell spans ((pos.advanceBy gap).advanceBy lex) rest) :=
    ⟨isName_of_isSimpleName hread.wellFormed.1, congrArg (Ascii.backslash :: ·) hread.spelledBy,
      .inl ⟨Ascii.space, rfl, rfl⟩⟩
  have hbytes : respell spans pos (gap ++ (lex ++ ([] ++ rest))) =
      gap ++ ((Ascii.backslash :: lex) ++ ([Ascii.space] ++
        respell spans ((pos.advanceBy gap).advanceBy lex) rest)) := by
    rw [List.nil_append, respell_append, respell_append, hgapSame, hlex]
    simp
  rw [hbytes]
  exact ⟨rest, _, _, rfl, scan_gap_readFrom hgap hread' pos'⟩

/-- A lexeme that is not respelled is scanned as before, though a backslash may follow it now. -/
theorem scan_respell_other (hs : scan options ⟨.ofBytes bytes, pos⟩ = (.ok (some l), d))
    (hat : ∀ s ∈ spans, s.Before pos ∨ s.From d.pos)
    (hnext : ∀ s ∈ spans, s.start = d.pos → ∃ b more, d.rest = .byte b :: more ∧ b ≠ Ascii.comma)
    (pos' : Pos) :
    ∃ more span e, d.rest = .ofBytes more ∧
      scan options ⟨.ofBytes (respell spans pos bytes), pos'⟩ =
        (.ok (some ⟨l.token, span⟩), ⟨.ofBytes (respell spans d.pos more), e⟩) := by
  obtain ⟨gap, lex, tail, rest, rfl, hgap, hread, -, rfl⟩ := exists_gap_of_scan hs
  set after := respell spans ((pos.advanceBy gap).advanceBy (lex ++ tail)) rest
  have hread' : l.token.ReadFrom lex tail after := by
    refine ⟨hread.wellFormed, hread.spelledBy, hread.endsBefore.of_byte rfl
      ((head?_respell spans _ rest).imp_right fun ⟨hback, s, hs, hstart⟩ => ⟨hback, ?_⟩)⟩
    obtain ⟨b, more, hrest, hb⟩ := hnext s hs hstart
    cases rest with
    | nil => cases hrest
    | cons a rest =>
      cases hrest
      exact ⟨b, rfl, hb⟩
  have hbytes : respell spans pos (gap ++ (lex ++ (tail ++ rest))) =
      gap ++ (lex ++ (tail ++ after)) := by
    have htaken : respell spans pos (gap ++ (lex ++ tail)) = gap ++ (lex ++ tail) :=
      respell_eq_self fun s hs => by
        rw [Pos.advanceBy_append]
        exact hat s hs
    have hsplit := respell_append spans pos (gap ++ (lex ++ tail)) rest
    rw [htaken, Pos.advanceBy_append] at hsplit
    simpa only [List.append_assoc] using hsplit
  rw [hbytes]
  exact ⟨rest, _, _, rfl, scan_gap_readFrom hgap hread' pos'⟩

/-- A scan of respelled bytes, when the stretches are that of the lexeme and others before and
behind it. -/
theorem scan_respell {x : Option Lexeme} (hs : scan options ⟨.ofBytes bytes, pos⟩ = (.ok x, d))
    (hat : ∀ s ∈ spans, s.Before pos ∨ s.From d.pos ∨
      ∃ l name, x = some l ∧ l.token = .identifier name ∧ l.span = s)
    (hnext : ∀ s ∈ spans, s.start = d.pos → ∃ b more, d.rest = .byte b :: more ∧ b ≠ Ascii.comma)
    (pos' : Pos) :
    ∃ more x' e, d.rest = .ofBytes more ∧ x'.map Lexeme.bare = x.map Lexeme.bare ∧
      scan options ⟨.ofBytes (respell spans pos bytes), pos'⟩ =
        (.ok x', ⟨.ofBytes (respell spans d.pos more), e⟩) := by
  cases x with
  | none =>
    obtain ⟨hgap, rfl⟩ := scan_eq_ok_none_iff.mp hs
    have hsame : respell spans pos bytes = bytes := respell_eq_self fun s hs => by
      rcases hat s hs with hbefore | hfrom | ⟨_, _, hx, -⟩
      · exact .inl hbefore
      · exact .inr hfrom
      · cases hx
    rw [hsame]
    exact ⟨[], none, _, rfl, rfl, scan_of_gap hgap rfl pos'⟩
  | some l =>
    obtain ⟨hstart, hlt, hle⟩ := span_of_scan hs
    by_cases hmem : l.span ∈ spans
    · obtain ⟨name, ht⟩ : ∃ name, l.token = .identifier name := by
        rcases hat _ hmem with hbefore | hfrom | ⟨m, name, hx, ht, -⟩
        · exact absurd hbefore.1 (not_lt.mpr hstart)
        · exact absurd (hfrom.1.trans_lt hlt) (not_lt.mpr hle)
        · cases hx
          exact ⟨name, ht⟩
      have hat' : ∀ s ∈ spans, s = l.span ∨ s.Before pos ∨ s.From d.pos := fun s hs => by
        rcases hat s hs with hbefore | hfrom | ⟨m, _, hx, -, rfl⟩
        · exact .inr (.inl hbefore)
        · exact .inr (.inr hfrom)
        · cases hx
          exact .inl rfl
      obtain ⟨more, span, e, hmore, hs'⟩ := scan_respell_identifier hs ht hmem hat' pos'
      refine ⟨more, _, e, hmore, ?_, hs'⟩
      simp [Lexeme.bare, ht, Token.escape]
    · have hat' : ∀ s ∈ spans, s.Before pos ∨ s.From d.pos := fun s hs => by
        rcases hat s hs with hbefore | hfrom | ⟨m, _, hx, -, rfl⟩
        · exact .inl hbefore
        · exact .inr hfrom
        · cases hx
          exact absurd hs hmem
      obtain ⟨more, span, e, hmore, hs'⟩ := scan_respell_other hs hat' hnext pos'
      refine ⟨more, _, e, hmore, ?_, hs'⟩
      rfl

theorem spans_of_scan {x : Option Lexeme} {e : Cursor}
    (hs : scan options ⟨.ofBytes bytes, pos⟩ = (.ok x, d)) (hrest : Yields options d rs e)
    (hat : ∀ s ∈ spans, s.Before pos ∨ ∃ l ∈ identifiers (.ok x :: rs), l.span = s) :
    (∀ s ∈ spans, s.Before pos ∨ s.From d.pos ∨
      ∃ l name, x = some l ∧ l.token = .identifier name ∧ l.span = s) ∧
    (∀ s ∈ spans, s.start = d.pos → ∃ b more, d.rest = .byte b :: more ∧ b ≠ Ascii.comma) ∧
    ∀ s ∈ spans, s.Before d.pos ∨ ∃ l ∈ identifiers rs, l.span = s := by
  have hplain : d.IsPlain := IsPlain.scan ⟨bytes, rfl⟩ hs
  have hpos : pos ≤ d.pos := by
    obtain ⟨taken, _, -, rfl⟩ := (reaches_of_scan hs).exists_eq_append
    exact pos.le_advanceBy taken
  have hfirst : ∀ l, x = some l → l.span.Before d.pos := by
    rintro l rfl
    obtain ⟨-, hlt, hle⟩ := span_of_scan hs
    exact ⟨hlt.trans_le hle, hle⟩
  have hlater : ∀ l ∈ identifiers rs, l.span.From d.pos := fun l hl => by
    obtain ⟨hle, hlt, -⟩ := hrest.span hplain (mem_identifiers.mp hl).1
    exact ⟨hle, hle.trans_lt hlt⟩
  have hcases : ∀ s ∈ spans, s.Before pos ∨ (∃ l ∈ identifiers rs, l.span = s) ∨
      ∃ l name, x = some l ∧ l.token = .identifier name ∧ l.span = s := fun s hs => by
    refine (hat s hs).imp_right fun ⟨l, hl, hspan⟩ => ?_
    obtain ⟨hmem, name, ht⟩ := mem_identifiers.mp hl
    rcases List.mem_cons.mp hmem with hx | hmem
    · exact .inr ⟨l, name, (Except.ok.inj hx).symm, ht, hspan⟩
    · exact .inl ⟨l, mem_identifiers.mpr ⟨hmem, name, ht⟩, hspan⟩
  refine ⟨fun s hs => ?_, fun s hs hstart => ?_, fun s hs => ?_⟩ <;>
    rcases hcases s hs with hbefore | ⟨l, hl, rfl⟩ | ⟨l, name, hx, ht, rfl⟩
  · exact .inl hbefore
  · exact .inr (.inl (hlater l hl))
  · exact .inr (.inr ⟨l, name, hx, ht, rfl⟩)
  · exact absurd hstart (hbefore.1.trans_le hpos).ne
  · exact hrest.identifier_start hplain hl hstart
  · exact absurd hstart (hfirst l hx).1.ne
  · exact .inl (hbefore.mono hpos)
  · exact .inr ⟨l, hl, rfl⟩
  · exact .inl (hfirst l hx)

/-- **Respelled bytes are scanned** as the bytes are. The stretches are those of plain names that
are scanned, or lie before. -/
theorem echoes_respell {xs : List (Option Lexeme)} {err : Option ReadError}
    (h : Yields options ⟨.ofBytes bytes, pos⟩ (scanResults xs err) d)
    (hat : ∀ s ∈ spans, s.Before pos ∨ ∃ l ∈ identifiers (scanResults xs err), l.span = s)
    (pos' : Pos) :
    Echoes options xs err ⟨.ofBytes bytes, pos⟩ ⟨.ofBytes (respell spans pos bytes), pos'⟩ := by
  induction xs generalizing bytes pos pos' with
  | nil =>
    cases err with
    | none => exact .nil _ _
    | some e =>
      have hsame : respell spans pos bytes = bytes := respell_eq_self fun s hs =>
        (hat s hs).imp_right fun ⟨l, hl, _⟩ => nomatch hl
      cases h with
      | cons hs _ =>
        obtain ⟨e', d', hs'⟩ := exists_error_of_scan hs pos'
        rw [hsame]
        refine .error hs hs' ?_
        rw [lexical_scan options _ e' (by rw [hs']), lexical_scan options _ e (by rw [hs])]
  | cons x xs ih =>
    cases h with
    | @cons _ d1 _ _ _ hs hrest =>
      obtain ⟨hfirst, hnext, hlater⟩ := spans_of_scan hs hrest hat
      obtain ⟨more, x', e, hmore, hx, hs'⟩ := scan_respell hs hfirst hnext pos'
      obtain ⟨_, next⟩ := d1
      subst hmore
      exact .cons hs hs' hx (ih hrest hlater e)

end Cursor

namespace Session

/-- **Plain and escaped spellings are interchangeable.** If any of the plain names that are scanned
are written as escaped names, reading ends in the same way, reports the same events and is left in
the same progress. -/
theorem run_respelled (options : ScanOptions) (bytes : List UInt8) :
    let original := (ofSource options (.ofBytes bytes)).run .recorder #[]
    ∃ rs d, (Cursor.ofSource (.ofBytes bytes)).Yields options rs d ∧
      original.session.stream = ⟨options, d, none⟩ ∧
      ∀ chosen : Lexeme → Bool,
        let spans := ((identifiers rs).filter chosen).map Lexeme.span
        let source := Source.ofBytes (respell spans .start bytes)
        let respelled := (ofSource options source).run .recorder #[]
        respelled.result.mapError (·.cause.kind) = original.result.mapError (·.cause.kind) ∧
          respelled.state = original.state ∧
          respelled.session.progress = original.session.progress := by
  intro original
  obtain ⟨xs, err, hy, hmatch⟩ := course_echoes options (.ofSource (.ofBytes bytes)) .beforeModule
  have horiginal : original = _ := run_ofSource options (.ofBytes bytes)
  refine ⟨Cursor.scanResults xs err, _, hy, congrArg (·.session.stream) horiginal,
    fun chosen => ?_⟩
  intro spans source respelled
  have hat : ∀ s ∈ spans, s.Before .start ∨
      ∃ l ∈ identifiers (Cursor.scanResults xs err), l.span = s := fun s hs => by
    obtain ⟨l, hl, rfl⟩ := List.mem_map.mp hs
    exact .inr ⟨l, (List.mem_filter.mp hl).1, rfl⟩
  obtain ⟨hresult, hevents, hprogress⟩ := hmatch .beforeModule (.ofSource source) rfl
    (Cursor.echoes_respell hy hat .start)
  have hrespelled : respelled = _ := run_ofSource options source
  rw [horiginal, hrespelled]
  exact ⟨hresult, congrArg List.toArray hevents, hprogress⟩

end Session

end Netlist
