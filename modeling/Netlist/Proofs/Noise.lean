import Netlist.Proofs.Blanking
import Netlist.Proofs.Gap
import Netlist.Proofs.Lead

/-! # Noise and blanks

The noise that scanning to the end skips (`Cursor.noise`) can be blanked: then nothing but blanks
has to be skipped, and the lexemes are the same, at the same places. Main statement:
`Cursor.scanAll_blank_noise`. -/

namespace Netlist

/-- A byte that goes on in no name and no constant ends what another byte ended that is no comma. -/
theorem Token.EndsBefore.of_byte {t : Token} {lex tail rest rest' : List UInt8} {x : UInt8}
    (h : t.EndsBefore lex tail rest)
    (hx : (Cursor.isSizedPart x || x == Ascii.apostrophe) = false)
    (hr : rest'.head? = rest.head? ∨ rest'.head? = some x ∧ ∃ b ∈ rest.head?, b ≠ Ascii.comma) :
    t.EndsBefore lex tail rest' := by
  obtain ⟨hsized, happ⟩ := Bool.or_eq_false_iff.mp hx
  have hname : Ascii.isNamePart x = false := (Bool.or_eq_false_iff.mp hsized).1
  have stops {p : UInt8 → Bool} (hp : p x = false) (hs : Stops p rest) :
      Stops p rest' := fun b hb => by
    rcases hr with hr | ⟨hr, -⟩
    · exact hs b (hr ▸ hb)
    · obtain rfl := Option.some.inj (hr.symm.trans hb)
      exact hp
  cases t with
  | identifier name => exact h.imp_right (stops hname)
  | keyword k => exact h.imp_right (stops hname)
  | constant value =>
    refine h.imp_right (stops ?_)
    have hdigit : Ascii.isDigit x = false := by
      simp only [Ascii.isNamePart, Bool.or_eq_false_iff] at hname
      exact hname.1.2
    unfold continuesConstant
    split_ifs
    · exact hsized
    · rw [hdigit, happ]
      rfl
  | escaped name =>
    refine h.imp_right fun hc => hc.imp_right fun hcomma => ?_
    rcases hr with hr | ⟨-, b, hb, hne⟩
    · exact hr.trans hcomma
    · exact absurd (Option.some.inj (hb.symm.trans hcomma)) hne
  | punct p => exact h
  | comment text =>
    refine h.imp_right fun hc => hc.imp_right fun hnil => ?_
    subst hnil
    rcases hr with hr | ⟨-, b, hb, -⟩
    · exact List.head?_eq_none_iff.mp hr
    · cases hb

theorem NoiseBefore.exists_cons {options : ScanOptions} {region rest : List UInt8}
    (h : Cursor.NoiseBefore options region rest) :
    ∃ b more, region = b :: more ∧ b ≠ Ascii.comma := by
  have starts {bytes : List UInt8} (h : IsNoise options bytes) :
      ∃ b ∈ bytes.head?, b ≠ Ascii.comma ∧ b ≠ Ascii.lineFeed := by
    cases h with
    | block => exact ⟨_, rfl, by decide, by decide⟩
    | directive => exact ⟨_, rfl, by decide, by decide⟩
  cases region with
  | nil =>
    rcases h with h | ⟨-, h⟩ <;> obtain ⟨b, hb, -, hne⟩ := starts h
    · cases hb
    · exact absurd (Option.some.inj hb).symm hne
  | cons b more =>
    rcases h with h | ⟨-, h⟩ <;> obtain ⟨x, hx, hne, -⟩ := starts h <;> cases hx <;>
      exact ⟨_, more, rfl, hne⟩

namespace Cursor

variable {options : ScanOptions} {c d : Cursor} {pos : Pos} {bytes : List UInt8}
  {l : Lexeme} {ls : List Lexeme} {s : Span}

/-- The stretches of noise that scanning skips from the cursor on, up to the end or an error. -/
def noise (options : ScanOptions) (c : Cursor) : List Span :=
  match _h : c.piece options with
  | (.ok .noise, d) => ⟨c.skipBlanks.pos, d.pos⟩ :: d.noise options
  | (.ok (.lexeme _), d) => d.noise options
  | (.ok .finish, _) => []
  | (.error _, _) => []
termination_by c.size
decreasing_by
  · exact (size_piece _h).resolve_right fun h => nomatch h.1
  · exact (size_piece _h).resolve_right fun h => nomatch h.1

theorem exists_region_of_mem_noise (h : s ∈ noise options ⟨.ofBytes bytes, pos⟩) :
    ∃ before region after, bytes = before ++ (region ++ after) ∧
      NoiseBefore options region after ∧
      s = ⟨pos.advanceBy before, pos.advanceBy (before ++ region)⟩ := by
  generalize hc : (⟨.ofBytes bytes, pos⟩ : Cursor) = c at h
  fun_induction noise options c generalizing bytes pos with
  | case1 c d hp ih =>
    subst hc
    obtain ⟨blanks, region, rest, rfl, -, hnoise, hskip, rfl⟩ := exists_noise_of_piece hp
    rcases List.mem_cons.mp h with rfl | h
    · exact ⟨blanks, region, rest, rfl, hnoise, by rw [hskip, Pos.advanceBy_append]⟩
    · obtain ⟨before, region', after, rfl, hnoise', rfl⟩ := ih rfl h
      refine ⟨blanks ++ (region ++ before), region', after, by simp only [List.append_assoc],
        hnoise', ?_⟩
      simp only [Pos.advanceBy_append]
  | case2 c l d hp ih =>
    subst hc
    obtain ⟨blanks, lex, tail, rest, rfl, -, -, -, rfl⟩ := exists_readFrom_of_piece hp
    obtain ⟨before, region, after, rfl, hnoise, rfl⟩ := ih rfl h
    refine ⟨blanks ++ (lex ++ (tail ++ before)), region, after, by simp only [List.append_assoc],
      hnoise, ?_⟩
    simp only [Pos.advanceBy_append]
  | case3 => cases h
  | case4 => cases h

theorem le_start_of_mem_noise (h : s ∈ noise options ⟨.ofBytes bytes, pos⟩) : pos ≤ s.start := by
  obtain ⟨before, _, _, -, -, rfl⟩ := exists_region_of_mem_noise h
  exact Pos.le_advanceBy _ _

/-- Blanking the noise leaves the first byte as it is, or makes it a space. -/
theorem head?_blank_noise (options : ScanOptions) (pos : Pos) (bytes : List UInt8) :
    (blank (noise options ⟨.ofBytes bytes, pos⟩) pos bytes).head? = bytes.head? ∨
      (blank (noise options ⟨.ofBytes bytes, pos⟩) pos bytes).head? = some Ascii.space ∧
        ∃ b ∈ bytes.head?, b ≠ Ascii.comma := by
  cases bytes with
  | nil => exact .inl rfl
  | cons b more =>
    rw [blank]
    split_ifs with hb
    · obtain ⟨-, s, hs, hle, -⟩ := hb
      refine .inr ⟨rfl, b, rfl, ?_⟩
      obtain ⟨before, region, after, he, hnoise, rfl⟩ := exists_region_of_mem_noise hs
      obtain rfl : before = [] := by
        by_contra hne
        exact absurd (Pos.lt_advanceBy pos hne) (not_lt.mpr hle)
      obtain ⟨x, region, rfl, hx⟩ := NoiseBefore.exists_cons hnoise
      obtain ⟨rfl, -⟩ := List.cons.inj he
      exact hx
    · exact .inl rfl

/-! ### Scanning to the end piece by piece -/

theorem scanAll_eq_piece (options : ScanOptions) (c : Cursor) : c.scanAll options =
    match c.piece options with
    | (.ok (.lexeme l), d) =>
      match d.scanAll options with
      | (.ok ls, e) => (.ok (l :: ls), e)
      | (.error err, e) => (.error err, e)
    | (.ok .noise, d) => d.scanAll options
    | (.ok .finish, d) => (.ok [], d)
    | (.error err, d) => (.error err, d) := by
  rw [scanAll_eq, scan_eq]
  rcases c.piece options with ⟨err | l | _ | _, d⟩
  · rfl
  · rfl
  · exact (scanAll_eq options d).symm
  · rfl

theorem scanAll_append_blanks (options : ScanOptions) {blanks : List UInt8}
    (hw : ∀ b ∈ blanks, Ascii.isBlank b = true) (pos : Pos) (bytes : List UInt8) :
    scanAll options ⟨.ofBytes (blanks ++ bytes), pos⟩ =
      scanAll options ⟨.ofBytes bytes, pos.advanceBy blanks⟩ := by
  rw [scanAll_eq, Source.ofBytes_append, scan_append_blanks options hw, ← scanAll_eq]

theorem eq_blanks_of_piece (h : piece options ⟨.ofBytes bytes, pos⟩ = (.ok .finish, d)) :
    (∀ b ∈ bytes, Ascii.isBlank b = true) ∧ d = ⟨[], pos.advanceBy bytes⟩ := by
  obtain ⟨blanks, rest, rfl, hw, hs⟩ := Source.exists_run Ascii.isBlank bytes
  cases rest with
  | nil =>
    rw [List.append_nil] at h ⊢
    rw [piece_of_blanks_nil options hw] at h
    cases h
    exact ⟨hw, rfl⟩
  | cons b rest =>
    rw [piece_of_blanks hw (stops_cons_iff.mp hs)] at h
    exact absurd (congrArg Prod.fst h) (scanFrom_ne_finish _ _ _)

theorem scanAll_blank_cons {blanks region rest : List UInt8} {spans : List Span}
    (hw : ∀ b ∈ blanks, Ascii.isBlank b = true) (pos : Pos) :
    scanAll options ⟨.ofBytes (blank (⟨pos.advanceBy blanks,
        (pos.advanceBy blanks).advanceBy region⟩ :: spans) pos (blanks ++ (region ++ rest))), pos⟩ =
      scanAll options ⟨.ofBytes (blank spans ((pos.advanceBy blanks).advanceBy region) rest),
        (pos.advanceBy blanks).advanceBy region⟩ := by
  set first := pos.advanceBy blanks
  set last := first.advanceBy region with hlast
  have hrest : blank (⟨first, last⟩ :: spans) last rest = blank spans last rest :=
    blank_congr fun q hq _ => by
      rw [List.exists_mem_cons_iff, or_iff_right fun hs => not_lt.mpr hq hs.2]
  have hregion := isBlank_of_mem_blank (List.mem_cons_self (a := ⟨first, last⟩) (l := spans))
    (le_refl first) hlast.ge
  rw [blank_append, blank_append, hrest, scanAll_append_blanks options (isBlank_blank _ _ hw),
    advanceBy_blank, scanAll_append_blanks options hregion, advanceBy_blank]

theorem piece_blank_noise {rest : List UInt8} {next : Pos}
    (h : piece options ⟨.ofBytes bytes, pos⟩ = (.ok (.lexeme l), ⟨.ofBytes rest, next⟩)) :
    piece .strict ⟨.ofBytes (blank (noise options ⟨.ofBytes rest, next⟩) pos bytes), pos⟩ =
      (.ok (.lexeme l),
        ⟨.ofBytes (blank (noise options ⟨.ofBytes rest, next⟩) next rest), next⟩) := by
  obtain ⟨blanks, lex, tail, rest', rfl, hw, hread, hspan, hd⟩ := exists_readFrom_of_piece h
  obtain ⟨hrest, hnext⟩ := Cursor.mk.inj hd
  obtain rfl := Source.ofBytes_injective hrest
  set spans := noise options ⟨.ofBytes rest, next⟩
  rw [← Pos.advanceBy_append] at hnext
  -- the noise starts behind the lexeme
  have hself : blank spans pos (blanks ++ (lex ++ tail)) = blanks ++ (lex ++ tail) :=
    blank_eq_self fun q _ hq s hs hc =>
      not_lt.mpr ((le_start_of_mem_noise hs).trans hc.1) (hnext ▸ hq)
  have hblank : blank spans pos (blanks ++ (lex ++ (tail ++ rest))) =
      blanks ++ (lex ++ (tail ++ blank spans next rest)) := by
    have hsplit := blank_append spans pos (blanks ++ (lex ++ tail)) rest
    rw [hself, ← hnext] at hsplit
    simpa only [List.append_assoc] using hsplit
  have hread' : l.token.ReadFrom lex tail (blank spans next rest) :=
    ⟨hread.wellFormed, hread.spelledBy, hread.endsBefore.of_byte rfl (head?_blank_noise ..)⟩
  rw [hblank, piece_of_readFrom .strict hw hread', ← hspan, hnext, Pos.advanceBy_append pos blanks]

/-- **Noise is as good as blanks**, wherever scanning starts. -/
theorem scanAll_blank_noise_from (h : scanAll options ⟨.ofBytes bytes, pos⟩ = (.ok ls, d)) :
    scanAll .strict ⟨.ofBytes (blank (noise options ⟨.ofBytes bytes, pos⟩) pos bytes), pos⟩ =
      (.ok ls, d) := by
  generalize hc : (⟨.ofBytes bytes, pos⟩ : Cursor) = c at h ⊢
  fun_induction noise options c generalizing bytes pos ls with
  | case1 c e hp ih =>
    rw [scanAll_eq_piece, hp] at h
    subst hc
    obtain ⟨blanks, region, rest, rfl, hw, hnoise, hskip, rfl⟩ := exists_noise_of_piece hp
    rw [hskip, scanAll_blank_cons hw]
    exact ih rfl h
  | case2 c l e hp ih =>
    rw [scanAll_eq_piece, hp] at h
    subst hc
    obtain ⟨rest, next, rfl⟩ : ∃ rest next, e = ⟨.ofBytes rest, next⟩ := by
      obtain ⟨_, _, _, rest, -, -, -, -, he⟩ := exists_readFrom_of_piece hp
      exact ⟨rest, _, he⟩
    rw [scanAll_eq_piece, piece_blank_noise hp]
    rcases hall : scanAll options ⟨.ofBytes rest, next⟩ with ⟨err | ms, f⟩ <;>
      simp only [hall] at h <;> cases h
    simp only [ih rfl hall]
  | case3 c e hp =>
    rw [scanAll_eq_piece, hp] at h
    cases h
    subst hc
    obtain ⟨hw, rfl⟩ := eq_blanks_of_piece hp
    rw [blank_eq_self fun _ _ _ _ hs => absurd hs List.not_mem_nil, scanAll_eq_piece,
      piece_of_blanks_nil _ hw]
  | case4 c err e hp =>
    rw [scanAll_eq_piece, hp] at h
    cases h

/-- **Noise is as good as blanks.** Where scanning to the end succeeds, what it has skipped are
block comments and directives, and with those blanked the source has the same lexemes at the same
places when nothing may be skipped. -/
theorem scanAll_blank_noise (h : (ofSource (.ofBytes bytes)).scanAll options = (.ok ls, d)) :
    let regions := (ofSource (.ofBytes bytes)).noise options
    (∀ s ∈ regions, ∃ before region after, bytes = before ++ (region ++ after) ∧
      NoiseBefore options region after ∧
      s = ⟨Pos.start.advanceBy before, Pos.start.advanceBy (before ++ region)⟩) ∧
    (ofSource (.ofBytes (blank regions .start bytes))).scanAll .strict = (.ok ls, d) :=
  ⟨fun _ => exists_region_of_mem_noise, scanAll_blank_noise_from h⟩

/-- A directive, and two block comments with no blank around them. -/
theorem scanAll_blank_noise_of_directive :
    let bytes := Utf8.encode "`timescale 1ns\nmodule/*a*//*b\n*/m;"
    let ls := [⟨.keyword .module, ⟨⟨2, 1⟩, ⟨2, 7⟩⟩⟩, ⟨.identifier "m", ⟨⟨3, 3⟩, ⟨3, 4⟩⟩⟩,
      ⟨.punct .semicolon, ⟨⟨3, 4⟩, ⟨3, 5⟩⟩⟩]
    (ofSource (.ofBytes bytes)).scanAll .permissive = (.ok ls, ⟨[], ⟨3, 5⟩⟩) ∧
      (ofSource (.ofBytes (Utf8.encode "              \nmodule        \n  m;"))).scanAll .strict =
        (.ok ls, ⟨[], ⟨3, 5⟩⟩) := by
  intro bytes ls
  have h : (ofSource (.ofBytes bytes)).scanAll .permissive = (.ok ls, ⟨[], ⟨3, 5⟩⟩) := by
    decide +kernel
  have hblank : blank ((ofSource (.ofBytes bytes)).noise .permissive) .start bytes =
      Utf8.encode "              \nmodule        \n  m;" := by decide +kernel
  exact ⟨h, hblank ▸ (scanAll_blank_noise h).2⟩

end Cursor

end Netlist
