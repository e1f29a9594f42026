import Mathlib.Data.List.Infix
import Netlist.Proofs.Spelled

/-! # The gaps between lexemes

Between lexemes there are blanks and noise (`Gap`). A block comment goes to the first star and slash
behind its opening, and a directive to the end of its line (`IsNoise`). Main statement: a scan skips
a gap and then reads a token where it is spelled (`Cursor.exists_gap_of_scan`). -/

namespace Netlist

/-- The bytes are a stretch that is skipped under the options: a block comment, which holds no star
and slash before its end; or a line whose first word is that of the time scale directive. -/
inductive IsNoise (options : ScanOptions) : List UInt8 → Prop
  | block {inside : List UInt8} : options.skipBlockComments = true →
      ¬ [Ascii.star, Ascii.slash] <:+: inside ++ [Ascii.star] →
      IsNoise options (Ascii.slash :: Ascii.star :: (inside ++ [Ascii.star, Ascii.slash]))
  | directive {line : List UInt8} : options.skipTimescale = true →
      Stops Ascii.isNameStart line → Ascii.lineFeed ∉ line →
      IsNoise options (Ascii.backtick :: (Utf8.encode "timescale" ++ (line ++ [Ascii.lineFeed])))

/-- The bytes are blanks and noise. -/
inductive Gap (options : ScanOptions) : List UInt8 → Prop
  | nil : Gap options []
  | blank {b : UInt8} {bytes : List UInt8} :
      Ascii.isBlank b = true → Gap options bytes → Gap options (b :: bytes)
  | noise {region bytes : List UInt8} :
      IsNoise options region → Gap options bytes → Gap options (region ++ bytes)

theorem Gap.blanks_append {options : ScanOptions} {blanks bytes : List UInt8}
    (hw : ∀ b ∈ blanks, Ascii.isBlank b = true) (h : Gap options bytes) :
    Gap options (blanks ++ bytes) := by
  induction blanks with
  | nil => exact h
  | cons b blanks ih =>
    obtain ⟨hb, hw⟩ := List.forall_mem_cons.mp hw
    exact .blank hb (ih hw)

namespace Cursor

variable {options : ScanOptions} {c d : Cursor} {pos : Pos} {l : Lexeme} {b : UInt8}
  {bytes : List UInt8}

/-! ### Block comments -/

theorem not_star_slash_infix_cons (h : ¬ [Ascii.star, Ascii.slash] <:+: bytes)
    (hb : b = Ascii.star → bytes.head? ≠ some Ascii.slash) :
    ¬ [Ascii.star, Ascii.slash] <:+: b :: bytes := by
  rw [List.infix_cons_iff, List.cons_prefix_cons]
  rintro (⟨rfl, hp⟩ | hi)
  · obtain ⟨more, rfl⟩ := hp
    exact hb rfl rfl
  · exact h hi

/-- A block comment that ends does so at the first star and slash. The star may be the byte before,
if that belongs to the inside. -/
theorem exists_inside_of_blockTail {afterStar : Bool}
    (h : (blockTail afterStar (.ofBytes bytes)).closed = true) :
    ∃ taken rest inside, bytes = taken ++ rest ∧
      blockTail afterStar (.ofBytes bytes) = ⟨taken, true, .ofBytes rest⟩ ∧
      (if afterStar then [Ascii.star] else []) ++ taken = inside ++ [Ascii.star, Ascii.slash] ∧
      ¬ [Ascii.star, Ascii.slash] <:+: inside ++ [Ascii.star] := by
  induction bytes generalizing afterStar with
  | nil => cases h
  | cons b bytes ih =>
    by_cases hb : (afterStar && b == Ascii.slash) = true
    · rw [Bool.and_eq_true, beq_iff_eq] at hb
      obtain ⟨rfl, rfl⟩ := hb
      exact ⟨[Ascii.slash], bytes, [], rfl, rfl, rfl, by decide⟩
    · have hstep : blockTail afterStar (.ofBytes (b :: bytes)) =
          { blockTail (b == Ascii.star) (.ofBytes bytes) with
            bytes := b :: (blockTail (b == Ascii.star) (.ofBytes bytes)).bytes } := by
        rw [Source.ofBytes_cons, blockTail, if_neg hb]
      rw [hstep] at h ⊢
      obtain ⟨taken, rest, inside, rfl, hblock, hinside, hfirst⟩ := ih h
      rw [hblock]
      -- the comment from this byte on
      obtain ⟨more, hmore, hnot, hhead⟩ : ∃ more, b :: taken = more ++ [Ascii.star, Ascii.slash] ∧
          ¬ [Ascii.star, Ascii.slash] <:+: more ++ [Ascii.star] ∧
          (more ++ [Ascii.star]).head? = some b := by
        by_cases hstar : b = Ascii.star
        · subst hstar
          refine ⟨inside, hinside, hfirst, ?_⟩
          cases inside with
          | nil => rfl
          | cons x inside => exact congrArg some (List.cons.inj hinside).1.symm
        · have hb : (b == Ascii.star) = false := beq_eq_false_iff_ne.mpr hstar
          rw [hb] at hinside
          exact ⟨b :: inside, congrArg (b :: ·) hinside,
            not_star_slash_infix_cons hfirst fun h => absurd h hstar, rfl⟩
      refine ⟨b :: taken, rest, _ ++ more, rfl, rfl, by rw [hmore, List.append_assoc], ?_⟩
      cases afterStar with
      | false => exact hnot
      | true =>
        refine not_star_slash_infix_cons hnot fun _ hslash => hb ?_
        rw [Option.some.inj (hhead.symm.trans hslash)]
        rfl

/-! ### Noise -/

/-- The bytes of noise that was read before `rest`. A last line may lack its line feed. -/
def NoiseBefore (options : ScanOptions) (region rest : List UInt8) : Prop :=
  IsNoise options region ∨ rest = [] ∧ IsNoise options (region ++ [Ascii.lineFeed])

theorem exists_noise_of_scanSlash
    (h : scanSlash options ⟨.ofBytes (Ascii.slash :: bytes), pos⟩ = (.ok .noise, d)) :
    ∃ region rest, Ascii.slash :: bytes = region ++ rest ∧ NoiseBefore options region rest ∧
      d = ⟨.ofBytes rest, pos.advanceBy region⟩ := by
  simp only [scanSlash, skip_ofBytes_cons, look_ofBytes] at h
  split_ifs at h with hslash hstar hskips hclosed
  · cases h
  · obtain ⟨bytes, rfl⟩ := List.head?_eq_some_iff.mp (beq_iff_eq.mp hstar)
    rw [skip_ofBytes_cons] at h hclosed
    obtain ⟨taken, rest, inside, rfl, hblock, rfl, hfirst⟩ := exists_inside_of_blockTail hclosed
    rw [hblock] at h
    cases h
    exact ⟨_, rest, rfl, .inl (.block hskips hfirst), rfl⟩
  all_goals simp [fail] at h

theorem exists_noise_of_scanDirective
    (h : scanDirective options ⟨.ofBytes (Ascii.backtick :: bytes), pos⟩ = (.ok .noise, d)) :
    ∃ region rest, Ascii.backtick :: bytes = region ++ rest ∧ NoiseBefore options region rest ∧
      d = ⟨.ofBytes rest, pos.advanceBy region⟩ := by
  obtain ⟨word, more, rfl, hword, hs⟩ := Source.exists_run Ascii.isNameStart bytes
  obtain ⟨line, ending, rest, rfl, hline, he⟩ := exists_line more
  simp only [scanDirective, skip_ofBytes_cons, Source.run_append hword hs, past,
    takeLine_append hline he] at h
  split_ifs at h with hskips htext
  · cases h
    have hlt : ∀ x ∈ word, x.toNat < 0x80 := fun x hx =>
      lt_of_isNamePart (Ascii.isNamePart_of_isNameStart (hword x hx))
    obtain rfl : word = Utf8.encode "timescale" := by
      rw [← Ascii.encode_text hlt, beq_iff_eq.mp htext]
    have hs : Stops Ascii.isNameStart line := by
      cases line with
      | nil => exact stops_nil _
      | cons x line => exact hs
    have hnoise := IsNoise.directive hskips hs hline
    refine ⟨Ascii.backtick :: (Utf8.encode "timescale" ++ (line ++ ending)), rest, ?_, ?_, ?_⟩
    · simp only [List.cons_append, List.append_assoc]
    · rcases he with rfl | ⟨rfl, rfl⟩
      · exact .inl hnoise
      · refine .inr ⟨rfl, ?_⟩
        rwa [List.append_nil, List.cons_append, List.append_assoc]
    · rw [Pos.advanceBy_cons, Pos.advanceBy_append _ (Utf8.encode _)]
  all_goals simp [fail] at h

theorem scanFrom_ne_noise (htick : b ≠ Ascii.backtick) (hslash : b ≠ Ascii.slash) :
    (c.scanFrom options b).1 ≠ .ok .noise := by
  unfold scanFrom scanEscaped scanConstant scanSized judgeConstant
  rw [if_neg (by simpa using htick), if_neg (by simpa using hslash)]
  dsimp only
  split_ifs <;> repeat' split
  all_goals simp [fail, accept, scanWord]

theorem exists_noise_of_scanFrom
    (h : scanFrom options b ⟨.ofBytes (b :: bytes), pos⟩ = (.ok .noise, d)) :
    ∃ region rest, b :: bytes = region ++ rest ∧ NoiseBefore options region rest ∧
      d = ⟨.ofBytes rest, pos.advanceBy region⟩ := by
  by_cases htick : b = Ascii.backtick
  · subst htick
    exact exists_noise_of_scanDirective h
  · by_cases hslash : b = Ascii.slash
    · subst hslash
      exact exists_noise_of_scanSlash h
    · exact absurd (congrArg Prod.fst h) (scanFrom_ne_noise htick hslash)

/-- **A piece of noise** stands behind blanks. -/
theorem exists_noise_of_piece (h : piece options ⟨.ofBytes bytes, pos⟩ = (.ok .noise, d)) :
    ∃ blanks region rest, bytes = blanks ++ (region ++ rest) ∧
      (∀ b ∈ blanks, Ascii.isBlank b = true) ∧ NoiseBefore options region rest ∧
      skipBlanks ⟨.ofBytes bytes, pos⟩ = ⟨.ofBytes (region ++ rest), pos.advanceBy blanks⟩ ∧
      d = ⟨.ofBytes rest, (pos.advanceBy blanks).advanceBy region⟩ := by
  obtain ⟨blanks, rest, rfl, hw, hs⟩ := Source.exists_run Ascii.isBlank bytes
  cases rest with
  | nil =>
    rw [List.append_nil, piece_of_blanks_nil options hw] at h
    cases h
  | cons b rest =>
    rw [piece_of_blanks hw (stops_cons_iff.mp hs)] at h
    obtain ⟨region, rest', he, hnoise, hd⟩ := exists_noise_of_scanFrom h
    refine ⟨blanks, region, rest', by rw [he], hw, hnoise, ?_, hd⟩
    rw [← he]
    simp only [skipBlanks, past, Source.run_append hw hs]

/-- **A scan skips a gap** and reads a token where it is spelled. -/
theorem exists_gap_of_scan (h : scan options ⟨.ofBytes bytes, pos⟩ = (.ok (some l), d)) :
    ∃ gap lex tail rest, bytes = gap ++ (lex ++ (tail ++ rest)) ∧ Gap options gap ∧
      l.token.ReadFrom lex tail rest ∧
      l.span = ⟨pos.advanceBy gap, (pos.advanceBy gap).advanceBy lex⟩ ∧
      d = ⟨.ofBytes rest, (pos.advanceBy gap).advanceBy (lex ++ tail)⟩ := by
  generalize hc : (⟨.ofBytes bytes, pos⟩ : Cursor) = c at h
  fun_induction scan options c generalizing bytes pos with
  | case1 c m e hp =>
    subst hc
    cases h
    obtain ⟨blanks, lex, tail, rest, he, hw, hread, hspan, hd⟩ := exists_readFrom_of_piece hp
    have hgap : Gap options (blanks ++ []) := Gap.nil.blanks_append hw
    rw [List.append_nil] at hgap
    exact ⟨blanks, lex, tail, rest, he, hgap, hread, hspan, hd⟩
  | case2 c e hp ih =>
    subst hc
    obtain ⟨blanks, region, rest, rfl, hw, hnoise, -, rfl⟩ := exists_noise_of_piece hp
    obtain ⟨gap, lex, tail, rest', rfl, hgap, hread, hspan, hd⟩ := ih rfl h
    -- what is read comes after the noise, so the noise ended there
    have hregion : IsNoise options region := hnoise.resolve_right fun hr => by
      obtain ⟨b, more, rfl, -⟩ := scanFrom_of_readFrom options hread
      simp at hr
    refine ⟨blanks ++ (region ++ gap), lex, tail, rest', by simp only [List.append_assoc],
      (Gap.noise hregion hgap).blanks_append hw, hread, ?_, ?_⟩
    · simpa only [Pos.advanceBy_append] using hspan
    · simpa only [Pos.advanceBy_append] using hd
  | case3 => cases h
  | case4 => cases h

end Cursor

end Netlist
