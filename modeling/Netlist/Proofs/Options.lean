import Netlist.Proofs.Shadow
import Netlist.Proofs.Truncation

/-! # What more options change

A scan that gives a lexeme or meets the end skips nothing that its options do not allow, so it gives
the same under options that allow more (`Cursor.scan_of_le`). Only errors are changed by them. Main
statement: what can be read can be read under such options too, through the same lexemes
(`Session.run_of_le`). -/

namespace Netlist

/-- The second options skip all that the first ones skip. -/
instance : LE ScanOptions where
  le o o' := o.skipTimescale ≤ o'.skipTimescale ∧ o.skipBlockComments ≤ o'.skipBlockComments

instance (o o' : ScanOptions) : Decidable (o ≤ o') :=
  inferInstanceAs (Decidable (o.skipTimescale ≤ o'.skipTimescale ∧
    o.skipBlockComments ≤ o'.skipBlockComments))

variable {o o' : ScanOptions}

namespace Cursor

variable {c d : Cursor} {p : Piece} {l? : Option Lexeme}

/-! ### Scans that succeed -/

theorem scanSlash_of_le (h : o ≤ o') (hp : c.scanSlash o = (.ok p, d)) :
    c.scanSlash o' = (.ok p, d) := by
  cases hskips : o.skipBlockComments with
  | true =>
    have hskips' : o'.skipBlockComments = true := h.2 hskips
    simpa only [scanSlash, hskips, hskips'] using hp
  | false =>
    simp only [scanSlash, hskips, Bool.false_eq_true, if_false] at hp ⊢
    -- what succeeds is a line comment
    by_cases hline : (c.skip.look.1 == some Ascii.slash) = true
    · rwa [if_pos hline] at hp ⊢
    · rw [if_neg hline] at hp
      split_ifs at hp <;> simp [fail] at hp

theorem scanDirective_of_le (h : o ≤ o') (hp : c.scanDirective o = (.ok p, d)) :
    c.scanDirective o' = (.ok p, d) := by
  cases hskips : o.skipTimescale with
  | true =>
    have hskips' : o'.skipTimescale = true := h.1 hskips
    simpa only [scanDirective, hskips, hskips'] using hp
  | false => simp [scanDirective, hskips, fail] at hp

theorem piece_of_le (h : o ≤ o') (hp : c.piece o = (.ok p, d)) : c.piece o' = (.ok p, d) := by
  unfold piece at hp ⊢
  split at hp
  · exact hp
  · unfold scanFrom at hp ⊢
    split_ifs at hp ⊢
    · exact scanDirective_of_le h hp
    · exact scanSlash_of_le h hp
    all_goals exact hp

/-- **A scan that succeeds** gives the same under options that skip more. -/
theorem scan_of_le (h : o ≤ o') (hs : c.scan o = (.ok l?, d)) : c.scan o' = (.ok l?, d) := by
  fun_induction scan o c with
  | case1 c l e hp => rw [scan_eq, piece_of_le h hp]; exact hs
  | case2 c e hp ih => rw [scan_eq, piece_of_le h hp]; exact ih hs
  | case3 c e hp => rw [scan_eq, piece_of_le h hp]; exact hs
  | case4 => cases hs

theorem Yields.of_le {rs : List (Option Lexeme)} (h : o ≤ o') (hy : Yields o c (rs.map .ok) d) :
    Yields o' c (rs.map .ok) d := by
  induction rs generalizing c with
  | nil =>
    cases hy
    exact .nil _
  | cons r rs ih =>
    cases hy with
    | cons hs hrest => exact .cons (scan_of_le h hs) (ih hrest)

end Cursor

namespace Session

/-! ### Runs that succeed -/

theorem yields_of_course {c : Cursor} {p : Progress} (hp : p ≠ .finished)
    (h : (course o c p).result = .ok ()) :
    ∃ (rs : List (Option Lexeme)) (l : Lexeme), l.token = .keyword .endmodule ∧
      c.Yields o ((rs ++ [some l]).map .ok) (course o c p).cursor := by
  fun_induction course o c p with
  | case1 => exact absurd rfl hp
  | case2 => cases h
  | case3 c p _ d hs q hq ih =>
    obtain ⟨rs, l, hl, hy⟩ := ih (Progress.of_atEnd hq).1 h
    exact ⟨none :: rs, l, hl, .cons hs hy⟩
  | case4 => cases h
  | case5 c p _ l d hs event q hq ih =>
    by_cases hf : q = .finished
    · subst hf
      obtain ⟨-, -, hl⟩ := (Progress.step_of_settle hq).eq_endmodule hp
      rw [course_finished]
      exact ⟨[], l, hl, .cons hs (.nil d)⟩
    · obtain ⟨rs, m, hm, hy⟩ := ih hf h
      exact ⟨some l :: rs, m, hm, .cons hs hy⟩
  | case6 => cases h

/-- **A run that succeeds** has the same course under options that skip more. -/
theorem course_of_le (h : o ≤ o') {c : Cursor} {p : Progress}
    (hok : (course o c p).result = .ok ()) : course o' c p = course o c p := by
  fun_induction course o c p with
  | case1 c => exact course_finished o' c
  | case2 => cases hok
  | case3 c p hp d hs q hq ih =>
    rw [course_eq o' c hp]
    simp only [Cursor.scan_of_le h hs, hq]
    exact ih hok
  | case4 => cases hok
  | case5 c p hp l d hs event q hq ih =>
    rw [course_eq o' c hp]
    simp only [Cursor.scan_of_le h hs, hq, ih hok]
  | case6 => cases hok

theorem progress_of_course {c : Cursor} {p : Progress} (hok : (course o c p).result = .ok ()) :
    (course o c p).progress = .finished := by
  fun_induction course o c p with
  | case1 => rfl
  | case2 => cases hok
  | case3 _ _ _ _ _ _ _ ih => exact ih hok
  | case4 => cases hok
  | case5 _ _ _ _ _ _ _ _ _ ih => exact ih hok
  | case6 => cases hok

/-- **Options are monotone.** What can be read can also be read under options that skip more, with
the same events and up to the same position, and what is scanned up to `endmodule` is the same. -/
theorem run_of_le (h : o ≤ o') {source : Source}
    (hok : ((ofSource o source).run .recorder #[]).result = .ok ()) :
    ∃ (rs : List (Option Lexeme)) (l : Lexeme) (d : Cursor) (events : Array Event),
      l.token = .keyword .endmodule ∧
      (Cursor.ofSource source).Yields o ((rs ++ [some l]).map .ok) d ∧
      (Cursor.ofSource source).Yields o' ((rs ++ [some l]).map .ok) d ∧
      (ofSource o source).run .recorder #[] = ⟨.ok (), events, ⟨⟨o, d, none⟩, .finished⟩⟩ ∧
      (ofSource o' source).run .recorder #[] = ⟨.ok (), events, ⟨⟨o', d, none⟩, .finished⟩⟩ := by
  have hrun := run_ofSource o source
  have hrun' := run_ofSource o' source
  replace hok : (course o (.ofSource source) .beforeModule).result = .ok () := by
    rwa [hrun] at hok
  rw [course_of_le h hok] at hrun'
  obtain ⟨rs, l, hl, hy⟩ := yields_of_course (by simp) hok
  rw [hok, progress_of_course hok] at hrun hrun'
  exact ⟨rs, l, _, _, hl, hy, hy.of_le h, hrun, hrun'⟩

/-- Neither a backtick in a comment nor the opening of a block comment in an escaped name, and
nothing after the module, is noise. -/
theorem run_of_le_of_strict :
    let source := Source.ofBytes (Utf8.encode
      "//`timescale /*\nmodule m(\\/*` );\nassign \\/*` =1;\nendmodule\n`x /*")
    let run := fun options => (ofSource options source).run .recorder #[]
    ScanOptions.strict ≤ .permissive ∧ (run .strict).result = .ok () ∧
      (run .permissive).state = (run .strict).state := by
  intro source run
  have hok : (run .strict).result = .ok () := by decide +kernel
  have hle : ScanOptions.strict ≤ .permissive := by decide
  obtain ⟨_, _, _, _, -, -, -, hs, hp⟩ := run_of_le hle hok
  exact ⟨hle, hok, by rw [show run .strict = _ from hs, show run .permissive = _ from hp]⟩

end Session

end Netlist
