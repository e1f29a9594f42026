import Mathlib.Tactic.SplitIfs
import Netlist.Proofs.Spelled

/-! # How far scanning goes

Every reading goes forward: it takes bytes one by one, each of which moves the position on, and may
use up pauses or meet a fault on its way (`Cursor.Reaches`). Main statement: `scan_reaches`. So what
is left is a suffix of the source, a source of bytes alone stays one, and the end that scanning
meets in it is final (`rest_eq_nil_of_scan`). -/

namespace Netlist

namespace Cursor

/-- Reading can go on from one cursor to the other. -/
inductive Reaches : Cursor → Cursor → Prop
  | refl (c : Cursor) : Reaches c c
  | byte {b : UInt8} {rest : Source} {pos : Pos} {d : Cursor} :
      Reaches ⟨rest, pos.advance b⟩ d → Reaches ⟨.byte b :: rest, pos⟩ d
  | pause {rest : Source} {pos : Pos} {d : Cursor} :
      Reaches ⟨rest, pos⟩ d → Reaches ⟨.pause :: rest, pos⟩ d
  /-- Nothing is left after a fault. -/
  | fault (rest : Source) (pos : Pos) : Reaches ⟨.fault :: rest, pos⟩ ⟨[], pos⟩

namespace Reaches

variable {c d e : Cursor}

theorem trans (h : Reaches c d) (h' : Reaches d e) : Reaches c e := by
  induction h with
  | refl => exact h'
  | byte _ ih => exact .byte (ih h')
  | pause _ ih => exact .pause (ih h')
  | fault rest pos =>
    cases h'
    exact .fault rest pos

theorem suffix (h : Reaches c d) : d.rest <:+ c.rest := by
  induction h with
  | refl => exact List.suffix_refl _
  | byte _ ih => exact ih.trans (List.suffix_cons _ _)
  | pause _ ih => exact ih.trans (List.suffix_cons _ _)
  | fault => exact List.nil_suffix

end Reaches

/-! ### Looks and runs -/

theorem look_reaches (c : Cursor) : Reaches c c.look.2 := by
  obtain ⟨rest, pos⟩ := c
  rcases rest with _ | ⟨_ | _ | _, _⟩
  · exact .refl _
  · exact .refl _
  · exact .pause (.refl _)
  · exact .fault _ _

theorem skip_reaches (c : Cursor) : Reaches c c.skip := by
  obtain ⟨rest, pos⟩ := c
  rcases rest with _ | ⟨_ | _ | _, _⟩
  · exact .refl _
  · exact .byte (.refl _)
  · exact .refl _
  · exact .refl _

theorem pop_reaches (c : Cursor) : Reaches c c.pop.2 := by
  have h := c.look_reaches
  unfold pop
  split <;> rename_i d hd <;> rw [hd] at h
  · exact h.trans d.skip_reaches
  · exact h

theorem past_reaches (c : Cursor) (p : UInt8 → Bool) : Reaches c (c.past (c.rest.run p)) := by
  obtain ⟨rest, pos⟩ := c
  induction rest generalizing pos with
  | nil => exact .refl _
  | cons i rest ih =>
    cases i with
    | byte b =>
      by_cases h : p b
      · simp only [Source.run, h, if_true]
        exact .byte (ih _)
      · simp only [Source.run, h, Bool.false_eq_true, if_false]
        exact .refl _
    | pause => exact .pause (.refl _)
    | fault => exact .fault _ _

theorem skipBlanks_reaches (c : Cursor) : Reaches c c.skipBlanks := c.past_reaches _

theorem takeLine_reaches (c : Cursor) : Reaches c c.takeLine.2 := by
  have h := c.past_reaches (· != Ascii.lineFeed)
  unfold takeLine
  dsimp only
  split_ifs
  · exact h.trans (skip_reaches _)
  · exact h

/-! ### Pieces -/

theorem scanWord_reaches (c : Cursor) : Reaches c c.scanWord.2 := c.past_reaches _

theorem scanEscaped_reaches (c : Cursor) : Reaches c c.scanEscaped.2 := by
  have h := c.skip_reaches.trans (c.skip.past_reaches fun b => !endsEscape b)
  unfold scanEscaped
  dsimp only
  split
  · exact h
  · split <;> dsimp only <;> split_ifs
    · exact h
    · exact h.trans (skip_reaches _)
    · exact h
    · exact h.trans (skip_reaches _)

theorem scanSized_reaches (c : Cursor) (start : Pos) (width : String) :
    Reaches c (c.scanSized start width).2 := by
  have h := c.pop_reaches
  unfold scanSized
  dsimp only
  split
  · exact h
  · split_ifs
    · exact h
    · rw [judgeConstant_snd]
      exact h.trans (past_reaches _ _)

theorem scanConstant_reaches (c : Cursor) : Reaches c c.scanConstant.2 := by
  have h := (c.past_reaches Ascii.isDigit).trans (look_reaches _)
  unfold scanConstant
  dsimp only
  split_ifs
  · exact (h.trans (skip_reaches _)).trans (scanSized_reaches _ _ _)
  · rw [judgeConstant_snd]
    exact h

theorem blockTail_reaches (afterStar : Bool) (s : Source) (pos : Pos) :
    Reaches ⟨s, pos⟩
      ⟨(blockTail afterStar s).rest, pos.advanceBy (blockTail afterStar s).bytes⟩ := by
  induction s generalizing afterStar pos with
  | nil => exact .refl _
  | cons i rest ih =>
    cases i with
    | byte b =>
      unfold blockTail
      split_ifs
      · exact .byte (.refl _)
      · exact .byte (ih _ _)
    | pause => exact .pause (.refl _)
    | fault => exact .fault _ _

theorem scanSlash_reaches_skip (options : ScanOptions) (c : Cursor) :
    Reaches c.skip (c.scanSlash options).2 := by
  have h := look_reaches c.skip
  have hs := h.trans (skip_reaches c.skip.look.2)
  unfold scanSlash
  dsimp only
  split_ifs
  · exact hs.trans (takeLine_reaches _)
  · exact hs.trans (blockTail_reaches _ _ _)
  · exact hs.trans (blockTail_reaches _ _ _)
  · exact h
  · exact h

theorem scanSlash_reaches (options : ScanOptions) (c : Cursor) :
    Reaches c (c.scanSlash options).2 :=
  c.skip_reaches.trans (c.scanSlash_reaches_skip options)

theorem scanDirective_reaches (options : ScanOptions) (c : Cursor) :
    Reaches c (c.scanDirective options).2 := by
  have h := c.skip_reaches.trans (past_reaches _ Ascii.isNameStart)
  unfold scanDirective
  split_ifs
  · dsimp only
    split_ifs
    · exact h.trans (takeLine_reaches _)
    · exact h
  · exact .refl _

theorem scanFrom_reaches (options : ScanOptions) (b : UInt8) (c : Cursor) :
    Reaches c (c.scanFrom options b).2 := by
  unfold scanFrom
  split_ifs
  · exact c.scanDirective_reaches options
  · exact c.scanSlash_reaches options
  · exact c.scanEscaped_reaches
  · exact c.scanWord_reaches
  · exact c.scanConstant_reaches
  · split
    · exact c.skip_reaches
    · exact .refl _

theorem piece_reaches (options : ScanOptions) (c : Cursor) :
    Reaches c (c.piece options).2 := by
  have h := c.skipBlanks_reaches.trans (look_reaches _)
  unfold piece
  split <;> rename_i d hd <;> rw [hd] at h
  · exact h
  · exact h.trans (scanFrom_reaches _ _ d)

theorem reaches_of_piece {options : ScanOptions} {c d : Cursor} {r : Except ReadError Piece}
    (h : c.piece options = (r, d)) : Reaches c d := by
  have hr := c.piece_reaches options
  rwa [h] at hr

/-- **Scanning goes forward**, whatever it gives. -/
theorem scan_reaches (options : ScanOptions) (c : Cursor) : Reaches c (c.scan options).2 := by
  fun_induction scan options c with
  | case1 c l d h => exact reaches_of_piece h
  | case2 c d h ih => exact (reaches_of_piece h).trans ih
  | case3 c d h => exact reaches_of_piece h
  | case4 c e d h => exact reaches_of_piece h

theorem reaches_of_scan {options : ScanOptions} {c d : Cursor}
    {r : Except ReadError (Option Lexeme)} (h : c.scan options = (r, d)) : Reaches c d := by
  have hr := c.scan_reaches options
  rwa [h] at hr

/-! ### Sources of bytes alone -/

/-- No pause and no fault is still to come. -/
def IsPlain (c : Cursor) : Prop := ∃ bytes, c.rest = .ofBytes bytes

theorem isPlain_ofBytes (bytes : List UInt8) : IsPlain (.ofSource (.ofBytes bytes)) := ⟨bytes, rfl⟩

theorem Reaches.exists_bytes {c d : Cursor} (h : Reaches c d) (hc : c.IsPlain) :
    d.IsPlain ∧ ∃ taken, c.rest = .ofBytes taken ++ d.rest ∧ d.pos = c.pos.advanceBy taken := by
  obtain ⟨bytes, hc⟩ := hc
  induction h generalizing bytes with
  | refl c => exact ⟨⟨bytes, hc⟩, [], rfl, rfl⟩
  | @byte b rest pos d _ ih =>
    cases bytes with
    | nil => simp at hc
    | cons a bytes =>
      obtain ⟨⟨⟩, hrest⟩ := List.cons.inj hc
      obtain ⟨hd, taken, ht, hpos⟩ := ih bytes hrest
      exact ⟨hd, b :: taken, congrArg (_ :: ·) ht, hpos⟩
  | pause => cases bytes <;> simp at hc
  | fault => cases bytes <;> simp at hc

theorem Reaches.exists_eq_append {bytes : List UInt8} {pos : Pos} {d : Cursor}
    (h : Reaches ⟨.ofBytes bytes, pos⟩ d) :
    ∃ taken rest, bytes = taken ++ rest ∧ d = ⟨.ofBytes rest, pos.advanceBy taken⟩ := by
  obtain ⟨⟨rest, hrest⟩, taken, htaken, hpos⟩ := h.exists_bytes ⟨bytes, rfl⟩
  rw [hrest, ← Source.ofBytes_append] at htaken
  exact ⟨taken, rest, Source.ofBytes_injective htaken, by rw [← hrest, ← hpos]⟩

theorem IsPlain.scan {options : ScanOptions} {c d : Cursor}
    {r : Except ReadError (Option Lexeme)} (h : c.IsPlain) (hd : c.scan options = (r, d)) :
    d.IsPlain :=
  ((reaches_of_scan hd).exists_bytes h).1

theorem scanFrom_ne_finish (options : ScanOptions) (b : UInt8) (c : Cursor) :
    (c.scanFrom options b).1 ≠ .ok .finish := by
  unfold scanFrom scanDirective scanSlash scanEscaped scanConstant scanSized judgeConstant
  dsimp only
  split_ifs <;> repeat' split
  all_goals simp [fail, accept, scanWord]

theorem rest_eq_nil_of_piece {options : ScanOptions} {c d : Cursor} (hc : c.IsPlain)
    (h : c.piece options = (.ok .finish, d)) : d.rest = [] := by
  obtain ⟨bytes, hc⟩ := (c.skipBlanks_reaches.exists_bytes hc).1
  unfold piece at h
  split at h
  · rename_i e he
    simp only [Prod.mk.injEq, true_and] at h
    subst h
    cases bytes with
    | nil =>
      simp only [look, hc, Source.ofBytes_nil, Prod.mk.injEq, true_and] at he
      rw [← he, hc, Source.ofBytes_nil]
    | cons b bytes => simp [look, hc] at he
  · rename_i b e he
    exact absurd (congrArg Prod.fst h) (scanFrom_ne_finish _ _ _)

/-- **The end of the text is the end of the bytes** in a source of bytes alone. -/
theorem rest_eq_nil_of_scan {options : ScanOptions} {c d : Cursor} (hc : c.IsPlain)
    (h : c.scan options = (.ok none, d)) : d.rest = [] := by
  fun_induction Cursor.scan options c with
  | case1 => simp at h
  | case2 c e he ih =>
    exact ih ((reaches_of_piece he).exists_bytes hc).1 h
  | case3 c e he =>
    simp only [Prod.mk.injEq, true_and] at h
    subst h
    exact rest_eq_nil_of_piece hc he
  | case4 => simp at h

theorem scan_of_rest_eq_nil (options : ScanOptions) {c : Cursor} (h : c.rest = []) :
    c.scan options = (.ok none, c) := by
  obtain ⟨rest, pos⟩ := c
  subst h
  exact scan_blanks options (List.forall_mem_nil _) pos

end Cursor

end Netlist
