import Netlist.Proofs.Reaches

/-! # What a scan depends on

A scan depends on the items that it takes and on the byte after them, which may have ended it. What
follows can be anything else, and even that byte does not matter much: where a slash ends a lexeme,
a space does as well (`Source.Alike`). Main statement: `scan_local`. -/

namespace Netlist

/-- What follows a scan can be exchanged: both sources start with the same item, or a space in the
one stands where a slash stands in the other. -/
inductive Source.Alike : Source → Source → Prop
  | nil : Alike [] []
  | cons (i : Item) (y x : Source) : Alike (i :: y) (i :: x)
  | slash (y x : Source) : Alike (.byte Ascii.slash :: y) (.byte Ascii.space :: x)

/-- The class of bytes does not tell a space from a slash that is outside of it. -/
def EndsAlike (p : UInt8 → Bool) : Prop := p Ascii.slash = false → p Ascii.space = false

theorem not_cons_suffix {s t : Source} (h : t <:+ s) (i : Item) : ¬ i :: s <:+ t := fun h' => by
  have := (h'.trans h).length_le
  rw [List.length_cons] at this
  omega

/-! ### Runs -/

namespace Source

variable {y x : Source}

theorem next_run {p : UInt8 → Bool} {s : Source} {b : UInt8} (h : (s.run p).next = some b) :
    p b = false ∧ ∃ more, (s.run p).rest = .byte b :: more := by
  induction s with
  | nil => simp [run] at h
  | cons i s ih =>
    cases i with
    | byte a =>
      by_cases ha : p a
      · simp only [run, ha, if_true] at h ⊢
        exact ih h
      · simp only [run, ha, Bool.false_eq_true, if_false, Option.some.injEq] at h ⊢
        subst h
        exact ⟨by simpa using ha, s, rfl⟩
    | pause => simp [run] at h
    | fault => simp [run] at h

/-- A run that ends before `y`, or at its first byte. -/
theorem run_parallel {p : UInt8 → Bool} (hyx : y.Alike x) {u : Source}
    (hs : y <:+ ((u ++ y).run p).rest)
    (hp : ((u ++ y).run p).rest = y → y.head? = some (.byte Ascii.slash) → EndsAlike p) :
    ∃ v, ((u ++ y).run p).rest = v ++ y ∧ ((u ++ x).run p).rest = v ++ x ∧
      ((u ++ x).run p).bytes = ((u ++ y).run p).bytes ∧
      (((u ++ x).run p).next = ((u ++ y).run p).next ∨
        ((u ++ y).run p).next = some Ascii.slash ∧
          ((u ++ x).run p).next = some Ascii.space) := by
  induction u with
  | nil =>
    rw [List.nil_append] at hs hp ⊢
    rw [List.nil_append]
    cases hyx with
    | nil => exact ⟨[], rfl, rfl, rfl, .inl rfl⟩
    | cons i y x =>
      cases i with
      | byte b =>
        by_cases hb : p b
        · simp only [run, hb, if_true] at hs
          exact absurd hs (not_cons_suffix (Cursor.past_reaches ⟨y, .start⟩ p).suffix _)
        · simp only [run, hb, Bool.false_eq_true, if_false]
          exact ⟨[], rfl, rfl, trivial, .inl trivial⟩
      | pause => exact absurd hs (not_cons_suffix (List.suffix_refl y) _)
      | fault => exact absurd hs (not_cons_suffix List.nil_suffix _)
    | slash y x =>
      by_cases hb : p Ascii.slash
      · simp only [run, hb, if_true] at hs
        exact absurd hs (not_cons_suffix (Cursor.past_reaches ⟨y, .start⟩ p).suffix _)
      · have hrun : (Source.run p (.byte Ascii.slash :: y)).rest = .byte Ascii.slash :: y := by
          simp [run, hb]
        have hspace := hp hrun rfl (by simpa using hb)
        simp only [run, hb, hspace, Bool.false_eq_true, if_false]
        exact ⟨[], rfl, rfl, trivial, .inr ⟨trivial, trivial⟩⟩
  | cons i u ih =>
    cases i with
    | byte b =>
      by_cases hb : p b
      · simp only [List.cons_append, run, hb, if_true] at hs hp ⊢
        obtain ⟨v, h1, h2, h3, h4⟩ := ih hs hp
        exact ⟨v, h1, h2, by rw [h3], h4⟩
      · simp only [List.cons_append, run, hb, Bool.false_eq_true, if_false]
        exact ⟨.byte b :: u, rfl, rfl, trivial, .inl trivial⟩
    | pause => exact ⟨u, rfl, rfl, rfl, .inl rfl⟩
    | fault =>
      -- a fault ends the source, so nothing comes after
      obtain rfl := List.suffix_nil.mp hs
      cases hyx
      exact ⟨[], rfl, rfl, rfl, .inl rfl⟩

end Source

namespace Cursor

/-- The cursors stand before the same items, after which there is `y` for the one and `x` for the
other. -/
def Parallel (y x : Source) (c d : Cursor) : Prop :=
  ∃ u pos, c = ⟨u ++ y, pos⟩ ∧ d = ⟨u ++ x, pos⟩

variable {y x : Source} {c d : Cursor}

theorem Parallel.pos_eq (h : Parallel y x c d) : d.pos = c.pos := by
  obtain ⟨u, pos, rfl, rfl⟩ := h
  rfl

/-! ### Looks -/

theorem skip_parallel (h : Parallel y x c d) (hyx : y.Alike x) (hs : y <:+ c.skip.rest) :
    Parallel y x c.skip d.skip := by
  obtain ⟨u, pos, rfl, rfl⟩ := h
  cases u with
  | nil =>
    cases hyx with
    | nil => exact ⟨[], pos, rfl, rfl⟩
    | cons i y x =>
      cases i with
      | byte b => exact absurd hs (not_cons_suffix (List.suffix_refl y) _)
      | pause => exact ⟨[], pos, rfl, rfl⟩
      | fault => exact ⟨[], pos, rfl, rfl⟩
    | slash y x => exact absurd hs (not_cons_suffix (List.suffix_refl y) _)
  | cons i u =>
    cases i with
    | byte b => exact ⟨u, _, rfl, rfl⟩
    | pause => exact ⟨.pause :: u, pos, rfl, rfl⟩
    | fault => exact ⟨.fault :: u, pos, rfl, rfl⟩

/-- A look finds the same byte, or a slash and a space. -/
theorem look_parallel (h : Parallel y x c d) (hyx : y.Alike x) (hs : y <:+ c.look.2.rest) :
    Parallel y x c.look.2 d.look.2 ∧ (d.look.1 = c.look.1 ∨
      c.rest = y ∧ c.look.1 = some Ascii.slash ∧ d.look.1 = some Ascii.space) := by
  obtain ⟨u, pos, rfl, rfl⟩ := h
  cases u with
  | nil =>
    cases hyx with
    | nil => exact ⟨⟨[], pos, rfl, rfl⟩, .inl rfl⟩
    | cons i y x =>
      cases i with
      | byte b => exact ⟨⟨[], pos, rfl, rfl⟩, .inl rfl⟩
      | pause => exact absurd hs (not_cons_suffix (List.suffix_refl y) _)
      | fault => exact absurd hs (not_cons_suffix List.nil_suffix _)
    | slash y x => exact ⟨⟨[], pos, rfl, rfl⟩, .inr ⟨rfl, rfl, rfl⟩⟩
  | cons i u =>
    cases i with
    | byte b => exact ⟨⟨.byte b :: u, pos, rfl, rfl⟩, .inl rfl⟩
    | pause => exact ⟨⟨u, pos, rfl, rfl⟩, .inl rfl⟩
    | fault =>
      obtain rfl := List.suffix_nil.mp hs
      cases hyx
      exact ⟨⟨[], pos, rfl, rfl⟩, .inl rfl⟩

theorem pop_parallel (h : Parallel y x c d) (hyx : y.Alike x) (hs : y <:+ c.pop.2.rest) :
    Parallel y x c.pop.2 d.pop.2 ∧ d.pop.1 = c.pop.1 := by
  obtain ⟨u, pos, rfl, rfl⟩ := h
  cases u with
  | nil =>
    cases hyx with
    | nil => exact ⟨⟨[], pos, rfl, rfl⟩, rfl⟩
    | cons i y x =>
      cases i with
      | byte b => exact absurd hs (not_cons_suffix (List.suffix_refl y) _)
      | pause => exact absurd hs (not_cons_suffix (List.suffix_refl y) _)
      | fault => exact absurd hs (not_cons_suffix List.nil_suffix _)
    | slash y x => exact absurd hs (not_cons_suffix (List.suffix_refl y) _)
  | cons i u =>
    cases i with
    | byte b => exact ⟨⟨u, _, rfl, rfl⟩, rfl⟩
    | pause => exact ⟨⟨u, pos, rfl, rfl⟩, rfl⟩
    | fault =>
      obtain rfl := List.suffix_nil.mp hs
      cases hyx
      exact ⟨⟨[], pos, rfl, rfl⟩, rfl⟩

theorem past_parallel {p : UInt8 → Bool} (h : Parallel y x c d) (hyx : y.Alike x)
    (hs : y <:+ (c.past (c.rest.run p)).rest)
    (hp : (c.past (c.rest.run p)).rest = y → y.head? = some (.byte Ascii.slash) → EndsAlike p) :
    Parallel y x (c.past (c.rest.run p)) (d.past (d.rest.run p)) ∧
      (d.rest.run p).bytes = (c.rest.run p).bytes ∧
      ((d.rest.run p).next = (c.rest.run p).next ∨ (c.rest.run p).next = some Ascii.slash ∧
        (d.rest.run p).next = some Ascii.space) := by
  obtain ⟨u, pos, rfl, rfl⟩ := h
  obtain ⟨v, h1, h2, h3, h4⟩ := Source.run_parallel hyx hs hp
  refine ⟨⟨v, pos.advanceBy ((u ++ y).run p).bytes, ?_, ?_⟩, h3, h4⟩
  · simp only [past, h1]
  · simp only [past, h2, h3]

theorem takeLine_parallel (h : Parallel y x c d) (hyx : y.Alike x)
    (hs : y <:+ c.takeLine.2.rest) :
    d.takeLine.1 = c.takeLine.1 ∧ Parallel y x c.takeLine.2 d.takeLine.2 := by
  have hpast : y <:+ (c.past (c.rest.run (· != Ascii.lineFeed))).rest := by
    refine hs.trans ?_
    unfold takeLine
    dsimp only
    split_ifs
    · exact (skip_reaches _).suffix
    · exact List.suffix_refl _
  obtain ⟨hp, hb, hn⟩ := past_parallel h hyx hpast fun _ _ h => absurd h (by decide)
  have hsome : (d.rest.run (· != Ascii.lineFeed)).next.isSome =
      (c.rest.run (· != Ascii.lineFeed)).next.isSome := by
    rcases hn with hn | ⟨hn, hn'⟩
    · rw [hn]
    · rw [hn, hn']; rfl
  unfold takeLine at hs ⊢
  dsimp only at hs ⊢
  rw [hsome, hb]
  refine ⟨rfl, ?_⟩
  split_ifs at hs ⊢
  · exact skip_parallel hp hyx hs
  · exact hp

/-! ### Pieces -/

/-- The two readings give the same, and leave the same items before `y` and before `x`. -/
def Same {α : Type} (y x : Source) (r r' : Scanned α) : Prop :=
  r'.1 = r.1 ∧ Parallel y x r.2 r'.2

theorem Parallel.fail {α : Type} (h : Parallel y x c d) (start : Pos) (e : LexicalError) :
    Same y x (c.fail start e : Scanned α) (d.fail start e) :=
  ⟨by simp only [Cursor.fail, h.pos_eq], h⟩

theorem Parallel.accept (h : Parallel y x c d) (start : Pos) (t : Token) :
    Same y x (c.accept start t) (d.accept start t) :=
  ⟨by simp only [Cursor.accept, h.pos_eq], h⟩

theorem scanWord_parallel (h : Parallel y x c d) (hyx : y.Alike x)
    (hs : y <:+ c.scanWord.2.rest) : Same y x c.scanWord d.scanWord := by
  obtain ⟨hp, hb, -⟩ := past_parallel h hyx hs fun _ _ _ => by decide
  unfold scanWord
  dsimp only
  rw [hb, h.pos_eq]
  exact hp.accept _ _

theorem scanEscaped_parallel (h : Parallel y x c d) (hyx : y.Alike x)
    (hs : y <:+ c.scanEscaped.2.rest) : Same y x c.scanEscaped d.scanEscaped := by
  have hpast : y <:+ (c.skip.past (c.skip.rest.run fun b => !endsEscape b)).rest := by
    refine hs.trans ?_
    unfold scanEscaped
    dsimp only
    split
    · exact List.suffix_refl _
    · split <;> dsimp only <;> split_ifs
      all_goals first | exact (skip_reaches _).suffix | exact List.suffix_refl _
  have hskip := skip_parallel h hyx (hpast.trans (past_reaches _ _).suffix)
  obtain ⟨hp, hb, hn⟩ := past_parallel hskip hyx hpast fun _ _ h => absurd h (by decide)
  have hn := hn.resolve_right fun hn => absurd (Source.next_run hn.1).1 (by decide)
  unfold scanEscaped at hs ⊢
  dsimp only at hs ⊢
  rw [hn, hb, h.pos_eq, hp.pos_eq]
  cases hnext : (c.skip.rest.run fun b => !endsEscape b).next with
  | none => exact hp.fail _ _
  | some b =>
    rw [hnext] at hs
    dsimp only at hs ⊢
    have after : y <:+ (if (b == Ascii.comma) = true then c.skip.past _ else _).rest :=
      hs.trans (by split <;> exact List.suffix_refl _)
    split <;> refine ⟨rfl, ?_⟩ <;> dsimp only <;> split_ifs at after ⊢
    · exact hp
    · exact skip_parallel hp hyx after
    · exact hp
    · exact skip_parallel hp hyx after

theorem judgeConstant_parallel (h : Parallel y x c d) (start : Pos) (base : Nat)
    (digits : List UInt8) :
    Same y x (c.judgeConstant start base digits) (d.judgeConstant start base digits) := by
  unfold judgeConstant
  split
  · exact h.accept _ _
  · exact h.accept _ _
  · exact h.fail _ _

theorem scanSized_parallel (h : Parallel y x c d) (hyx : y.Alike x) {start : Pos} {width : String}
    (hs : y <:+ (c.scanSized start width).2.rest) :
    Same y x (c.scanSized start width) (d.scanSized start width) := by
  have hpop : y <:+ c.pop.2.rest := by
    refine hs.trans ?_
    unfold scanSized
    dsimp only
    split
    · exact List.suffix_refl _
    · split_ifs
      · exact List.suffix_refl _
      · rw [judgeConstant_snd]
        exact (past_reaches _ _).suffix
  obtain ⟨hp, hb⟩ := pop_parallel h hyx hpop
  unfold scanSized at hs ⊢
  dsimp only at hs ⊢
  rw [hb]
  cases hbase : c.pop.1.bind base? with
  | none => exact hp.fail _ _
  | some base =>
    rw [hbase] at hs
    dsimp only at hs ⊢
    split_ifs at hs ⊢
    · exact hp.fail _ _
    · rw [judgeConstant_snd] at hs
      obtain ⟨hp', hb', -⟩ := past_parallel hp hyx hs fun _ _ _ => by decide
      rw [hb']
      exact judgeConstant_parallel hp' _ _ _

theorem scanConstant_parallel (h : Parallel y x c d) (hyx : y.Alike x)
    (hs : y <:+ c.scanConstant.2.rest) : Same y x c.scanConstant d.scanConstant := by
  have hlook : y <:+ (c.past (c.rest.run Ascii.isDigit)).look.2.rest := by
    refine hs.trans ?_
    unfold scanConstant
    dsimp only
    split_ifs
    · exact (scanSized_reaches _ _ _).suffix.trans (skip_reaches _).suffix
    · simp only [judgeConstant_snd, List.suffix_refl]
  obtain ⟨hp, hb, -⟩ :=
    past_parallel h hyx (hlook.trans (look_reaches _).suffix) fun _ _ _ => by decide
  obtain ⟨hl, hn⟩ := look_parallel hp hyx hlook
  have hapostrophe : ((d.past (d.rest.run Ascii.isDigit)).look.1 == some Ascii.apostrophe) =
      ((c.past (c.rest.run Ascii.isDigit)).look.1 == some Ascii.apostrophe) := by
    rcases hn with hn | ⟨-, hn, hn'⟩
    · rw [hn]
    · rw [hn, hn']; decide
  unfold scanConstant at hs ⊢
  dsimp only at hs ⊢
  rw [hapostrophe, hb, h.pos_eq]
  split_ifs at hs ⊢
  · have hskip := skip_parallel hl hyx (hs.trans (scanSized_reaches _ _ _).suffix)
    exact scanSized_parallel hskip hyx hs
  · exact judgeConstant_parallel hl _ _ _

theorem rest_blockTail_byte_suffix (afterStar : Bool) (b : UInt8) (s : Source) :
    (blockTail afterStar (.byte b :: s)).rest <:+ s := by
  unfold blockTail
  dsimp only
  split_ifs
  · exact List.suffix_refl _
  · exact (blockTail_reaches _ _ .start).suffix

theorem blockTail_parallel {y x : Source} (hyx : y.Alike x) (afterStar : Bool) (u : Source)
    (hs : y <:+ (blockTail afterStar (u ++ y)).rest) :
    ∃ v, (blockTail afterStar (u ++ y)).rest = v ++ y ∧
      blockTail afterStar (u ++ x) = { blockTail afterStar (u ++ y) with rest := v ++ x } := by
  induction u generalizing afterStar with
  | nil =>
    cases hyx with
    | nil => exact ⟨[], rfl, rfl⟩
    | cons i y x =>
      cases i with
      | byte b => exact absurd hs (not_cons_suffix (rest_blockTail_byte_suffix _ _ _) _)
      | pause => exact absurd hs (not_cons_suffix (List.suffix_refl y) _)
      | fault => exact absurd hs (not_cons_suffix List.nil_suffix _)
    | slash y x => exact absurd hs (not_cons_suffix (rest_blockTail_byte_suffix _ _ _) _)
  | cons i u ih =>
    cases i with
    | byte b =>
      simp only [List.cons_append, blockTail] at hs ⊢
      split_ifs at hs ⊢
      · exact ⟨u, rfl, rfl⟩
      · obtain ⟨v, h1, h2⟩ := ih _ hs
        exact ⟨v, h1, by rw [h2]⟩
    | pause => exact ⟨u, rfl, rfl⟩
    | fault =>
      obtain rfl := List.suffix_nil.mp hs
      cases hyx
      exact ⟨[], rfl, rfl⟩

theorem block_parallel (h : Parallel y x c d) (hyx : y.Alike x)
    (hs : y <:+ (blockTail false c.rest).rest) :
    (blockTail false d.rest).closed = (blockTail false c.rest).closed ∧
      Parallel y x
        ⟨(blockTail false c.rest).rest, c.pos.advanceBy (blockTail false c.rest).bytes⟩
        ⟨(blockTail false d.rest).rest, d.pos.advanceBy (blockTail false d.rest).bytes⟩ := by
  obtain ⟨u, pos, rfl, rfl⟩ := h
  obtain ⟨v, h1, h2⟩ := blockTail_parallel hyx false u hs
  refine ⟨by rw [h2], v, pos.advanceBy (blockTail false (u ++ y)).bytes, ?_, ?_⟩
  · rw [h1]
  · rw [h2]

/-- A slash where `y` starts is taken with the comment that it opens. -/
theorem not_suffix_scanSlash {options : ScanOptions} {more : Source}
    (h : c.rest = .byte Ascii.slash :: more) :
    ¬ c.rest <:+ (c.scanSlash options).2.rest := fun hs => by
  have hrest := (c.scanSlash_reaches_skip options).suffix
  rw [h] at hs
  rw [skip, h] at hrest
  exact not_cons_suffix hrest _ hs

theorem scanSlash_parallel (options : ScanOptions) (h : Parallel y x c d) (hyx : y.Alike x)
    (hs : y <:+ (c.scanSlash options).2.rest) :
    Same y x (c.scanSlash options) (d.scanSlash options) := by
  have hlook : y <:+ c.skip.look.2.rest := by
    refine hs.trans ?_
    unfold scanSlash
    dsimp only
    split_ifs
    · exact (takeLine_reaches _).suffix.trans (skip_reaches _).suffix
    · exact (blockTail_reaches _ _ .start).suffix.trans (skip_reaches _).suffix
    · exact (blockTail_reaches _ _ .start).suffix.trans (skip_reaches _).suffix
    · exact List.suffix_refl _
    · exact List.suffix_refl _
  have hskip := skip_parallel h hyx (hlook.trans (look_reaches _).suffix)
  obtain ⟨hl, hn⟩ := look_parallel hskip hyx hlook
  -- a slash after the first one would be taken with the comment that it opens
  have hn := hn.resolve_right fun hn => by
    obtain ⟨hy, hslash, -⟩ := hn
    obtain ⟨he, more, hm⟩ := eq_of_look (Prod.ext hslash rfl)
    have hskip : c.skip.look.2.skip.rest = more := by
      rw [show c.skip.look.2 = c.skip from he, skip, hm]
    have hline : (c.scanSlash options).2.rest = c.skip.look.2.skip.takeLine.2.rest := by
      simp only [scanSlash, hslash, beq_self_eq_true, if_true, Cursor.accept]
    rw [hline, ← hy, hm] at hs
    exact not_cons_suffix (hskip ▸ (takeLine_reaches _).suffix) _ hs
  unfold scanSlash at hs ⊢
  dsimp only at hs ⊢
  rw [hn, h.pos_eq]
  by_cases hslash : (c.skip.look.1 == some Ascii.slash) = true
  · rw [if_pos hslash] at hs
    rw [if_pos hslash, if_pos hslash]
    obtain ⟨hb, hline⟩ := takeLine_parallel
      (skip_parallel hl hyx (hs.trans (takeLine_reaches _).suffix)) hyx hs
    rw [hb]
    exact hline.accept _ _
  · rw [if_neg hslash] at hs
    rw [if_neg hslash, if_neg hslash]
    by_cases hstar : (c.skip.look.1 == some Ascii.star) = true
    · rw [if_pos hstar] at hs
      rw [if_pos hstar, if_pos hstar]
      by_cases hskips : options.skipBlockComments = true
      · rw [if_pos hskips] at hs
        rw [if_pos hskips, if_pos hskips]
        have hs : y <:+ (blockTail false c.skip.look.2.skip.rest).rest :=
          hs.trans (by split_ifs <;> exact List.suffix_refl _)
        obtain ⟨hclosed, hblock⟩ := block_parallel
          (skip_parallel hl hyx (hs.trans (blockTail_reaches _ _ .start).suffix)) hyx hs
        rw [hclosed]
        split_ifs
        · exact ⟨rfl, hblock⟩
        · exact hblock.fail _ _
      · rw [if_neg hskips, if_neg hskips]
        exact hl.fail _ _
    · rw [if_neg hstar, if_neg hstar]
      exact hl.fail _ _

theorem scanDirective_parallel (options : ScanOptions) (h : Parallel y x c d) (hyx : y.Alike x)
    (hs : y <:+ (c.scanDirective options).2.rest) :
    Same y x (c.scanDirective options) (d.scanDirective options) := by
  unfold scanDirective at hs ⊢
  split_ifs at hs ⊢
  · dsimp only at hs ⊢
    have hpast : y <:+ (c.skip.past (c.skip.rest.run Ascii.isNameStart)).rest := by
      refine hs.trans ?_
      split_ifs
      · exact (takeLine_reaches _).suffix
      · exact List.suffix_refl _
    have hskip := skip_parallel h hyx (hpast.trans (past_reaches _ _).suffix)
    obtain ⟨hp, hb, -⟩ := past_parallel hskip hyx hpast fun _ _ _ => by decide
    rw [hb, h.pos_eq]
    split_ifs at hs ⊢
    · exact ⟨rfl, (takeLine_parallel hp hyx hs).2⟩
    · exact hp.fail _ _
  · rw [h.pos_eq]
    exact h.fail _ _

theorem scanFrom_parallel (options : ScanOptions) (b : UInt8) (h : Parallel y x c d)
    (hyx : y.Alike x) (hs : y <:+ (c.scanFrom options b).2.rest) :
    Same y x (c.scanFrom options b) (d.scanFrom options b) := by
  unfold scanFrom at hs ⊢
  split_ifs at hs ⊢
  · exact scanDirective_parallel options h hyx hs
  · exact scanSlash_parallel options h hyx hs
  · exact scanEscaped_parallel h hyx hs
  · exact scanWord_parallel h hyx hs
  · exact scanConstant_parallel h hyx hs
  · cases hp : Punct.ofByte? b with
    | none =>
      rw [h.pos_eq]
      exact h.fail _ _
    | some p =>
      rw [hp] at hs
      rw [h.pos_eq]
      exact (skip_parallel h hyx hs).accept _ _

theorem skipBlanks_parallel (h : Parallel y x c d) (hyx : y.Alike x)
    (hs : y <:+ c.skipBlanks.rest)
    (hslash : c.skipBlanks.rest = y → y.head? ≠ some (.byte Ascii.slash)) :
    Parallel y x c.skipBlanks d.skipBlanks :=
  (past_parallel h hyx hs fun hy hh => absurd hh (hslash hy)).1

theorem piece_parallel (options : ScanOptions) (h : Parallel y x c d) (hyx : y.Alike x)
    (hs : y <:+ (c.piece options).2.rest) :
    Same y x (c.piece options) (d.piece options) := by
  have hlook : y <:+ c.skipBlanks.look.2.rest := by
    refine hs.trans ?_
    unfold piece
    split
    · rename_i e he
      simp only [he, List.suffix_refl]
    · rename_i b e he
      simp only [he]
      exact (scanFrom_reaches options b e).suffix
  -- a slash after the blanks would be taken
  have hslash : c.skipBlanks.rest = y → y.head? ≠ some (.byte Ascii.slash) := fun hy hh => by
    obtain ⟨more, hm⟩ := List.head?_eq_some_iff.mp hh
    have hb : c.skipBlanks.look = (some Ascii.slash, c.skipBlanks) := by simp [look, hy, hm]
    simp only [piece, hb, scanFrom_slash] at hs
    exact not_suffix_scanSlash (hy.trans hm) (hy ▸ hs)
  have hp := skipBlanks_parallel h hyx (hlook.trans (look_reaches _).suffix) hslash
  obtain ⟨hl, hn⟩ := look_parallel hp hyx hlook
  have hn := hn.resolve_right fun hn => by
    obtain ⟨hy, hb, -⟩ := hn
    obtain ⟨-, more, hm⟩ := eq_of_look (Prod.ext hb rfl)
    exact hslash hy (by rw [← hy, hm]; rfl)
  unfold piece at hs ⊢
  generalize c.skipBlanks.look = r at hs hl hn ⊢
  generalize d.skipBlanks.look = r' at hl hn ⊢
  obtain ⟨b?, e⟩ := r
  obtain ⟨b?', e'⟩ := r'
  obtain rfl : b?' = b? := hn
  cases b?' with
  | none => exact ⟨rfl, hl⟩
  | some b => exact scanFrom_parallel options b hl hyx hs

theorem Same.eq {α : Type} {r r' : Scanned α} (h : Same y x r r') :
    r' = (r.1, r'.2) := Prod.ext h.1 rfl

theorem scan_parallel (options : ScanOptions) (h : Parallel y x c d) (hyx : y.Alike x)
    (hs : y <:+ (c.scan options).2.rest) :
    Same y x (c.scan options) (d.scan options) := by
  fun_induction scan options c generalizing d with
  | case1 c l e he =>
    have hp := piece_parallel options h hyx (by rw [he]; exact hs)
    rw [he] at hp
    rw [scan_eq, hp.eq]
    exact ⟨rfl, hp.2⟩
  | case2 c e he ih =>
    have hp := piece_parallel options h hyx (by rw [he]; exact hs.trans (scan_reaches _ _).suffix)
    rw [he] at hp
    rw [scan_eq options d, hp.eq]
    exact ih hp.2 hs
  | case3 c e he =>
    have hp := piece_parallel options h hyx (by rw [he]; exact hs)
    rw [he] at hp
    rw [scan_eq, hp.eq]
    exact ⟨rfl, hp.2⟩
  | case4 c err e he =>
    have hp := piece_parallel options h hyx (by rw [he]; exact hs)
    rw [he] at hp
    rw [scan_eq, hp.eq]
    exact ⟨rfl, hp.2⟩

/-- **A scan depends on what it takes and on the item after it only.** -/
theorem scan_local {options : ScanOptions} {u : Source} {pos pos' : Pos}
    {r : Except ReadError (Option Lexeme)}
    (h : scan options ⟨u ++ y, pos⟩ = (r, ⟨y, pos'⟩)) (hyx : y.Alike x) :
    scan options ⟨u ++ x, pos⟩ = (r, ⟨x, pos'⟩) := by
  have hs : Same y x (scan options ⟨u ++ y, pos⟩) (scan options ⟨u ++ x, pos⟩) :=
    scan_parallel options ⟨u, pos, rfl, rfl⟩ hyx (h ▸ List.suffix_refl y)
  rw [h] at hs
  obtain ⟨hr, v, pos'', hy, hx⟩ := hs
  obtain ⟨rfl, rfl⟩ : v = [] ∧ pos'' = pos' := by simpa [eq_comm] using hy
  exact Prod.ext hr hx

end Cursor

end Netlist
