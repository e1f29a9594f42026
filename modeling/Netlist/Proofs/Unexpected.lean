import Netlist.Proofs.Calls
import Netlist.Proofs.Refusal

/-! # Unexpected bytes

A byte that starts no piece of text is refused where it stands, and nothing is taken
(`scanFrom_of_not_startsPiece`). Any other error comes behind the first byte of a piece, and its
stretch starts at that byte (`failsBehind_scanFrom`).

An error comes at the first byte that is not skipped (`scan_eq_error_iff`), and this is a blank only
where a pause ended the blanks before it (`pausesBefore_iff`). Main statement:
`unexpectedByte_of_answer`. -/

namespace Netlist

namespace Source

/-- A run is followed by a byte of its class only behind a pause that ended it. -/
theorem eq_append_pause_of_run {p : UInt8 → Bool} {s : Source} {b : UInt8} {more : Source}
    (h : (s.run p).rest = .byte b :: more) (hb : p b = true) :
    s = ofBytes (s.run p).bytes ++ .pause :: .byte b :: more := by
  induction s with
  | nil => cases h
  | cons i s ih =>
    cases i with
    | byte a =>
      by_cases ha : p a
      · simp only [run, ha, if_true] at h ⊢
        exact congrArg (_ :: ·) (ih h)
      · simp only [run, ha, Bool.false_eq_true, if_false] at h
        obtain ⟨⟨⟩, -⟩ := List.cons.inj h
        exact absurd hb ha
    | pause => exact congrArg (_ :: ·) h
    | fault => cases h

end Source

/-- The byte starts a piece of text under the options. -/
def startsPiece (options : ScanOptions) (b : UInt8) : Bool :=
  b == Ascii.backtick && options.skipTimescale || b == Ascii.slash || b == Ascii.backslash ||
    Ascii.isNameStart b || Ascii.isDigit b || (Punct.ofByte? b).isSome

theorem startsPiece_backtick (options : ScanOptions) :
    startsPiece options Ascii.backtick = options.skipTimescale := by
  obtain ⟨_ | _, _⟩ := options <;> rfl

theorem startsPiece_of_isBlank (options : ScanOptions) {b : UInt8} (h : Ascii.isBlank b = true) :
    startsPiece options b = false := by
  simp only [Ascii.isBlank, Bool.or_eq_true, beq_iff_eq, or_assoc] at h
  rcases h with rfl | rfl | rfl | rfl | rfl <;> rfl

namespace Cursor

variable {options : ScanOptions} {b : UInt8} {c d : Cursor} {e : ReadError} {start : Pos}
  {more : Source} {α : Type}

/-! ### Where a piece would start -/

theorem scanFrom_of_not_startsPiece (h : startsPiece options b = false) (c : Cursor) :
    c.scanFrom options b = c.fail c.pos (.unexpectedByte b) := by
  simp only [startsPiece, Bool.or_eq_false_iff, Bool.and_eq_false_iff, Option.isSome_eq_false_iff,
    Option.isNone_iff_eq_none] at h
  obtain ⟨⟨⟨⟨⟨htick, hslash⟩, hescape⟩, hname⟩, hdigit⟩, hpunct⟩ := h
  by_cases hb : (b == Ascii.backtick) = true
  · obtain rfl := beq_iff_eq.mp hb
    rw [scanFrom, if_pos hb, scanDirective, if_neg (by simpa using htick)]
  · simp only [scanFrom, hb, hslash, hescape, hname, hdigit, hpunct, Bool.false_eq_true, if_false]

/-- Errors come behind the first byte of a piece that starts at `start`: that byte was taken, and
it belongs to the stretch of the error. -/
def FailsBehind (start : Pos) (c : Cursor) (r : Scanned α) : Prop :=
  ∀ e, r.1 = .error e → (∀ b, e.cause ≠ .lexical (.unexpectedByte b)) ∧
    e.span.start = start ∧ c.pos ≤ e.span.limit ∧ c.Reaches r.2

theorem failsBehind_ok (start : Pos) (c : Cursor) (x : α) (d : Cursor) :
    FailsBehind start c ((.ok x, d) : Scanned α) := by
  rintro _ ⟨⟩

theorem failsBehind_fail (h : c.Reaches d) {e : LexicalError} (he : ∀ b, e ≠ .unexpectedByte b) :
    FailsBehind start c (d.fail start e : Scanned α) := by
  rintro _ ⟨⟩
  exact ⟨fun b hb => he b (by injection hb), rfl, h.pos_le, h⟩

theorem failsBehind_judgeConstant (h : c.Reaches d) (base : Nat) (digits : List UInt8) :
    FailsBehind start c (d.judgeConstant start base digits) := by
  unfold judgeConstant
  split
  · exact failsBehind_ok _ _ _ _
  · exact failsBehind_ok _ _ _ _
  · exact failsBehind_fail h nofun

theorem failsBehind_scanSized (h : c.Reaches d) (width : String) :
    FailsBehind start c (d.scanSized start width) := by
  have hpop := h.trans d.pop_reaches
  unfold scanSized
  dsimp only
  split
  · exact failsBehind_fail hpop nofun
  · split_ifs
    · exact failsBehind_fail hpop nofun
    · exact failsBehind_judgeConstant (hpop.trans (past_reaches _ _)) _ _

theorem skip_reaches_past {p : UInt8 → Bool} (h : c.rest = .byte b :: more) (hb : p b = true) :
    c.skip.Reaches (c.past (c.rest.run p)) := by
  obtain ⟨_, pos⟩ := c
  subst h
  have hrun := past_reaches ⟨more, pos.advance b⟩ p
  simpa only [skip, past, Source.run, hb, if_true, Pos.advanceBy_cons] using hrun

theorem failsBehind_scanConstant (h : c.rest = .byte b :: more) (hb : Ascii.isDigit b = true) :
    FailsBehind c.pos c.skip c.scanConstant := by
  have hlook := (skip_reaches_past h hb).trans (look_reaches _)
  unfold scanConstant
  dsimp only
  split_ifs
  · exact failsBehind_scanSized (hlook.trans (skip_reaches _)) _
  · exact failsBehind_judgeConstant hlook _ _

theorem failsBehind_scanEscaped (c : Cursor) : FailsBehind c.pos c.skip c.scanEscaped := by
  have h := c.skip.past_reaches fun b => !endsEscape b
  unfold scanEscaped
  dsimp only
  split
  · exact failsBehind_fail h nofun
  · split
    · exact failsBehind_ok _ _ _ _
    · rename_i hname
      rintro _ ⟨⟩
      refine ⟨fun b hb => ?_, rfl, h.pos_le, ?_⟩
      · obtain rfl : _ = LexicalError.unexpectedByte b := by injection hb
        unfold escapedName at hname
        split at hname
        · cases hname
        · split at hname <;> cases hname
      · dsimp only
        split_ifs
        · exact h
        · exact h.trans (skip_reaches _)

theorem failsBehind_scanSlash (options : ScanOptions) (c : Cursor) :
    FailsBehind c.pos c.skip (c.scanSlash options) := by
  have h := look_reaches c.skip
  unfold scanSlash
  dsimp only
  split_ifs
  · exact failsBehind_ok _ _ _ _
  · exact failsBehind_ok _ _ _ _
  · exact failsBehind_fail ((h.trans (skip_reaches _)).trans (blockTail_reaches _ _ _)) nofun
  · exact failsBehind_fail h nofun
  · exact failsBehind_fail h nofun

theorem failsBehind_scanDirective (h : options.skipTimescale = true) (c : Cursor) :
    FailsBehind c.pos c.skip (c.scanDirective options) := by
  rw [scanDirective, if_pos h]
  dsimp only
  split_ifs
  · exact failsBehind_ok _ _ _ _
  · exact failsBehind_fail (past_reaches _ _) nofun

/-- **Errors of a piece that starts** come behind its first byte. -/
theorem failsBehind_scanFrom (h : c.rest = .byte b :: more) (hb : startsPiece options b = true) :
    FailsBehind c.pos c.skip (c.scanFrom options b) := by
  unfold scanFrom
  split_ifs with htick hslash hescape hname hdigit
  · obtain rfl := beq_iff_eq.mp htick
    exact failsBehind_scanDirective (startsPiece_backtick options ▸ hb) c
  · exact failsBehind_scanSlash options c
  · exact failsBehind_scanEscaped c
  · exact failsBehind_ok _ _ _ _
  · exact failsBehind_scanConstant h hdigit
  · cases hp : Punct.ofByte? b with
    | some p => exact failsBehind_ok _ _ _ _
    | none => simp [startsPiece, htick, hslash, hescape, hname, hdigit, hp] at hb

theorem scanFrom_eq_unexpectedByte {a : UInt8} (h : c.rest = .byte b :: more)
    (he : c.scanFrom options b = (.error e, d)) (hcause : e.cause = .lexical (.unexpectedByte a)) :
    a = b ∧ startsPiece options b = false ∧ e.span = .empty c.pos ∧ d = c := by
  cases hb : startsPiece options b with
  | true => exact absurd hcause ((failsBehind_scanFrom h hb e (congrArg Prod.fst he)).1 a)
  | false =>
    rw [scanFrom_of_not_startsPiece hb] at he
    cases he
    injection hcause with hcause
    injection hcause with hcause
    exact ⟨hcause.symm, rfl, rfl, rfl⟩

/-! ### What an error comes behind -/

theorem Skips.reaches (h : Skips options c d) : c.Reaches d := by
  induction h with
  | blanks c => exact c.skipBlanks_reaches
  | noise hp _ ih => exact (reaches_of_piece hp).trans ih

/-- An error comes at the first byte that is not skipped. -/
theorem scan_eq_error_iff : c.scan options = (.error e, d) ↔
    ∃ c' b more, Skips options c c' ∧ c'.rest = .byte b :: more ∧
      c'.scanFrom options b = (.error e, d) := by
  constructor
  · intro h
    fun_induction scan options c with
    | case1 => cases h
    | case2 c d' hp ih =>
      obtain ⟨c', b, more, hskips, hrest, hfrom⟩ := ih h
      exact ⟨c', b, more, .noise hp hskips, hrest, hfrom⟩
    | case3 => cases h
    | case4 c e' d' hp =>
      cases h
      unfold piece at hp
      split at hp
      · cases hp
      · rename_i b c' hlook
        obtain ⟨rfl, more, hrest⟩ := eq_of_look hlook
        exact ⟨_, b, more, .blanks c, hrest, hp⟩
  · rintro ⟨c', b, more, hskips, hrest, hfrom⟩
    induction hskips with
    | blanks c =>
      have hlook : c.skipBlanks.look = (some b, c.skipBlanks) := by rw [look, hrest]
      rw [scan_eq, piece, hlook]
      dsimp only
      rw [hfrom]
    | noise hp _ ih =>
      rw [scan_eq, hp]
      exact ih hrest hfrom

/-- Behind noise, a pause ends the blanks that are skipped, and the blank `b` comes next. -/
inductive PausesBefore (options : ScanOptions) (b : UInt8) : Cursor → Prop
  | pause {blanks : List UInt8} (more : Source) (pos : Pos) :
      (∀ x ∈ blanks, Ascii.isBlank x = true) →
        PausesBefore options b ⟨.ofBytes blanks ++ .pause :: .byte b :: more, pos⟩
  | noise {c d : Cursor} :
      c.piece options = (.ok .noise, d) → PausesBefore options b d → PausesBefore options b c

/-- A blank is left by what is skipped only behind a pause. -/
theorem pausesBefore_iff (hb : Ascii.isBlank b = true) : PausesBefore options b c ↔
    ∃ d more, Skips options c d ∧ d.rest = .byte b :: more := by
  constructor
  · intro h
    induction h with
    | @pause blanks more pos hblanks =>
      refine ⟨_, more, .blanks _, ?_⟩
      rw [skipBlanks, past, Source.run_ofBytes_append hblanks]
      rfl
    | noise hp _ ih =>
      obtain ⟨d, more, hskips, hrest⟩ := ih
      exact ⟨d, more, .noise hp hskips, hrest⟩
  · rintro ⟨d, more, hskips, hrest⟩
    induction hskips with
    | blanks c =>
      obtain ⟨rest, pos⟩ := c
      have hrun := Source.eq_append_pause_of_run hrest hb
      dsimp only at hrun
      rw [hrun]
      exact .pause more pos fun x hx => Source.mem_run hx
    | noise hp _ ih => exact .noise hp (ih hrest)

theorem Skips.exists_pause (h : Skips options c d) (hd : d.rest = .byte b :: more)
    (hb : Ascii.isBlank b = true) : ∃ before, c.rest = before ++ .pause :: d.rest := by
  induction h with
  | blanks c =>
    rw [hd]
    exact ⟨_, Source.eq_append_pause_of_run hd hb⟩
  | noise hp _ ih =>
    obtain ⟨before, hbefore⟩ := ih hd
    obtain ⟨taken, htaken⟩ := (reaches_of_piece hp).suffix
    exact ⟨taken ++ before, by rw [List.append_assoc, ← hbefore, htaken]⟩

end Cursor

/-! ### What calls give -/

namespace LexemeStream

open Cursor

variable {s : LexemeStream} {call : Call} {b : UInt8} {span : Span}

theorem exists_skips_of_unexpectedByte
    (h : (s.answer call).1 = .error ⟨.lexical (.unexpectedByte b), span⟩) :
    s.Fetches call ∧ startsPiece s.options b = false ∧ span = .empty (s.answer call).2.pos ∧
      Skips s.options s.cursor (s.answer call).2.cursor ∧
        ∃ more, (s.answer call).2.cursor.rest = .byte b :: more := by
  by_cases hf : s.Fetches call
  · obtain ⟨hresult, hcursor⟩ := answer_of_fetches hf
    rw [hresult] at h
    obtain ⟨c, a, more, hskips, hrest, hfrom⟩ := scan_eq_error_iff.mp (Prod.ext h rfl)
    obtain ⟨rfl, hb, hspan, hd⟩ := scanFrom_eq_unexpectedByte hrest hfrom rfl
    rw [pos, hcursor.trans hd]
    exact ⟨hf, hb, hspan, hskips, more, hrest⟩
  · obtain ⟨l, -, hl, -⟩ := answer_of_not_fetches hf
    cases hl.symm.trans h

theorem exists_unexpectedByte_iff (hb : Ascii.isBlank b = true) :
    (∃ span, (s.answer call).1 = .error ⟨.lexical (.unexpectedByte b), span⟩) ↔
      s.Fetches call ∧ PausesBefore s.options b s.cursor := by
  rw [pausesBefore_iff hb]
  constructor
  · rintro ⟨span, h⟩
    obtain ⟨hf, -, -, hskips, more, hrest⟩ := exists_skips_of_unexpectedByte h
    exact ⟨hf, _, more, hskips, hrest⟩
  · rintro ⟨hf, c, more, hskips, hrest⟩
    have hfrom := scanFrom_of_not_startsPiece (startsPiece_of_isBlank s.options hb) c
    rw [(answer_of_fetches hf).1, scan_eq_error_iff.mpr ⟨c, b, more, hskips, hrest, hfrom⟩]
    exact ⟨_, rfl⟩

/-- **A byte is found unexpected only if it starts nothing**, whatever calls were made before and
wherever the source pauses or fails. It is left where it stands. A blank is found unexpected exactly
by a call that scans and comes to it behind a pause among the blanks. -/
theorem unexpectedByte_of_answer (options : ScanOptions) (source : Source) (calls : List Call)
    (call : Call) : let s := (ofSource options source).after calls
    let t := (s.answer call).2
    (∀ b span, (s.answer call).1 = .error ⟨.lexical (.unexpectedByte b), span⟩ →
      startsPiece options b = false ∧ span = .empty t.pos ∧
        (∃ more, t.cursor.rest = .byte b :: more) ∧
        (Ascii.isBlank b = true → ∃ before, source = before ++ .pause :: t.cursor.rest)) ∧
      ∀ b, Ascii.isBlank b = true →
        ((∃ span, (s.answer call).1 = .error ⟨.lexical (.unexpectedByte b), span⟩) ↔
          s.Fetches call ∧ PausesBefore options b s.cursor) := by
  intro s t
  have hoptions : s.options = options := options_after _ _
  refine ⟨fun b span h => ?_, fun b hb => hoptions ▸ exists_unexpectedByte_iff hb⟩
  obtain ⟨-, hstarts, hspan, hskips, more, hrest⟩ := exists_skips_of_unexpectedByte h
  refine ⟨hoptions ▸ hstarts, hspan, ⟨more, hrest⟩, fun hb => ?_⟩
  obtain ⟨before, hbefore⟩ := hskips.exists_pause hrest hb
  obtain ⟨taken, htaken⟩ := (after_reaches (ofSource options source) calls).suffix
  exact ⟨taken ++ before, by rw [List.append_assoc, ← hbefore]; exact htaken.symm⟩

/-- The look that skips a blank meets a pause, and the line feed behind it is refused. -/
theorem unexpectedByte_of_pause : ¬ ∀ (options : ScanOptions) (source : Source)
    (calls : List Call) (call : Call) (b : UInt8) (span : Span),
    (((ofSource options source).after calls).answer call).1 =
      .error ⟨.lexical (.unexpectedByte b), span⟩ →
    Ascii.isBlank b = false ∧ startsPiece options b = false := by
  intro h
  have hscan : (((ofSource .strict (Source.ofBytes [0x61, Ascii.space] ++
      .pause :: Source.ofBytes [Ascii.lineFeed, 0x62])).after [.next]).answer .next).1 =
      .error ⟨.lexical (.unexpectedByte Ascii.lineFeed), .empty ⟨1, 3⟩⟩ := by decide +kernel
  cases (h _ _ _ _ _ _ hscan).1

end LexemeStream

end Netlist
