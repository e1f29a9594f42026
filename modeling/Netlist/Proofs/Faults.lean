import Netlist.Proofs.Turns

/-! # Sources that fail

A fault ends a source for good, so what stands behind it is never looked at: every operation does
the same on the source up to its first fault (`Cursor.scan_cut`, `Session.run_cut`). Main statement:
no sequence of calls tells a source that fails from one that ends there
(`Session.trace_fault`). -/

namespace Netlist

namespace Source

/-- The items before the first fault. -/
def upToFault (s : Source) : Source := s.takeWhile (· ≠ .fault)

@[simp] theorem upToFault_nil : upToFault [] = [] := rfl

@[simp] theorem upToFault_byte (b : UInt8) (s : Source) :
    upToFault (.byte b :: s) = .byte b :: upToFault s := rfl

@[simp] theorem upToFault_pause (s : Source) :
    upToFault (.pause :: s) = .pause :: upToFault s := rfl

@[simp] theorem upToFault_fault (s : Source) : upToFault (.fault :: s) = [] := rfl

theorem upToFault_append_fault (s t : Source) :
    upToFault (s ++ .fault :: t) = upToFault s := by
  induction s with
  | nil => rfl
  | cons i s ih => cases i <;> simp [ih]

theorem run_upToFault (p : UInt8 → Bool) (s : Source) :
    s.upToFault.run p = { s.run p with rest := (s.run p).rest.upToFault } := by
  induction s with
  | nil => rfl
  | cons i s ih =>
    cases i with
    | byte b =>
      rw [upToFault_byte, run, run]
      split_ifs
      · rw [ih]
      · rfl
    | pause => rfl
    | fault => rfl

end Source

namespace Cursor

/-- The cursor on the source up to its first fault. -/
def cut (c : Cursor) : Cursor := { c with rest := c.rest.upToFault }

/-- The same result, and the cut cursor. -/
def cutAfter {α : Type} (r : α × Cursor) : α × Cursor := (r.1, r.2.cut)

variable {options : ScanOptions}

/-! ### Operations on a cut cursor -/

@[simp] theorem cut_pos (c : Cursor) : c.cut.pos = c.pos := rfl

theorem look_cut (c : Cursor) : c.cut.look = cutAfter c.look := by
  obtain ⟨_ | ⟨_ | _ | _, rest⟩, pos⟩ := c <;> rfl

theorem skip_cut (c : Cursor) : c.cut.skip = c.skip.cut := by
  obtain ⟨_ | ⟨_ | _ | _, rest⟩, pos⟩ := c <;> rfl

theorem pop_cut (c : Cursor) : c.cut.pop = cutAfter c.pop := by
  obtain ⟨_ | ⟨_ | _ | _, rest⟩, pos⟩ := c <;> rfl

theorem run_cut (c : Cursor) (p : UInt8 → Bool) :
    c.cut.rest.run p = { c.rest.run p with rest := (c.rest.run p).rest.upToFault } :=
  c.rest.run_upToFault p

theorem past_cut (c : Cursor) (p : UInt8 → Bool) :
    c.cut.past (c.cut.rest.run p) = (c.past (c.rest.run p)).cut := by
  rw [run_cut]
  rfl

theorem skipBlanks_cut (c : Cursor) : c.cut.skipBlanks = c.skipBlanks.cut := past_cut c _

theorem takeLine_cut (c : Cursor) : c.cut.takeLine = cutAfter c.takeLine := by
  simp only [takeLine, past_cut, skip_cut, cutAfter]
  rw [run_cut]
  split_ifs <;> rfl

theorem blockTail_upToFault (afterStar : Bool) (s : Source) :
    blockTail afterStar s.upToFault =
      { blockTail afterStar s with rest := (blockTail afterStar s).rest.upToFault } := by
  induction s generalizing afterStar with
  | nil => rfl
  | cons i s ih =>
    cases i with
    | byte b =>
      rw [Source.upToFault_byte, blockTail, blockTail]
      split_ifs
      · rfl
      · rw [ih]
    | pause => rfl
    | fault => rfl

theorem judgeConstant_cut (c : Cursor) (start : Pos) (base : Nat) (digits : List UInt8) :
    c.cut.judgeConstant start base digits = cutAfter (c.judgeConstant start base digits) := by
  unfold judgeConstant
  split <;> rfl

theorem scanSized_cut (c : Cursor) (start : Pos) (width : String) :
    c.cut.scanSized start width = cutAfter (c.scanSized start width) := by
  unfold scanSized
  rw [pop_cut]
  simp only [cutAfter]
  split
  · rfl
  · split_ifs
    · rfl
    · rw [past_cut, run_cut]
      exact judgeConstant_cut _ _ _ _

theorem scanConstant_cut (c : Cursor) : c.cut.scanConstant = cutAfter c.scanConstant := by
  simp only [scanConstant, past_cut, look_cut, skip_cut, cut_pos, cutAfter]
  rw [run_cut]
  split_ifs
  · exact scanSized_cut _ _ _
  · exact judgeConstant_cut _ _ _ _

theorem scanWord_cut (c : Cursor) : c.cut.scanWord = cutAfter c.scanWord := by
  simp only [scanWord, past_cut, cut_pos]
  rw [run_cut]
  rfl

theorem scanEscaped_cut (c : Cursor) : c.cut.scanEscaped = cutAfter c.scanEscaped := by
  simp only [scanEscaped, skip_cut, past_cut, cut_pos]
  rw [run_cut]
  dsimp only
  cases (c.skip.rest.run fun b => !endsEscape b).next with
  | none => rfl
  | some b =>
    dsimp only
    cases escapedName (c.skip.rest.run fun b => !endsEscape b).bytes <;> dsimp only <;>
      split_ifs <;> rfl

theorem scanSlash_cut (c : Cursor) : c.cut.scanSlash options = cutAfter (c.scanSlash options) := by
  have hblock (d : Cursor) : blockTail false d.cut.rest =
      { blockTail false d.rest with rest := (blockTail false d.rest).rest.upToFault } :=
    blockTail_upToFault false d.rest
  simp only [scanSlash, skip_cut, look_cut, takeLine_cut, cut_pos, cutAfter, hblock]
  split_ifs <;> rfl

theorem scanDirective_cut (c : Cursor) :
    c.cut.scanDirective options = cutAfter (c.scanDirective options) := by
  simp only [scanDirective, skip_cut, past_cut, takeLine_cut, cut_pos]
  rw [run_cut]
  split_ifs <;> rfl

theorem piece_cut (c : Cursor) : c.cut.piece options = cutAfter (c.piece options) := by
  unfold piece
  rw [skipBlanks_cut, look_cut]
  rcases c.skipBlanks.look with ⟨_ | b, d⟩
  · rfl
  · simp only [cutAfter, scanFrom]
    split_ifs
    · exact scanDirective_cut d
    · exact scanSlash_cut d
    · exact scanEscaped_cut d
    · exact scanWord_cut d
    · exact scanConstant_cut d
    · rw [skip_cut]
      split <;> rfl

/-- **A scan never looks behind a fault.** -/
theorem scan_cut (c : Cursor) : c.cut.scan options = cutAfter (c.scan options) := by
  fun_induction scan options c with
  | case1 c l d hp => rw [scan_eq, piece_cut, hp]; rfl
  | case2 c d hp ih => rw [scan_eq, piece_cut, hp]; exact ih
  | case3 c d hp => rw [scan_eq, piece_cut, hp]; rfl
  | case4 c e d hp => rw [scan_eq, piece_cut, hp]; rfl

end Cursor

/-- The stream on the source up to its first fault. -/
def LexemeStream.cut (s : LexemeStream) : LexemeStream := { s with cursor := s.cursor.cut }

namespace LexemeStream

/-! ### Streams -/

@[simp] theorem cut_pos (s : LexemeStream) : s.cut.pos = s.pos := rfl

theorem drop_cut (s : LexemeStream) : s.cut.drop = s.drop.cut := rfl

theorem next_cut (s : LexemeStream) : s.cut.next = (s.next.1, s.next.2.cut) := by
  simp only [next, cut, Cursor.scan_cut, Cursor.cutAfter]

theorem peek_cut (s : LexemeStream) : s.cut.peek = (s.peek.1, s.peek.2.cut) := by
  obtain ⟨options, c, _ | l⟩ := s
  · simp only [peek, next, cut, Cursor.scan_cut, Cursor.cutAfter]
    rcases c.scan options with ⟨_ | _, d⟩ <;> rfl
  · rfl

theorem pop_cut (s : LexemeStream) : s.cut.pop = (s.pop.1, s.pop.2.cut) := by
  simp only [pop, peek_cut, drop_cut]

end LexemeStream

/-- The session on the source up to its first fault. -/
def Session.cut (session : Session) : Session := { session with stream := session.stream.cut }

namespace Session

/-! ### Runs -/

section Run

variable {σ : Type} (o : Observer σ)

/-- **A run never looks behind a fault.** -/
theorem run_cut (session : Session) (s : σ) :
    session.cut.run o s =
      ⟨(session.run o s).result, (session.run o s).state, (session.run o s).session.cut⟩ := by
  fun_induction run o session s with
  | case1 session s hp =>
    obtain ⟨stream, p⟩ := session
    subst hp
    exact run_finished o _ s
  | case2 session s hp e stream hs =>
    refine (@run_eq σ o session.cut hp s).trans ?_
    simp only [cut, LexemeStream.peek_cut, hs]
  | case3 session s hp stream hs q hm ih =>
    refine (@run_eq σ o session.cut hp s).trans ?_
    simp only [cut, LexemeStream.peek_cut, hs, LexemeStream.cut_pos, hm]
    exact ih
  | case4 session s hp stream hs e hm =>
    refine (@run_eq σ o session.cut hp s).trans ?_
    simp only [cut, LexemeStream.peek_cut, hs, LexemeStream.cut_pos, hm]
  | case5 session s hp l stream hs q event hm ih =>
    refine (@run_eq σ o session.cut hp s).trans ?_
    simp only [cut, LexemeStream.peek_cut, hs, hm, LexemeStream.drop_cut]
    exact ih
  | case6 session s hp l stream hs q hm ih =>
    refine (@run_eq σ o session.cut hp s).trans ?_
    simp only [cut, LexemeStream.peek_cut, hs, hm]
    exact ih
  | case7 session s hp l stream hs e hm =>
    refine (@run_eq σ o session.cut hp s).trans ?_
    simp only [cut, LexemeStream.peek_cut, hs, hm, LexemeStream.drop_cut]

end Run

/-! ### Programs of calls -/

/-- What a caller can ask of a session: the three ways to get a lexeme, and a run. -/
inductive Call where
  | peek
  | pop
  | next
  | run
  deriving DecidableEq, Repr

/-- What a call gives. -/
inductive Reply where
  | scanned (r : Except ReadError (Option Lexeme))
  | ran (r : Except ReadError Unit)

/-- What can be seen after a call. -/
structure View (σ : Type) where
  reply : Reply
  state : σ
  progress : Progress
  pos : Pos

/-- A program of calls. What was seen after a call decides on the next one. -/
inductive Program (σ : Type) where
  | stop
  | call (c : Call) (next : View σ → Program σ)

section Trace

variable {σ : Type} (o : Observer σ)

/-- One call: what it gives, the observer's state and the session after it. -/
def answer (session : Session) (s : σ) : Call → Reply × σ × Session
  | .peek => (.scanned session.stream.peek.1, s, { session with stream := session.stream.peek.2 })
  | .pop => (.scanned session.stream.pop.1, s, { session with stream := session.stream.pop.2 })
  | .next => (.scanned session.stream.next.1, s, { session with stream := session.stream.next.2 })
  | .run => (.ran (session.run o s).result, (session.run o s).state, (session.run o s).session)

/-- What a program sees, call by call. -/
def trace : Program σ → Session → σ → List (View σ)
  | .stop, _, _ => []
  | .call c next, session, s =>
    match session.answer o s c with
    | (reply, s, session) =>
      let view : View σ := ⟨reply, s, session.progress, session.stream.pos⟩
      view :: trace (next view) session s

theorem answer_cut (session : Session) (s : σ) (c : Call) :
    session.cut.answer o s c =
      ((session.answer o s c).1, (session.answer o s c).2.1, (session.answer o s c).2.2.cut) := by
  cases c with
  | peek => simp only [answer, cut, LexemeStream.peek_cut]
  | pop => simp only [answer, cut, LexemeStream.pop_cut]
  | next => simp only [answer, cut, LexemeStream.next_cut]
  | run => simp only [answer, run_cut]

/-- No program can tell where the source was cut. -/
theorem trace_cut (program : Program σ) (session : Session) (s : σ) :
    trace o program session.cut s = trace o program session s := by
  induction program generalizing session s with
  | stop => rfl
  | call c next ih =>
    rw [trace, trace, answer_cut]
    dsimp only
    rw [ih]
    rfl

/-- **A fault is the end of the source.** Whatever calls are made, and however each depends on what
was seen before, nothing that is seen on a source that fails differs from what is seen on the part
before the fault alone. -/
theorem trace_fault (options : ScanOptions) (part rest : Source) (program : Program σ) (s : σ) :
    trace o program (ofSource options (part ++ .fault :: rest)) s =
      trace o program (ofSource options part) s := by
  have hcut (source : Source) : trace o program (ofSource options source) s =
      trace o program (ofSource options source.upToFault) s :=
    (trace_cut o program (ofSource options source) s).symm
  rw [hcut, hcut part, Source.upToFault_append_fault]

end Trace

end Session

end Netlist
