import Netlist.Lexeme.Stream
import Netlist.Proofs.Shadow

/-! # Calls of a stream

The user of a stream gets lexemes in three ways: by a peek, by a pop, and by `next`, which scans
behind the lexeme ahead. A call scans or gives the lexeme ahead (`answer_of_fetches`,
`answer_of_not_fetches`), so whatever calls were made before, what a call gives is one of the
results that `next` gives in a row on the fresh stream (`exists_nth_of_answer`). -/

namespace Netlist

/-- The lexeme that a scan gives, if it gives one. -/
def lexeme? (r : ScanResult) : Option Lexeme := r.toOption.join

theorem lexeme?_eq_some_iff {r : ScanResult} {l : Lexeme} :
    lexeme? r = some l ↔ r = .ok (some l) := by
  rcases r with e | _ | m <;> simp [lexeme?, Except.toOption]

namespace LexemeStream

/-- The three ways to get a lexeme from a stream. -/
inductive Call where
  | peek
  | pop
  | next
  deriving DecidableEq, Repr

/-- What a call gives, and the stream after it. -/
def answer (s : LexemeStream) : Call → ScanResult × LexemeStream
  | .peek => s.peek
  | .pop => s.pop
  | .next => s.next

/-- The stream after calls in a row. -/
def after (s : LexemeStream) (calls : List Call) : LexemeStream :=
  calls.foldl (fun s call => (s.answer call).2) s

/-- What calls in a row give, and the position after each of them. -/
def answers (s : LexemeStream) : List Call → List (ScanResult × Pos)
  | [] => []
  | call :: calls =>
    ((s.answer call).1, (s.answer call).2.pos) :: (s.answer call).2.answers calls

/-- The stream after `i` calls of `next`. -/
def fetched (s : LexemeStream) (i : Nat) : LexemeStream := s.after (.replicate i .next)

/-- The `i`-th of the results that `next` gives in a row, counted from zero, and the position after
it. -/
def nth (s : LexemeStream) (i : Nat) : ScanResult × Pos :=
  ((s.fetched i).next.1, (s.fetched i).next.2.pos)

/-- The call scans: no lexeme is ahead, or it looks behind that lexeme. -/
def Fetches (s : LexemeStream) (call : Call) : Prop := s.ahead = none ∨ call = .next

variable {s fresh : LexemeStream} {call : Call} {calls : List Call}

@[simp] theorem after_cons (s : LexemeStream) (call : Call) (calls : List Call) :
    s.after (call :: calls) = (s.answer call).2.after calls := rfl

theorem after_append (s : LexemeStream) (calls calls' : List Call) :
    s.after (calls ++ calls') = (s.after calls).after calls' := List.foldl_append

theorem fetched_succ (s : LexemeStream) (i : Nat) : s.fetched (i + 1) = (s.fetched i).next.2 := by
  rw [fetched, List.replicate_succ', after_append]
  rfl

/-! ### What a call does -/

theorem peek_of_ahead {l : Lexeme} (h : s.ahead = some l) : s.peek = (.ok (some l), s) := by
  rw [peek, h]

/-- With nothing ahead a peek keeps the lexeme that `next` gives. -/
theorem peek_of_ahead_eq_none (h : s.ahead = none) :
    s.peek = (s.next.1, { s.next.2 with ahead := lexeme? s.next.1 }) := by
  obtain ⟨options, c, ahead⟩ := s
  obtain rfl : ahead = none := h
  simp only [peek, next]
  rcases c.scan options with ⟨_ | _, d⟩ <;> rfl

theorem pop_of_ahead_eq_none (h : s.ahead = none) : s.pop = s.next := by
  rw [pop, peek_of_ahead_eq_none h]
  obtain ⟨options, c, ahead⟩ := s
  obtain rfl : ahead = none := h
  rfl

theorem answer_of_fetches (h : s.Fetches call) :
    (s.answer call).1 = (s.cursor.scan s.options).1 ∧
      (s.answer call).2.cursor = (s.cursor.scan s.options).2 := by
  rcases h with h | rfl
  · cases call with
    | peek =>
      rw [answer, peek_of_ahead_eq_none h]
      exact ⟨rfl, rfl⟩
    | pop =>
      rw [answer, pop_of_ahead_eq_none h]
      exact ⟨rfl, rfl⟩
    | next => exact ⟨rfl, rfl⟩
  · exact ⟨rfl, rfl⟩

theorem answer_of_not_fetches (h : ¬ s.Fetches call) :
    ∃ l, s.ahead = some l ∧ (s.answer call).1 = .ok (some l) ∧
      (s.answer call).2.cursor = s.cursor := by
  obtain ⟨hahead, hcall⟩ := not_or.mp h
  obtain ⟨l, hl⟩ := Option.ne_none_iff_exists'.mp hahead
  refine ⟨l, hl, ?_⟩
  cases call with
  | peek =>
    rw [answer, peek_of_ahead hl]
    exact ⟨rfl, rfl⟩
  | pop =>
    rw [answer, pop, peek_of_ahead hl]
    exact ⟨rfl, rfl⟩
  | next => exact absurd rfl hcall

@[simp] theorem options_answer (s : LexemeStream) (call : Call) :
    (s.answer call).2.options = s.options := by
  have hpeek : s.peek.2.options = s.options := by
    rcases h : s.ahead with _ | l
    · rw [peek_of_ahead_eq_none h]
      rfl
    · rw [peek_of_ahead h]
  cases call with
  | peek => exact hpeek
  | pop => exact hpeek
  | next => rfl

@[simp] theorem options_after (s : LexemeStream) (calls : List Call) :
    (s.after calls).options = s.options := by
  induction calls generalizing s with
  | nil => rfl
  | cons call calls ih => rw [after_cons, ih, options_answer]

theorem answer_reaches (s : LexemeStream) (call : Call) :
    s.cursor.Reaches (s.answer call).2.cursor := by
  by_cases h : s.Fetches call
  · rw [(answer_of_fetches h).2]
    exact Cursor.scan_reaches _ _
  · obtain ⟨_, -, -, hc⟩ := answer_of_not_fetches h
    rw [hc]
    exact .refl _

theorem after_reaches (s : LexemeStream) (calls : List Call) :
    s.cursor.Reaches (s.after calls).cursor := by
  induction calls generalizing s with
  | nil => exact .refl _
  | cons call calls ih => exact (s.answer_reaches call).trans (ih _)

/-- What is ahead after a call was ahead before it, or the call scanned it. -/
theorem ahead_answer {l : Lexeme} (h : (s.answer call).2.ahead = some l) :
    s.ahead = some l ∨ (s.cursor.scan s.options).1 = .ok (some l) := by
  cases call with
  | peek =>
    rcases hs : s.ahead with _ | m
    · rw [answer, peek_of_ahead_eq_none hs] at h
      exact .inr (lexeme?_eq_some_iff.mp h)
    · rw [answer, peek_of_ahead hs, hs] at h
      exact .inl h
  | pop => cases h
  | next => exact .inl h

/-! ### What was scanned -/

/-- The stream has scanned results of the fresh one, and the lexeme ahead is one of them. -/
structure HasScanned (fresh s : LexemeStream) : Prop where
  options : s.options = fresh.options
  cursor : ∃ i, s.cursor = (fresh.fetched i).cursor
  ahead : ∀ l ∈ s.ahead, ∃ i, .ok (some l) = (fresh.nth i).1

theorem HasScanned.scan_eq (h : fresh.HasScanned s) : ∃ i,
    (s.cursor.scan s.options).1 = (fresh.nth i).1 ∧
      (s.cursor.scan s.options).2 = (fresh.fetched (i + 1)).cursor := by
  obtain ⟨i, hi⟩ := h.cursor
  have hoptions : (fresh.fetched i).options = s.options :=
    (options_after fresh _).trans h.options.symm
  refine ⟨i, ?_⟩
  rw [fetched_succ, hi, ← hoptions]
  exact ⟨rfl, rfl⟩

theorem HasScanned.answer (h : fresh.HasScanned s) (call : Call) :
    fresh.HasScanned (s.answer call).2 ∧ ∃ i, (s.answer call).1 = (fresh.nth i).1 := by
  obtain ⟨i, hresult, hcursor⟩ := h.scan_eq
  have hahead (l) (hl : l ∈ (s.answer call).2.ahead) : ∃ i, .ok (some l) = (fresh.nth i).1 := by
    rcases ahead_answer hl with hl | hl
    · exact h.ahead l hl
    · exact ⟨i, hl.symm.trans hresult⟩
  by_cases hf : s.Fetches call
  · obtain ⟨hr, hc⟩ := answer_of_fetches hf
    exact ⟨⟨(options_answer s call).trans h.options, ⟨i + 1, hc.trans hcursor⟩, hahead⟩,
      i, hr.trans hresult⟩
  · obtain ⟨l, hl, hr, hc⟩ := answer_of_not_fetches hf
    rw [hr]
    exact ⟨⟨(options_answer s call).trans h.options, hc ▸ h.cursor, hahead⟩, h.ahead l hl⟩

theorem HasScanned.after (h : fresh.HasScanned s) (calls : List Call) :
    fresh.HasScanned (s.after calls) := by
  induction calls generalizing s with
  | nil => exact h
  | cons call calls ih => exact ih (h.answer call).1

/-- **What a call gives is a result of `next`**, whatever calls were made before. -/
theorem exists_nth_of_answer (fresh : LexemeStream) (hfresh : fresh.ahead = none)
    (calls : List Call) (call : Call) :
    ∃ i, ((fresh.after calls).answer call).1 = (fresh.nth i).1 := by
  have h : fresh.HasScanned fresh := ⟨rfl, ⟨0, rfl⟩, by simp [hfresh]⟩
  exact ((h.after calls).answer call).2

end LexemeStream

end Netlist
