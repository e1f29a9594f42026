import Netlist.Proofs.Calls
import Netlist.Proofs.Turns

/-! # Peeking

A fresh stream has a first, a second, a third result and so on: what `next` gives in a row
(`LexemeStream.nth`). Calls that peek and pop are given these results in their order, and the stream
stands at the one that is next (`Stands`): it is still to be scanned, or it is the lexeme ahead. A
lexeme goes to the peeks since it was scanned and to one pop, any other result to one call only
(`HandedOut`). A session that starts behind peeks therefore reads what it reads from the fresh
stream. Main statement: `handedOut_of_peeks_and_pops`. -/

namespace Netlist

namespace LexemeStream

variable {s fresh : LexemeStream} {call : Call} {calls : List Call} {i j : Nat} {l : Lexeme}

theorem ahead_fetched (h : fresh.ahead = none) (i : Nat) : (fresh.fetched i).ahead = none := by
  induction i with
  | zero => exact h
  | succ i ih => rwa [fetched_succ]

/-! ### The numbers of the results -/

/-- The number of the result that comes behind a call that was given the `i`-th. A lexeme that was
peeked at comes again. -/
def following (fresh : LexemeStream) (call : Call) (i : Nat) : Nat :=
  if call = .peek ∧ (lexeme? (fresh.nth i).1).isSome then i else i + 1

/-- The numbers of the results that calls are given, from the `i`-th on. -/
def numbers (fresh : LexemeStream) : Nat → List Call → List Nat
  | _, [] => []
  | i, call :: calls => i :: fresh.numbers (fresh.following call i) calls

/-- The calls that were given the `i`-th result. -/
def callsFor (i : Nat) (calls : List Call) (numbers : List Nat) : List Call :=
  ((calls.zip numbers).filter (·.2 == i)).map Prod.fst

theorem following_peek (h : (fresh.nth i).1 = .ok (some l)) : fresh.following .peek i = i :=
  if_pos ⟨rfl, by rw [lexeme?_eq_some_iff.mpr h]; rfl⟩

theorem following_pop (fresh : LexemeStream) (i : Nat) : fresh.following .pop i = i + 1 :=
  if_neg fun h => by cases h.1

theorem following_of_eq_none (h : lexeme? (fresh.nth i).1 = none) (call : Call) :
    fresh.following call i = i + 1 :=
  if_neg fun hkept => by rw [h] at hkept; cases hkept.2

theorem le_following (fresh : LexemeStream) (call : Call) (i : Nat) :
    i ≤ fresh.following call i := by
  unfold following
  split <;> omega

theorem le_of_mem_numbers (h : j ∈ fresh.numbers i calls) : i ≤ j := by
  induction calls generalizing i with
  | nil => cases h
  | cons call calls ih =>
    rcases List.mem_cons.mp h with rfl | h
    · exact Nat.le_refl _
    · exact (le_following fresh call i).trans (ih h)

theorem pairwise_numbers (fresh : LexemeStream) (i : Nat) (calls : List Call) :
    (fresh.numbers i calls).Pairwise (· ≤ ·) := by
  induction calls generalizing i with
  | nil => exact .nil
  | cons call calls ih =>
    exact .cons (fun j hj => (le_following fresh call i).trans (le_of_mem_numbers hj)) (ih _)

/-- No result is left out. -/
theorem mem_numbers_of_le {k : Nat} (h : j ∈ fresh.numbers i calls) (hik : i ≤ k) (hkj : k ≤ j) :
    k ∈ fresh.numbers i calls := by
  induction calls generalizing i with
  | nil => cases h
  | cons call calls ih =>
    rcases Nat.eq_or_lt_of_le hik with rfl | hlt
    · exact List.mem_cons_self
    · rcases List.mem_cons.mp h with rfl | h
      · omega
      · refine List.mem_cons_of_mem _ (ih h ?_)
        unfold following
        split <;> omega

@[simp] theorem callsFor_cons_self (i : Nat) (call : Call) (calls : List Call) (is : List Nat) :
    callsFor i (call :: calls) (i :: is) = call :: callsFor i calls is := by
  simp [callsFor]

theorem callsFor_cons_of_ne (h : j ≠ i) (call : Call) (calls : List Call) (is : List Nat) :
    callsFor i (call :: calls) (j :: is) = callsFor i calls is := by
  simp [callsFor, h]

theorem callsFor_eq_nil {is : List Nat} (h : i ∉ is) (calls : List Call) :
    callsFor i calls is = [] := by
  rw [callsFor, List.map_eq_nil_iff, List.filter_eq_nil_iff]
  rintro ⟨call, j⟩ hmem hj
  exact h (beq_iff_eq.mp hj ▸ (List.of_mem_zip hmem).2)

theorem callsFor_numbers_succ (fresh : LexemeStream) (i : Nat) (calls : List Call) :
    callsFor i calls (fresh.numbers (i + 1) calls) = [] :=
  callsFor_eq_nil (fun h => absurd (le_of_mem_numbers h) (Nat.not_succ_le_self i)) calls

/-! ### Where a stream stands -/

/-- The `i`-th result of the fresh stream comes next: it is still to be scanned, or it is the lexeme
ahead. -/
inductive Stands (fresh : LexemeStream) (i : Nat) : LexemeStream → Prop
  | unread : Stands fresh i (fresh.fetched i)
  | ahead {l : Lexeme} : (fresh.nth i).1 = .ok (some l) →
      Stands fresh i { fresh.fetched (i + 1) with ahead := some l }

/-- A call is given the result that comes next. A peek keeps it if it is a lexeme. -/
theorem Stands.answer (h : fresh.Stands i s) (hfresh : fresh.ahead = none) (hcall : call ≠ .next) :
    ((s.answer call).1, (s.answer call).2.pos) = fresh.nth i ∧
      fresh.Stands (fresh.following call i) (s.answer call).2 ∧
      (call = .peek → (s.answer call).2.ahead = lexeme? (fresh.nth i).1) := by
  have hnone (i) := ahead_fetched hfresh i
  cases h with
  | unread =>
    cases call with
    | peek =>
      rw [LexemeStream.answer, peek_of_ahead_eq_none (hnone i), ← fetched_succ]
      refine ⟨by rw [nth, fetched_succ]; rfl, ?_, fun _ => rfl⟩
      rcases hl : lexeme? (fresh.fetched i).next.1 with _ | l
      · rw [following_of_eq_none hl, ← hnone (i + 1)]
        exact .unread
      · rw [following_peek (lexeme?_eq_some_iff.mp hl)]
        exact .ahead (lexeme?_eq_some_iff.mp hl)
    | pop =>
      rw [LexemeStream.answer, pop_of_ahead_eq_none (hnone i), ← fetched_succ]
      refine ⟨by rw [nth, fetched_succ], ?_, fun h => by cases h⟩
      rw [following_pop]
      exact .unread
    | next => exact absurd rfl hcall
  | @ahead l hl =>
    have hpos : (fresh.fetched (i + 1)).pos = (fresh.nth i).2 := by rw [fetched_succ]; rfl
    have hresult : ((Except.ok (some l) : ScanResult), (fresh.fetched (i + 1)).pos) = fresh.nth i :=
      Prod.ext hl.symm hpos
    cases call with
    | peek =>
      refine ⟨hresult, ?_, fun _ => (lexeme?_eq_some_iff.mpr hl).symm⟩
      rw [following_peek hl]
      exact .ahead hl
    | pop =>
      refine ⟨hresult, ?_, fun h => by cases h⟩
      have hpop : ({ fresh.fetched (i + 1) with ahead := some l } : LexemeStream).pop.2 =
          fresh.fetched (i + 1) := by
        simp only [pop, peek, drop]
        rw [← hnone (i + 1)]
      rw [following_pop, LexemeStream.answer, hpop]
      exact .unread
    | next => exact absurd rfl hcall

theorem Stands.answers (h : fresh.Stands i s) (hfresh : fresh.ahead = none)
    (hcalls : .next ∉ calls) : s.answers calls = (fresh.numbers i calls).map fresh.nth := by
  induction calls generalizing i s with
  | nil => rfl
  | cons call calls ih =>
    rw [List.mem_cons, not_or] at hcalls
    obtain ⟨hcall, hcalls⟩ := hcalls
    obtain ⟨hresult, hstands, -⟩ := h.answer hfresh (Ne.symm hcall)
    rw [LexemeStream.answers, hresult, ih hstands hcalls]
    rfl

/-- A lexeme goes to peeks and then to one pop; if it was not taken yet it is ahead. -/
theorem Stands.callsFor_lexeme (h : fresh.Stands i s) (hfresh : fresh.ahead = none)
    (hcalls : .next ∉ calls) (hj : j ∈ fresh.numbers i calls)
    (hl : (fresh.nth j).1 = .ok (some l)) :
    (∃ n, callsFor j calls (fresh.numbers i calls) = .replicate n .peek ++ [.pop]) ∨
      (∃ n, callsFor j calls (fresh.numbers i calls) = .replicate (n + 1) .peek) ∧
        (∀ k ∈ fresh.numbers i calls, k ≤ j) ∧ (s.after calls).ahead = some l := by
  -- the first call is given the `i`-th result, and the stream then stands at the following one
  induction calls generalizing i s with
  | nil => cases hj
  | cons call calls ih =>
    rw [List.mem_cons, not_or] at hcalls
    obtain ⟨hcall, hcalls⟩ := hcalls
    obtain ⟨-, hstands, hahead⟩ := h.answer hfresh (Ne.symm hcall)
    rw [numbers] at hj ⊢
    by_cases hi : i = j
    · subst hi
      rw [callsFor_cons_self]
      cases call with
      | peek =>
        -- the lexeme stays, and the rest of the calls begins with it
        rw [following_peek hl] at hstands ⊢
        rcases calls with _ | ⟨call, calls⟩
        · refine .inr ⟨⟨0, rfl⟩, by simp [numbers], ?_⟩
          exact (hahead rfl).trans (lexeme?_eq_some_iff.mpr hl)
        · rcases ih hstands hcalls List.mem_cons_self with ⟨n, hn⟩ | ⟨⟨n, hn⟩, hlast, hs⟩
          · exact .inl ⟨n + 1, by rw [hn]; rfl⟩
          · exact .inr ⟨⟨n + 1, by rw [hn]; rfl⟩,
              List.forall_mem_cons.mpr ⟨Nat.le_refl _, hlast⟩, hs⟩
      | pop => exact .inl ⟨0, by rw [following_pop, callsFor_numbers_succ]; rfl⟩
      | next => exact absurd rfl hcall
    · rw [callsFor_cons_of_ne hi]
      have hmem := (List.mem_cons.mp hj).resolve_left (Ne.symm hi)
      refine (ih hstands hcalls hmem).imp_right fun ⟨hn, hlast, hs⟩ => ⟨hn, ?_, hs⟩
      exact List.forall_mem_cons.mpr
        ⟨(le_following fresh call i).trans (le_of_mem_numbers hmem), hlast⟩

theorem length_callsFor (hj : j ∈ fresh.numbers i calls) (hl : lexeme? (fresh.nth j).1 = none) :
    (callsFor j calls (fresh.numbers i calls)).length = 1 := by
  induction calls generalizing i with
  | nil => cases hj
  | cons call calls ih =>
    rw [numbers] at hj ⊢
    by_cases hi : i = j
    · subst hi
      rw [callsFor_cons_self, following_of_eq_none hl, callsFor_numbers_succ]
      rfl
    · rw [callsFor_cons_of_ne hi]
      exact ih ((List.mem_cons.mp hj).resolve_left (Ne.symm hi))

/-- The calls were given results of the fresh stream, of these numbers. -/
structure HandedOut (fresh : LexemeStream) (calls : List Call) (numbers : List Nat) : Prop where
  /-- The results, and the positions after them. -/
  answers : fresh.answers calls = numbers.map fresh.nth
  /-- The results come in their order. -/
  sorted : numbers.Pairwise (· ≤ ·)
  /-- No result is left out. -/
  complete : ∀ i ∈ numbers, ∀ j ≤ i, j ∈ numbers
  /-- A lexeme is peeked at any number of times and then popped once. If it was not popped yet, no
  later result was seen, and it is ahead. -/
  lexeme : ∀ i ∈ numbers, ∀ l, (fresh.nth i).1 = .ok (some l) →
    (∃ n, callsFor i calls numbers = .replicate n .peek ++ [.pop]) ∨
      (∃ n, callsFor i calls numbers = .replicate (n + 1) .peek) ∧
        (∀ j ∈ numbers, j ≤ i) ∧ (fresh.after calls).ahead = some l
  /-- The end and an error are given to one call. -/
  other : ∀ i ∈ numbers, lexeme? (fresh.nth i).1 = none → (callsFor i calls numbers).length = 1

theorem handedOut_numbers (hfresh : fresh.ahead = none) (hcalls : .next ∉ calls) :
    HandedOut fresh calls (fresh.numbers 0 calls) where
  answers := (Stands.unread (i := 0)).answers hfresh hcalls
  sorted := pairwise_numbers fresh 0 calls
  complete _ hi _ hj := mem_numbers_of_le hi (Nat.zero_le _) hj
  lexeme _ hi _ hl := (Stands.unread (i := 0)).callsFor_lexeme hfresh hcalls hi hl
  other _ hi hl := length_callsFor hi hl

/-! ### Peeks before a session -/

theorem ahead_of_peek (h : s.peek.1 = .ok (some l)) : s.peek.2.ahead = some l := by
  rcases hs : s.ahead with _ | m
  · rw [peek_of_ahead_eq_none hs] at h ⊢
    exact lexeme?_eq_some_iff.mpr h
  · rw [peek_of_ahead hs] at h ⊢
    cases h
    exact hs

theorem peek_peek (h : s.peek.1 = .ok (some l)) : s.peek.2.peek = s.peek :=
  (peek_of_ahead (ahead_of_peek h)).trans (Prod.ext h.symm rfl)

theorem after_peeks (h : s.peek.1 = .ok (some l)) (n : Nat) :
    s.after (.replicate (n + 1) .peek) = s.peek.2 := by
  induction n with
  | zero => rfl
  | succ n ih =>
    rw [List.replicate_succ', after_append, ih]
    exact congrArg Prod.snd (peek_peek h)

end LexemeStream

namespace Session

variable {s t : LexemeStream} {σ : Type}

theorem turn_of_peek (h : s.peek = t.peek) (p : Progress) :
    turn ⟨s, p⟩ = turn ⟨t, p⟩ := by
  simp only [turn, h]

theorem runs_of_peek (h : s.peek = t.peek) (o : Observer σ) (state : σ) (n : Nat) :
    (ofStream s).runs o state (n + 1) = (ofStream t).runs o state (n + 1) := by
  induction n with
  | zero =>
    have hp (s : LexemeStream) : (ofStream s).progress ≠ .finished := nofun
    simp only [runs]
    rw [run_eq_turn o (hp s), run_eq_turn o (hp t), ofStream, ofStream, turn_of_peek h]
  | succ n ih => rw [runs, ih, ← runs]

end Session

namespace LexemeStream

/-- **Peeking loses, doubles and reorders nothing**, wherever the source pauses or fails. A session
behind peeks that all gave a lexeme reads what it reads from the fresh stream. -/
theorem handedOut_of_peeks_and_pops (options : ScanOptions) (source : Source) (calls : List Call)
    (hcalls : Call.next ∉ calls) : let fresh := ofSource options source
    (∃ numbers, HandedOut fresh calls numbers) ∧
      ∀ n, (∀ r ∈ fresh.answers (.replicate n .peek), ∃ l, r.1 = .ok (some l)) →
        ∀ (σ : Type) (o : Observer σ) (s : σ) (m : Nat),
          (Session.ofStream (fresh.after (.replicate n .peek))).runs o s (m + 1) =
            (Session.ofSource options source).runs o s (m + 1) := by
  intro fresh
  refine ⟨⟨_, handedOut_numbers rfl hcalls⟩, fun n hn σ o s m => ?_⟩
  cases n with
  | zero => rfl
  | succ n =>
    obtain ⟨l, hl⟩ := hn _ List.mem_cons_self
    rw [after_peeks hl]
    exact Session.runs_of_peek (peek_peek hl) o s m

/-- A name goes to two peeks and a pop, then the source pauses, then the next name comes. -/
theorem handedOut_of_pause :
    let source := Source.ofBytes (Utf8.encode "a ") ++
      .pause :: .pause :: Source.ofBytes (Utf8.encode "b")
    let fresh := ofSource .strict source
    let calls := [Call.peek, .peek, .pop, .peek, .pop]
    Call.next ∉ calls ∧ (∃ numbers, HandedOut fresh calls numbers) ∧
      (Session.ofStream (fresh.after [.peek, .peek])).runs .recorder #[] 3 =
        (Session.ofSource .strict source).runs .recorder #[] 3 := by
  intro source fresh calls
  have hcalls : Call.next ∉ calls := by decide
  obtain ⟨hnumbers, hruns⟩ := handedOut_of_peeks_and_pops .strict source calls hcalls
  refine ⟨hcalls, hnumbers, hruns 2 (fun r hr => ?_) _ .recorder #[] 2⟩
  have h : fresh.answers (.replicate 2 .peek) = .replicate 2
      (.ok (some ⟨.identifier "a", ⟨⟨1, 1⟩, ⟨1, 2⟩⟩⟩), ⟨1, 2⟩) := by decide +kernel
  rw [h] at hr
  rw [List.eq_of_mem_replicate hr]
  exact ⟨_, rfl⟩

end LexemeStream

end Netlist
