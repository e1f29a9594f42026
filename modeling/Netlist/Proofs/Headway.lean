import Mathlib.Data.Set.Card
import Netlist.Proofs.Calls
import Netlist.Proofs.Skipped
import Netlist.Proofs.Turns
import Netlist.Proofs.Unexpected

/-! # Headway

In a source of bytes alone every call of `next` takes bytes, or the stream sticks: it is at the end,
or at a byte that starts nothing, and gives the same result for ever (`LexemeStream.Headway`). The
span of an error tells which, as long as no counter of it has wrapped around. So there are no more
results than bytes, and one that is repeated (`exists_repetition`).

A step of a run that succeeds has popped a lexeme that is no comment (`Session.takesLexeme_step`),
so there are no more such steps than bytes. Main statement: `headway_of_bytes`. -/

namespace Netlist

namespace Cursor

variable {options : ScanOptions} {b : UInt8} {c d : Cursor} {e : ReadError} {more : Source}

theorem Reaches.size_le (h : Reaches c d) : d.size ≤ c.size := h.suffix.length_le

/-- Without pauses all blanks are skipped. -/
theorem Skips.isBlank_eq_false (h : Skips options c d) (hc : c.IsPlain)
    (hd : d.rest = .byte b :: more) : Ascii.isBlank b = false := by
  by_contra hb
  obtain ⟨before, hbefore⟩ := h.exists_pause hd (by simpa using hb)
  obtain ⟨bytes, hbytes⟩ := hc
  have hpause : Item.pause ∈ Source.ofBytes bytes := by
    rw [← hbytes, hbefore]
    exact List.mem_append_right _ List.mem_cons_self
  simp [Source.ofBytes] at hpause

theorem size_lt_of_scan_error (h : c.scan options = (.error e, d))
    (hne : e.span.start ≠ e.span.limit) : d.size < c.size := by
  obtain ⟨c', b, more, hskips, hrest, hfrom⟩ := scan_eq_error_iff.mp h
  cases hb : startsPiece options b with
  | false =>
    rw [scanFrom_of_not_startsPiece hb] at hfrom
    cases hfrom
    exact absurd rfl hne
  | true =>
    obtain ⟨-, -, -, hd⟩ := failsBehind_scanFrom hrest hb e (congrArg Prod.fst hfrom)
    rw [hfrom] at hd
    have hskip : c'.skip.size < c'.size := by
      simp only [skip, size, hrest, List.length_cons]
      exact Nat.lt_succ_self _
    exact (hd.size_le.trans_lt hskip).trans_le hskips.reaches.size_le

/-- An error without a stretch leaves a byte, and is found there again. -/
theorem scan_again_of_error (hc : c.IsPlain) (h : c.scan options = (.error e, d))
    (heq : e.span.start = e.span.limit) : (∃ b more, d.rest = .byte b :: more) ∧
      e.span = .empty d.pos ∧ d.scan options = (.error e, d) := by
  obtain ⟨c', b, more, hskips, hrest, hfrom⟩ := scan_eq_error_iff.mp h
  cases hb : startsPiece options b with
  | false =>
    rw [scanFrom_of_not_startsPiece hb] at hfrom
    cases hfrom
    have hblank := hskips.isBlank_eq_false hc hrest
    refine ⟨⟨b, more, hrest⟩, rfl, ?_⟩
    obtain ⟨_, pos⟩ := d
    obtain rfl := hrest
    rw [scan_eq, piece_of_byte options hblank, scanFrom_of_not_startsPiece hb]
    rfl
  | true =>
    -- the first byte would belong to the stretch
    obtain ⟨-, hstart, hlimit, -⟩ := failsBehind_scanFrom hrest hb e (congrArg Prod.fst hfrom)
    rw [← heq, hstart] at hlimit
    have hlt : c'.pos < c'.skip.pos := by
      rw [skip, hrest]
      exact Pos.lt_advance _ b
    exact absurd hlimit hlt.not_ge

end Cursor

namespace LexemeStream

variable {s t : LexemeStream} {r : ScanResult} {call : Call}

/-! ### Results of streams -/

/-- Bytes were taken from the one stream to the other. -/
def TakesBytes (s t : LexemeStream) : Prop :=
  ∃ taken, taken ≠ [] ∧ s.cursor.rest = .ofBytes taken ++ t.cursor.rest ∧
    t.pos = s.pos.advanceBy taken

theorem takesBytes_of_size_lt (hs : s.cursor.IsPlain) (h : s.cursor.Reaches t.cursor)
    (hlt : t.cursor.size < s.cursor.size) : s.TakesBytes t := by
  obtain ⟨-, taken, htaken, hpos⟩ := h.exists_bytes hs
  refine ⟨taken, ?_, htaken, hpos⟩
  rintro rfl
  rw [Cursor.size, Cursor.size, htaken] at hlt
  exact absurd hlt (Nat.lt_irrefl _)

theorem TakesBytes.size_lt (h : s.TakesBytes t) : t.cursor.size < s.cursor.size := by
  obtain ⟨taken, hne, hrest, -⟩ := h
  have := List.length_pos_of_ne_nil hne
  rw [Cursor.size, Cursor.size, hrest, List.length_append, Source.ofBytes, List.length_map]
  omega

/-- Whatever calls are made, `next` gives the same result and nothing is taken. -/
def Sticks (s : LexemeStream) (r : ScanResult) : Prop :=
  ∀ calls, (s.after calls).cursor = s.cursor ∧ (s.after calls).next.1 = r

theorem sticks_of_scan (h : s.cursor.scan s.options = (r, s.cursor)) : s.Sticks r := by
  intro calls
  induction calls generalizing s with
  | nil => exact ⟨rfl, congrArg Prod.fst h⟩
  | cons call calls ih =>
    have hc : (s.answer call).2.cursor = s.cursor := by
      by_cases hf : s.Fetches call
      · rw [(answer_of_fetches hf).2, h]
      · obtain ⟨_, -, -, hc⟩ := answer_of_not_fetches hf
        exact hc
    obtain ⟨hcursor, hnext⟩ := ih (s := (s.answer call).2) (by rw [options_answer, hc, h])
    exact ⟨hcursor.trans hc, hnext⟩

/-- What `next` does to a stream: it takes bytes or the stream sticks. -/
structure Headway (s : LexemeStream) : Prop where
  lexeme : ∀ l, s.next.1 = .ok (some l) → s.TakesBytes s.next.2
  /-- The end comes behind the last byte. -/
  finish : s.next.1 = .ok none → s.next.2.cursor.rest = [] ∧ s.next.2.Sticks (.ok none)
  /-- An error with a stretch is over once it was given. -/
  wide : ∀ e, s.next.1 = .error e → e.span.start.coords ≠ e.span.limit.coords →
    s.TakesBytes s.next.2
  /-- An error without a stretch stays, at a byte that is left. -/
  empty : ∀ e, s.next.1 = .error e → e.span.Kept → e.span.start.coords = e.span.limit.coords →
    (∃ b more, s.next.2.cursor.rest = .byte b :: more) ∧ e.span = .empty s.next.2.pos ∧
      s.next.2.Sticks (.error e)

theorem scan_eq_of_next (h : s.next.1 = r) :
    s.cursor.scan s.options = (r, s.next.2.cursor) := Prod.ext h rfl

section IsPlain

variable (hs : s.cursor.IsPlain)
include hs

theorem takesBytes_of_lexeme {l : Lexeme} (h : s.next.1 = .ok (some l)) :
    s.TakesBytes s.next.2 :=
  takesBytes_of_size_lt hs (Cursor.scan_reaches _ _)
    ((Cursor.size_scan (scan_eq_of_next h)).resolve_right fun h => nomatch h.1)

theorem sticks_of_finish (h : s.next.1 = .ok none) :
    s.next.2.cursor.rest = [] ∧ s.next.2.Sticks (.ok none) := by
  have hrest := Cursor.rest_eq_nil_of_scan hs (scan_eq_of_next h)
  exact ⟨hrest, sticks_of_scan (Cursor.scan_of_rest_eq_nil _ hrest)⟩

theorem takesBytes_of_error {e : ReadError} (h : s.next.1 = .error e)
    (hne : e.span.start ≠ e.span.limit) : s.TakesBytes s.next.2 :=
  takesBytes_of_size_lt hs (Cursor.scan_reaches _ _)
    (Cursor.size_lt_of_scan_error (scan_eq_of_next h) hne)

theorem sticks_of_error {e : ReadError} (h : s.next.1 = .error e)
    (heq : e.span.start = e.span.limit) : (∃ b more, s.next.2.cursor.rest = .byte b :: more) ∧
      e.span = .empty s.next.2.pos ∧ s.next.2.Sticks (.error e) := by
  obtain ⟨hbyte, hspan, hagain⟩ := Cursor.scan_again_of_error hs (scan_eq_of_next h) heq
  exact ⟨hbyte, hspan, sticks_of_scan hagain⟩

/-- **Every call takes bytes or sticks** in a source of bytes alone. -/
theorem headway_of_isPlain : s.Headway where
  lexeme _ h := takesBytes_of_lexeme hs h
  finish h := sticks_of_finish hs h
  wide _ h hne := takesBytes_of_error hs h fun heq => hne (congrArg Pos.coords heq)
  empty _ h hkept heq := sticks_of_error hs h ((hkept.1.coords_eq_iff hkept.2).mp heq)

theorem size_lt_or_sticks :
    s.next.2.cursor.size < s.cursor.size ∨ s.next.2.Sticks s.next.1 := by
  rcases hr : s.next.1 with e | _ | l
  · by_cases heq : e.span.start = e.span.limit
    · exact .inr (sticks_of_error hs hr heq).2.2
    · exact .inl (takesBytes_of_error hs hr heq).size_lt
  · exact .inr (sticks_of_finish hs hr).2
  · exact .inl (takesBytes_of_lexeme hs hr).size_lt

end IsPlain

theorem nth_succ (s : LexemeStream) (i : Nat) : s.nth (i + 1) = s.next.2.nth i := rfl

theorem Sticks.nth_eq (h : s.Sticks r) (i : Nat) : s.nth i = (r, s.pos) := by
  refine Prod.ext (h _).2 ?_
  rw [nth, ← fetched_succ]
  exact congrArg Cursor.pos (h _).1

/-- From some result on `next` gives that result for ever, and before it there are no more results
than bytes. -/
theorem exists_repetition (hs : s.cursor.IsPlain) :
    ∃ k ≤ s.cursor.size, ∀ m ≥ k, s.nth m = s.nth k := by
  -- a call that takes bytes leaves a shorter source, and one that sticks is the repeated one
  induction hn : s.cursor.size using Nat.strong_induction_on generalizing s with
  | _ n ih =>
    subst hn
    rcases size_lt_or_sticks hs with hlt | hsticks
    · obtain ⟨k, hk, hrep⟩ := ih _ hlt ((Cursor.scan_reaches _ _).exists_bytes hs).1 rfl
      refine ⟨k + 1, Nat.succ_le_of_lt (hk.trans_lt hlt), fun m hm => ?_⟩
      cases m with
      | zero => exact absurd hm (Nat.not_succ_le_zero k)
      | succ m =>
        rw [nth_succ, nth_succ]
        exact hrep m (Nat.le_of_succ_le_succ hm)
    · refine ⟨0, Nat.zero_le _, fun m _ => ?_⟩
      cases m with
      | zero => rfl
      | succ m =>
        rw [nth_succ]
        exact hsticks.nth_eq m

/-- Results that do not repeat are no more than the bytes, and one that repeats. -/
theorem encard_results_le (hs : s.cursor.IsPlain) :
    (Set.range fun i => (s.nth i).1).encard ≤ s.cursor.size + 1 := by
  obtain ⟨k, hk, hrep⟩ := exists_repetition hs
  have hsub : (Set.range fun i => (s.nth i).1) ⊆
      (fun i => (s.nth i).1) '' (Finset.range (k + 1) : Set Nat) := by
    rintro _ ⟨i, rfl⟩
    rcases Nat.lt_or_ge i (k + 1) with hi | hi
    · exact ⟨i, by simpa using hi, rfl⟩
    · exact ⟨k, by simp, congrArg Prod.fst (hrep i (Nat.le_of_succ_le hi)).symm⟩
  calc (Set.range fun i => (s.nth i).1).encard
      ≤ (Finset.range (k + 1) : Set Nat).encard := (Set.encard_le_encard hsub).trans
        (Set.encard_image_le _ _)
    _ = (k + 1 : Nat) := by rw [Set.encard_coe_eq_coe_finsetCard, Finset.card_range]
    _ ≤ s.cursor.size + 1 := by exact_mod_cast Nat.succ_le_succ hk

/-! ### Lexemes taken by calls -/

/-- Peeks and pops lead from the one stream to the other. -/
def Leads (s t : LexemeStream) : Prop := ∃ calls, Call.next ∉ calls ∧ t = s.after calls

/-- Among the peeks and pops that lead from the one stream to the other is a pop that took a lexeme
which is no comment. -/
def TakesLexeme (s t : LexemeStream) : Prop :=
  ∃ u v l, s.Leads u ∧ u.pop = (.ok (some l), v) ∧ l.token.isSignificant = true ∧ v.Leads t

theorem Leads.refl (s : LexemeStream) : s.Leads s := ⟨[], by simp, rfl⟩

theorem Leads.trans {u : LexemeStream} (h : s.Leads t) (h' : t.Leads u) : s.Leads u := by
  obtain ⟨calls, hcalls, rfl⟩ := h
  obtain ⟨calls', hcalls', rfl⟩ := h'
  exact ⟨calls ++ calls', by simp [hcalls, hcalls'], (after_append s calls calls').symm⟩

theorem leads_answer (s : LexemeStream) (call : Call) (hcall : call ≠ .next) :
    s.Leads (s.answer call).2 :=
  ⟨[call], by simpa using hcall.symm, rfl⟩

theorem size_pop_lt {l : Lexeme} (h : s.pop = (.ok (some l), t)) : t.size < s.size := by
  rcases hp : s.peek with ⟨r, u⟩
  rw [pop, hp] at h
  cases h
  exact size_drop_lt hp

theorem size_answer_le (s : LexemeStream) (hcall : call ≠ .next) :
    (s.answer call).2.size ≤ s.size := by
  have hdrop (u : LexemeStream) : u.drop.size ≤ u.size := Nat.add_le_add_left (Nat.zero_le _) _
  have hpeek : s.peek.2.size ≤ s.size := by
    rcases hp : s.peek with ⟨e | l?, t⟩
    · rcases hs : s.ahead with _ | l
      · rw [peek_of_ahead_eq_none hs, Prod.mk.injEq] at hp
        obtain ⟨he, rfl⟩ := hp
        have hc : s.next.2.cursor.size ≤ s.cursor.size := (Cursor.scan_reaches _ _).size_le
        rw [he]
        exact hc.trans (Nat.le_add_right _ _)
      · rw [peek_of_ahead hs] at hp
        cases hp
    · exact size_peek_le hp
  cases call with
  | peek => exact hpeek
  | pop => exact (hdrop _).trans hpeek
  | next => exact absurd rfl hcall

theorem Leads.size_le (h : s.Leads t) : t.size ≤ s.size := by
  obtain ⟨calls, hcalls, rfl⟩ := h
  induction calls generalizing s with
  | nil => exact Nat.le_refl _
  | cons call calls ih =>
    rw [List.mem_cons, not_or] at hcalls
    exact (ih hcalls.2).trans (size_answer_le s (Ne.symm hcalls.1))

theorem TakesLexeme.size_lt (h : s.TakesLexeme t) : t.size < s.size := by
  obtain ⟨u, v, l, hu, hpop, -, hv⟩ := h
  exact (hv.size_le.trans_lt (size_pop_lt hpop)).trans_le hu.size_le

end LexemeStream

/-! ### Steps of runs -/

namespace Progress

theorem Closes.not_atRest {p q : Progress} (h : Closes p q) : ¬ p.AtRest := by
  cases h <;> simp [AtRest, restart]

theorem isSignificant_of_move {p q : Progress} {l : Lexeme} {event : Option Event}
    (h : p.move l = .take q event) (he : event.any Event.isComment = false) :
    l.token.isSignificant = true := by
  obtain ⟨t, span⟩ := l
  cases t with
  | comment text =>
    cases h
    simp [Event.isComment] at he
  | _ => rfl

end Progress

namespace Session

open LexemeStream

variable {σ : Type} (o : Observer σ) {session next : Session} {event : Option Event}

theorem leads_turn (session : Session) : session.stream.Leads session.turn.2.stream := by
  have hpeek := leads_answer session.stream .peek nofun
  have hpop := leads_answer session.stream .pop nofun
  rcases hp : session.stream.peek with ⟨e | _ | l, stream⟩ <;>
    simp only [LexemeStream.answer, pop, hp] at hpeek hpop <;> simp only [turn, hp]
  · exact hpeek
  · rcases session.progress.atEnd stream.pos with _ | _ <;> exact hpeek
  · rcases session.progress.move l with _ | _ | _
    · exact hpop
    · exact hpeek
    · exact hpop

theorem pop_of_atRest (h : session.turn = (.ok event, next)) (hr : session.progress.AtRest) :
    ∃ l, session.stream.pop = (.ok (some l), next.stream) ∧
      (event.any Event.isComment = false → l.token.isSignificant = true) := by
  unfold turn at h
  split at h
  · cases h
  · split at h <;> cases h
    rename_i hm
    exact absurd hr (Progress.closes_of_atEnd hm).not_atRest
  · rename_i l stream hp
    split at h <;> cases h <;> rename_i hm
    · exact ⟨l, by rw [pop, hp], Progress.isSignificant_of_move hm⟩
    · exact absurd hr (Progress.closes_of_leave hm).not_atRest

theorem leads_step (session : Session) (s : σ) :
    session.stream.Leads (step o session s).session.stream := by
  fun_induction step o session s with
  | case1 session s e next h => simpa only [h] using leads_turn session
  | case2 session s event next h => simpa only [h] using leads_turn session
  | case3 session s event next h _ ih =>
    have hturn := leads_turn session
    rw [h] at hturn
    exact hturn.trans ih

/-- **A step that succeeds takes a lexeme** which is no comment. -/
theorem takesLexeme_step (hr : session.progress.AtRest) {s : σ}
    (h : (step o session s).result = .ok ()) :
    session.stream.TakesLexeme (step o session s).session.stream := by
  fun_induction step o session s with
  | case1 => cases h
  | case2 session s event next ht hend =>
    obtain ⟨l, hpop, hl⟩ := pop_of_atRest ht hr
    exact ⟨_, _, l, .refl _, hpop, hl hend.2, .refl _⟩
  | case3 session s event next ht hend ih =>
    cases hc : event.any Event.isComment with
    | false =>
      obtain ⟨l, hpop, hl⟩ := pop_of_atRest ht hr
      exact ⟨_, _, l, .refl _, hpop, hl hc, leads_step o next _⟩
    | true =>
      -- a comment leaves the progress as it is, so the rest of the step starts at rest too
      obtain ⟨u, v, l, hu, htake⟩ := ih (progress_of_comment ht hc ▸ hr) h
      have hturn := leads_turn session
      rw [ht] at hturn
      exact ⟨u, v, l, hturn.trans hu, htake⟩

theorem atRest_of_mem_steps (session : Session) (s : σ) :
    ∀ k ∈ steps o session s, k.session.progress.AtRest := by
  fun_induction steps o session s with
  | case1 => exact List.forall_mem_nil _
  | case2 session s hp h ih => exact List.forall_mem_cons.mpr ⟨atRest_step o session s, ih⟩
  | case3 session s hp e h => simpa using atRest_step o session s

theorem atRest_runs (options : ScanOptions) (source : Source) (s : σ) (n : Nat) :
    ((ofSource options source).runs o s n).session.progress.AtRest := by
  induction n with
  | zero => rfl
  | succ n ih =>
    rw [runs]
    rcases run_eq_or_mem_steps o ((ofSource options source).runs o s n).session
      ((ofSource options source).runs o s n).state with hrun | hrun
    · rw [hrun]
      exact ih
    · exact atRest_of_mem_steps o _ _ _ hrun

/-- A step that succeeds takes a lexeme between the two outcomes. -/
def Outcome.Takes (k k' : Outcome σ) : Prop :=
  k'.result = .ok () → k.session.stream.TakesLexeme k'.session.stream

theorem takes_steps (hr : session.progress.AtRest) (s : σ) (r : Except ReadError Unit) :
    (⟨r, s, session⟩ :: steps o session s).IsChain Outcome.Takes := by
  fun_induction steps o session s generalizing r with
  | case1 => exact .singleton _
  | case2 session s hp h ih =>
    exact List.isChain_cons_cons.mpr
      ⟨takesLexeme_step o hr, ih (atRest_step o session s) (step o session s).result⟩
  | case3 session s hp e h =>
    exact List.isChain_cons_cons.mpr ⟨takesLexeme_step o hr, .singleton _⟩

theorem length_steps_le (session : Session) (hr : session.progress.AtRest) (s : σ) :
    (steps o session s).length ≤ session.stream.size + 1 := by
  fun_induction steps o session s with
  | case1 => exact Nat.zero_le _
  | case2 session s hp h ih =>
    have hlt := (takesLexeme_step o hr h).size_lt
    have hle := ih (atRest_step o session s)
    rw [List.length_cons]
    omega
  | case3 => exact Nat.le_add_left 1 _

end Session

namespace LexemeStream

/-- **Reading makes headway or is stuck.** Every call of `next` on a source of bytes takes bytes or
sticks, and in fewer than `2 ^ 32 - 1` bytes the span of an error tells which. A fresh stream has no
more results than bytes and one that is repeated. However often reading is taken up again, a run is
the loop over its steps, each of which takes a lexeme if it succeeds; so the first run takes no more
steps than there are bytes, and one. -/
theorem headway_of_bytes (options : ScanOptions) (bytes : List UInt8) :
    let fresh := ofSource options (.ofBytes bytes)
    (∀ calls, (fresh.after calls).Headway) ∧
      (bytes.length + 1 < UInt32.size →
        ∀ calls e, (fresh.after calls).next.1 = .error e → e.span.Kept) ∧
      (∃ k ≤ bytes.length, ∀ m ≥ k, fresh.nth m = fresh.nth k) ∧
      (Set.range fun i => (fresh.nth i).1).encard ≤ bytes.length + 1 ∧
      ∀ (σ : Type) (o : Observer σ) (s : σ),
        let session := Session.ofSource options (.ofBytes bytes)
        (∀ n, let k := session.runs o s n
          k.session.run o k.state =
              (k.session.steps o k.state).getLastD ⟨.ok (), k.state, k.session⟩ ∧
            (k :: k.session.steps o k.state).IsChain Session.Outcome.Takes) ∧
        (session.steps o s).length ≤ bytes.length + 1 := by
  intro fresh
  have hplain : fresh.cursor.IsPlain := ⟨bytes, rfl⟩
  have hsize : fresh.cursor.size = bytes.length := List.length_map _
  refine ⟨fun calls => ?_, fun hfew calls e he => ?_, ?_, ?_, fun σ o s => ⟨fun n => ⟨?_, ?_⟩, ?_⟩⟩
  · exact headway_of_isPlain ((after_reaches fresh calls).exists_bytes hplain).1
  · exact Cursor.kept_of_scan_error hfew (after_reaches fresh calls) (scan_eq_of_next he)
  · exact hsize ▸ exists_repetition hplain
  · exact hsize ▸ encard_results_le hplain
  · exact Session.run_eq_steps o _ _
  · exact Session.takes_steps o (Session.atRest_runs o options _ s n) _ _
  · have hsteps := Session.length_steps_le o (.ofSource options (.ofBytes bytes)) rfl s
    exact hsize ▸ hsteps

/-- A dollar sign is refused without a stretch, and for ever. -/
theorem headway_of_dollar :
    let stream := (ofSource .strict (.ofBytes (Utf8.encode "a$"))).after [.next]
    let e : ReadError := ⟨.lexical (.unexpectedByte 0x24), .empty ⟨1, 2⟩⟩
    stream.next.1 = .error e ∧ stream.next.2.Sticks (.error e) := by
  intro stream e
  obtain ⟨hheadway, hkept, -⟩ := headway_of_bytes .strict (Utf8.encode "a$")
  have h : stream.next.1 = .error e := by decide +kernel
  exact ⟨h, ((hheadway [.next]).empty e h (hkept (by decide) [.next] e h) rfl).2.2⟩

theorem blockTail_of_not_mem {bytes : List UInt8} (h : Ascii.star ∉ bytes) :
    Cursor.blockTail false (.ofBytes bytes) = ⟨bytes, false, []⟩ := by
  induction bytes with
  | nil => rfl
  | cons b bytes ih =>
    rw [List.mem_cons, not_or] at h
    rw [Source.ofBytes_cons, Cursor.blockTail, beq_eq_false_iff_ne.mpr (Ne.symm h.1)]
    simp only [Bool.false_and, Bool.false_eq_true, if_false, ih h.2]

theorem next_of_open_comment (n : Nat) :
    (ofSource .permissive (.ofBytes (Utf8.encode "/*" ++ List.replicate n Ascii.space))).next =
      (.error ⟨.lexical .unclosedBlockComment, ⟨⟨1, 1⟩, ⟨1, 3 + n⟩⟩⟩,
        ⟨.permissive, ⟨[], ⟨1, 3 + n⟩⟩, none⟩) := by
  have htail := @blockTail_of_not_mem (List.replicate n Ascii.space) fun hm =>
    absurd (List.eq_of_mem_replicate hm) (by decide)
  have hbytes : Source.ofBytes (Utf8.encode "/*" ++ List.replicate n Ascii.space) =
      .byte Ascii.slash :: .byte Ascii.star :: Source.ofBytes (List.replicate n Ascii.space) :=
    rfl
  have hscan : Cursor.scan .permissive
      (.ofSource (.ofBytes (Utf8.encode "/*" ++ List.replicate n Ascii.space))) =
        (.error ⟨.lexical .unclosedBlockComment, ⟨⟨1, 1⟩, ⟨1, 3 + n⟩⟩⟩, ⟨[], ⟨1, 3 + n⟩⟩) := by
    rw [hbytes, Cursor.ofSource, Cursor.scan_eq, Cursor.piece_of_byte _ rfl,
      Cursor.scanFrom_slash]
    simp only [Cursor.scanSlash, Cursor.skip, Cursor.look, htail, Pos.advanceBy_replicate_space]
    rfl
  simp only [next, ofSource, hscan]

/-- An open comment of `2 ^ 32` bytes is refused at the end of the input, though its counters are
where they started. And an error that stays does not stay where it was when a position is set. -/
theorem exists_empty_error_at_end :
    let bytes := Utf8.encode "/*" ++ List.replicate (UInt32.size - 2) Ascii.space
    let stream := ofSource .permissive (.ofBytes bytes)
    let other := ofSource .strict (.ofBytes [0x24])
    (∃ e, stream.next.1 = .error e ∧ e.span.start.coords = e.span.limit.coords ∧
        stream.next.2.cursor.rest = []) ∧
      other.next.1 = .error ⟨.lexical (.unexpectedByte 0x24), .empty ⟨1, 1⟩⟩ ∧
      (other.next.2.setPos ⟨7, 7⟩).next.1 =
        .error ⟨.lexical (.unexpectedByte 0x24), .empty ⟨7, 7⟩⟩ := by
  have hnext := next_of_open_comment (UInt32.size - 2)
  refine ⟨⟨_, congrArg Prod.fst hnext, ?_, congrArg (·.2.cursor.rest) hnext⟩, ?_, ?_⟩
  · decide
  · decide +kernel
  · decide +kernel

end LexemeStream

end Netlist
