import Mathlib.Data.List.Nodup
import Netlist.Proofs.Reading

/-! # The shapes of gates

Which expressions are recognised as which gates (`Gate.Describes`). A majority is recognised by
counting how often each signal was seen (`Gate.Tallies`); its three terms then are the three pairs
of three signals (`Gate.IsMajority`). -/

namespace Netlist

namespace Gate

/-! ### Sightings -/

/-- The sightings are those of the signals, each by its name and with its count. -/
structure Tallies (signals : List Signal) (seen : Sightings) : Prop where
  nodup : (seen.map (·.1.name)).Nodup
  mem_iff : ∀ s n, (s, n) ∈ seen ↔ s ∈ signals ∧ n = signals.count s

theorem tallies_nil : Tallies [] [] := ⟨List.nodup_nil, by simp⟩

theorem sight_eq_ok {s : Signal} {seen seen' : Sightings} (h : sight s seen = .ok seen') :
    (∃ before n after, seen = before ++ (s, n) :: after ∧
        seen' = before ++ (s, n + 1) :: after) ∨
      (∀ t ∈ seen, t.1.name ≠ s.name) ∧ seen' = seen ++ [(s, 1)] := by
  induction seen generalizing seen' with
  | nil =>
    cases h
    exact .inr ⟨by simp, rfl⟩
  | cons p rest ih =>
    obtain ⟨t, n⟩ := p
    rw [sight] at h
    split_ifs at h with hname hneg
    · cases h
      have ht : t = s := by
        cases t; cases s
        simp_all
      exact .inl ⟨[], n, rest, by rw [ht]; rfl, by rw [ht]; rfl⟩
    · rcases hr : sight s rest with e | seen''
      · simp [hr, Bind.bind, Except.bind] at h
      · simp only [hr, Bind.bind, Except.bind, Pure.pure, Except.pure, Except.ok.injEq] at h
        subst h
        rcases ih hr with ⟨before, m, after, rfl, rfl⟩ | ⟨hall, rfl⟩
        · exact .inl ⟨(t, n) :: before, m, after, rfl, rfl⟩
        · exact .inr ⟨List.forall_mem_cons.mpr ⟨hname, hall⟩, rfl⟩

theorem Tallies.sight {signals : List Signal} {s : Signal} {seen seen' : Sightings}
    (ht : Tallies signals seen) (h : sight s seen = .ok seen') :
    Tallies (signals ++ [s]) seen' := by
  obtain ⟨hnodup, hmem⟩ := ht
  rcases sight_eq_ok h with ⟨before, n, after, rfl, rfl⟩ | ⟨hall, rfl⟩
  · refine ⟨by simpa using hnodup, fun t m => ?_⟩
    have hn : s ∈ signals ∧ n = signals.count s := (hmem s n).mp (by simp)
    by_cases hts : t = s
    · subst hts
      -- the name stands nowhere else in the sightings
      have hother : ∀ k, (t, k) ∉ before ∧ (t, k) ∉ after := fun k => by
        simp only [List.map_append, List.map_cons, List.nodup_append, List.nodup_cons,
          List.mem_map, List.mem_cons] at hnodup
        exact ⟨fun hk => hnodup.2.2 t.name ⟨_, hk, rfl⟩ t.name (.inl rfl) rfl,
          fun hk => hnodup.2.1.1 ⟨_, hk, rfl⟩⟩
      simp [hother m, List.count_append, ← hn.2]
    · have := hmem t m
      simp only [List.mem_append, List.mem_cons, Prod.mk.injEq, hts, false_and, false_or] at this ⊢
      rw [this]
      simp [List.count_append, Ne.symm hts]
  · have hs : s ∉ signals := fun hs => hall _ ((hmem s _).mpr ⟨hs, rfl⟩) rfl
    refine ⟨?_, fun t m => ?_⟩
    · rw [List.map_append, List.nodup_append]
      refine ⟨hnodup, by simp, fun x hx y hy => ?_⟩
      obtain ⟨t, ht, rfl⟩ := List.mem_map.mp hx
      obtain rfl : y = s.name := by simpa using hy
      exact hall t ht
    · rw [List.mem_append, hmem]
      by_cases hts : t = s
      · subst hts
        simp [hs, List.count_append, List.count_eq_zero_of_not_mem hs]
      · simp [hts, List.count_append, Ne.symm hts]

/-- The signals of terms, each a pair. -/
def pairSignals (terms : List (Signal × Signal)) : List Signal :=
  terms.flatMap fun t => [t.1, t.2]

theorem mem_pairSignals {terms : List (Signal × Signal)} {t : Signal × Signal} (h : t ∈ terms) :
    t.1 ∈ pairSignals terms ∧ t.2 ∈ pairSignals terms :=
  ⟨List.mem_flatMap.mpr ⟨t, h, by simp⟩, List.mem_flatMap.mpr ⟨t, h, by simp⟩⟩

/-- Terms whose signals could be counted are pairs of different names. -/
theorem foldlM_sightTerm {terms : List Expr} {seen seen' : Sightings}
    (h : terms.foldlM sightTerm seen = .ok seen') :
    ∃ pairs : List (Signal × Signal), terms.map Expr.andPair? = pairs.map some ∧
      (∀ t ∈ pairs, t.1.name ≠ t.2.name) ∧ ∀ signals, Tallies signals seen →
        Tallies (signals ++ pairSignals pairs) seen' := by
  induction terms generalizing seen with
  | nil =>
    cases h
    exact ⟨[], rfl, by simp, fun signals ht => by simpa [pairSignals] using ht⟩
  | cons term terms ih =>
    rw [List.foldlM_cons] at h
    rcases hs : sightTerm seen term with e | seen₂
    · simp [hs, Bind.bind, Except.bind] at h
    · simp only [hs, Bind.bind, Except.bind] at h
      obtain ⟨pairs, hpairs, hne, ht⟩ := ih h
      unfold sightTerm at hs
      split at hs
      · cases hs
      · rename_i a b hab
        split_ifs at hs with hname
        rcases ha : sight a seen with e | seen₁
        · simp [ha, Bind.bind, Except.bind] at hs
        · simp only [ha, Bind.bind, Except.bind] at hs
          refine ⟨(a, b) :: pairs, by simp [hab, hpairs], List.forall_mem_cons.mpr ⟨hname, hne⟩,
            fun signals hsig => ?_⟩
          have h2 := ht _ ((hsig.sight ha).sight hs)
          simpa [pairSignals] using h2

/-! ### Majorities -/

/-- The terms are the pairs of three signals with different names. -/
structure IsMajority (terms : List (Signal × Signal)) (a b c : Signal) : Prop where
  ab_ne : a.name ≠ b.name
  ac_ne : a.name ≠ c.name
  bc_ne : b.name ≠ c.name
  mem : ∀ t ∈ terms, t ∈ [(a, b), (b, a), (a, c), (c, a), (b, c), (c, b)]
  ab : (a, b) ∈ terms ∨ (b, a) ∈ terms
  ac : (a, c) ∈ terms ∨ (c, a) ∈ terms
  bc : (b, c) ∈ terms ∨ (c, b) ∈ terms

/-- A signal that is seen less often than there are terms is missing in one of them. -/
theorem exists_term_without {terms : List (Signal × Signal)} {a : Signal}
    (h : (pairSignals terms).count a < terms.length) : ∃ t ∈ terms, t.1 ≠ a ∧ t.2 ≠ a := by
  induction terms with
  | nil => simp at h
  | cons t terms ih =>
    by_cases ht : t.1 ≠ a ∧ t.2 ≠ a
    · exact ⟨t, List.mem_cons_self, ht⟩
    · have hone : 1 ≤ [t.1, t.2].count a := by
        rw [Nat.one_le_iff_ne_zero, Ne, List.count_eq_zero]
        simp only [List.mem_cons, List.not_mem_nil, or_false, eq_comm (a := a)]
        tauto
      rw [pairSignals, List.flatMap_cons, List.count_append, List.length_cons] at h
      obtain ⟨u, hu, hne⟩ := ih (by rw [pairSignals]; omega)
      exact ⟨u, List.mem_cons_of_mem _ hu, hne⟩

theorem mem_of_count_lt {terms : List (Signal × Signal)} {a b s : Signal}
    (hcount : (pairSignals terms).count s < terms.length)
    (hne : ∀ t ∈ terms, t.1.name ≠ t.2.name)
    (hall : ∀ x ∈ pairSignals terms, x = s ∨ x = a ∨ x = b) :
    (a, b) ∈ terms ∨ (b, a) ∈ terms := by
  obtain ⟨⟨x, y⟩, ht, hx, hy⟩ := exists_term_without hcount
  have hxy : x ≠ y := fun he => hne _ ht (by rw [he])
  rcases (hall x (mem_pairSignals ht).1).resolve_left hx with rfl | rfl <;>
    rcases (hall y (mem_pairSignals ht).2).resolve_left hy with rfl | rfl
  · exact absurd rfl hxy
  · exact .inl ht
  · exact .inr ht
  · exact absurd rfl hxy

theorem isMajority_of_tallies {terms : List (Signal × Signal)} {a b c : Signal}
    (hlen : terms.length = 3) (hne : ∀ t ∈ terms, t.1.name ≠ t.2.name)
    (ht : Tallies (pairSignals terms) [(a, 2), (b, 2), (c, 2)]) : IsMajority terms a b c := by
  obtain ⟨hnodup, hmem⟩ := ht
  simp only [List.map_cons, List.map_nil, List.nodup_cons, List.mem_cons, List.not_mem_nil,
    or_false, not_or] at hnodup
  have hall : ∀ s ∈ pairSignals terms, s = a ∨ s = b ∨ s = c := fun s hs => by
    have := (hmem s _).mpr ⟨hs, rfl⟩
    simp only [List.mem_cons, Prod.mk.injEq, List.not_mem_nil, or_false] at this
    tauto
  -- each signal is seen twice, so it is missing in one of the three terms
  have hcount (s : Signal) (hs : (s, 2) ∈ [(a, 2), (b, 2), (c, 2)]) :
      (pairSignals terms).count s < terms.length := by
    have := ((hmem s 2).mp hs).2
    omega
  refine ⟨hnodup.1.1, hnodup.1.2, hnodup.2.1, ?_, mem_of_count_lt (hcount c (by simp)) hne ?_,
    mem_of_count_lt (hcount b (by simp)) hne ?_, mem_of_count_lt (hcount a (by simp)) hne hall⟩
  · rintro ⟨x, y⟩ h
    have hxy : x ≠ y := fun he => hne _ h (by rw [he])
    have hx := hall x (mem_pairSignals h).1
    have hy := hall y (mem_pairSignals h).2
    rcases hx with rfl | rfl | rfl <;> rcases hy with rfl | rfl | rfl <;>
      first | exact absurd rfl hxy | simp
  · exact fun x hx => by have := hall x hx; tauto
  · exact fun x hx => by have := hall x hx; tauto

/-! ### Expressions of gates -/

/-- The group that is a term of a majority. -/
def term (t : Signal × Signal) : Expr := .group (.chain [.literal t.1, .literal t.2] [.and])

/-- The expression is one of the gate. -/
inductive Describes : Expr → Gate → Prop
  | copy {e : Expr} {a : Signal} : e.wrappedLiteral? = some a → Describes e (.copy a)
  | binary {e f : Expr} {a b : Signal} (op : BinOp) :
      e.wrappedLiteral? = some a → f.wrappedLiteral? = some b →
        Describes (.chain [e, f] [op]) (.binary op a b)
  | majority {t u w : Signal × Signal} {a b c : Signal} : IsMajority [t, u, w] a b c →
      Describes (.chain [term t, term u, term w] [.or, .or]) (.majority a b c)

theorem eq_of_wrappedLiteral? {e : Expr} {s : Signal} (h : e.wrappedLiteral? = some s) :
    e = .literal s ∨ e = .group (.literal s) := by
  unfold Expr.wrappedLiteral? at h
  split at h <;> cases h
  · exact .inl rfl
  · exact .inr rfl

theorem eq_of_andPair? {e : Expr} {t : Signal × Signal} (h : e.andPair? = some t) :
    e = term t := by
  unfold Expr.andPair? at h
  split at h <;> cases h
  rfl

theorem describes_of_ofTerms {terms : List Expr} {gate : Gate} (hlen : terms.length = 3)
    (h : ofTerms terms = .ok gate) : Describes (.chain terms [.or, .or]) gate := by
  unfold ofTerms at h
  rcases hs : terms.foldlM sightTerm [] with e | seen
  · simp [hs, Bind.bind, Except.bind] at h
  · simp only [hs, Bind.bind, Except.bind] at h
    split at h
    · rename_i a b c
      cases h
      obtain ⟨pairs, hpairs, hne, ht⟩ := foldlM_sightTerm hs
      have hlen' : pairs.length = 3 := by
        have hmap := congrArg List.length hpairs
        rwa [List.length_map, List.length_map, hlen, eq_comm] at hmap
      have hm := isMajority_of_tallies hlen' hne (ht [] tallies_nil)
      obtain ⟨t, u, w, rfl⟩ := List.length_eq_three.mp hlen'
      obtain ⟨x, y, z, rfl⟩ := List.length_eq_three.mp hlen
      simp only [List.map_cons, List.map_nil, List.cons.injEq, and_true] at hpairs
      rw [eq_of_andPair? hpairs.1, eq_of_andPair? hpairs.2.1, eq_of_andPair? hpairs.2.2]
      exact .majority hm
    · cases h

/-- **An expression is recognised as a gate only if it is one of the gate.** -/
theorem describes_of_ofExpr {e : Expr} {gate : Gate} (h : ofExpr e = .ok gate)
    (hlen : ∀ operands ops, e = .chain operands ops → operands.length = ops.length + 1) :
    Describes e gate := by
  unfold ofExpr at h
  split at h
  · rename_i a ha
    cases h
    exact .copy ha
  · split at h
    · rename_i x y op hnone
      unfold ofPair at h
      split at h
      · rename_i a b ha hb
        cases h
        exact .binary op ha hb
      · cases h
    · rename_i x y z ops hnone
      split_ifs at h with hops
      have hl := hlen _ _ rfl
      obtain ⟨op, op', rfl⟩ : ∃ op op', ops = [op, op'] :=
        List.length_eq_two.mp (by simpa using hl.symm)
      simp only [List.all_cons, List.all_nil, Bool.and_true, Bool.and_eq_true,
        decide_eq_true_eq] at hops
      obtain ⟨rfl, rfl⟩ := hops
      exact describes_of_ofTerms rfl h
    · cases h
    · cases h

/-- The signals of the gate, in their order. -/
def signals : Gate → List Signal
  | copy a => [a]
  | binary _ a b => [a, b]
  | majority a b c => [a, b, c]

theorem Describes.mem_written {e : Expr} {gate : Gate} (h : Describes e gate) {s : Signal}
    (hs : s ∈ gate.signals) : Token.escaped s.name ∈ e.written := by
  have wrapped {e : Expr} {s : Signal} (h : e.wrappedLiteral? = some s) :
      Token.escaped s.name ∈ e.written := by
    rcases eq_of_wrappedLiteral? h with rfl | rfl <;> simp [Expr.written, Signal.mem_written]
  have pair {t : Signal × Signal} (hs : s = t.1 ∨ s = t.2) :
      Token.escaped s.name ∈ (term t).written := by
    rcases hs with rfl | rfl <;> simp [term, Expr.written, Expr.writtenChain, Signal.mem_written]
  cases h with
  | copy ha =>
    obtain rfl := List.mem_singleton.mp hs
    exact wrapped ha
  | binary op ha hb =>
    simp only [signals, List.mem_cons, List.not_mem_nil, or_false] at hs
    rcases hs with rfl | rfl
    · simp [Expr.written, Expr.writtenChain, wrapped ha]
    · simp [Expr.written, Expr.writtenChain, wrapped hb]
  | @majority t u w a b c hm =>
    have first {a b : Signal} (h : (a, b) ∈ [t, u, w] ∨ (b, a) ∈ [t, u, w]) :
        ∃ x ∈ [t, u, w], a = x.1 ∨ a = x.2 := by
      rcases h with h | h
      · exact ⟨_, h, .inl rfl⟩
      · exact ⟨_, h, .inr rfl⟩
    have hs : ∃ x ∈ [t, u, w], s = x.1 ∨ s = x.2 := by
      simp only [signals, List.mem_cons, List.not_mem_nil, or_false] at hs
      rcases hs with rfl | rfl | rfl
      · exact first hm.ab
      · exact first hm.ab.symm
      · exact first hm.ac.symm
    obtain ⟨x, hx, hs⟩ := hs
    simp only [List.mem_cons, List.not_mem_nil, or_false] at hx
    rcases hx with rfl | rfl | rfl <;>
      simp [Expr.written, Expr.writtenChain, pair hs]

/-- **The right-hand side of a gate** is a written expression of it. -/
theorem describes_of_ofLexemes {ls : List Lexeme} {limit : Span} {gate : Gate}
    (h : ofLexemes ls limit = .ok gate) :
    ∃ e, Describes e gate ∧ (ls.map Lexeme.token).map Token.asSignal = e.written := by
  obtain ⟨e, hr, ho⟩ := ofLexemes_eq_ok_iff.mp h
  refine ⟨e, describes_of_ofExpr ho fun operands ops he => ?_, Expr.map_asSignal_of_reading hr⟩
  subst he
  exact Expr.length_of_reading hr

end Gate

end Netlist
