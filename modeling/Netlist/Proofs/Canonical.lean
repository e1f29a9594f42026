import Mathlib.Data.List.Induction
import Mathlib.Data.List.Perm.Subperm
import Netlist.Proofs.Shape
import Netlist.Proofs.Written

/-! # The right-hand sides of gates

Which tokens describe a gate (`Gate.IsRightHandSide`): a literal is a copy, an operator between two
literals a gate of two operands, and the OR of three terms a majority, if the terms are the three
pairs of its signals. The gate lists these in the order in which they are met first.

To recognise a majority the signals of its terms are counted. If each name keeps its polarity,
counting gives each signal with its count, in the order of first sight (`Gate.foldlM_sight`), and
the three pairs of three signals are what gives three counts of two. Main statement:
`Gate.ofLexemes_eq_ok_iff_isRightHandSide`. -/

namespace Netlist

/-! ### Lists without duplicates -/

theorem eraseDups_append_singleton {α : Type} [DecidableEq α] (l : List α) (a : α) :
    (l ++ [a]).eraseDups = if a ∈ l then l.eraseDups else l.eraseDups ++ [a] := by
  rw [List.eraseDups_append]
  split_ifs with h <;> simp [List.removeAll, h, List.eraseDups_cons]

theorem nodup_eraseDups {α : Type} [DecidableEq α] (l : List α) : l.eraseDups.Nodup := by
  induction l using List.reverseRecOn with
  | nil => simp
  | append_singleton l a ih =>
    rw [eraseDups_append_singleton]
    split_ifs with h
    · exact ih
    · simpa [List.nodup_append, ih] using fun b hb => ne_of_mem_of_not_mem hb h

namespace Gate

/-! ### Counting -/

/-- The signals in the order of first sight, each with its count. -/
def tally (signals : List Signal) : Sightings :=
  signals.eraseDups.map fun s => (s, signals.count s)

theorem sight_map {l : List Signal} (hl : l.Nodup) {s : Signal}
    (hname : ∀ t ∈ l, t.name = s.name → t = s) (f : Signal → Nat) :
    sight s (l.map fun t => (t, f t)) = .ok (if s ∈ l
      then l.map fun t => (t, if t = s then f t + 1 else f t)
      else l.map (fun t => (t, f t)) ++ [(s, 1)]) := by
  induction l with
  | nil => rfl
  | cons t l ih =>
    obtain ⟨ht, hl⟩ := List.nodup_cons.mp hl
    obtain ⟨hts, hname⟩ := List.forall_mem_cons.mp hname
    rw [List.map_cons, sight]
    by_cases hn : t.name = s.name
    · obtain rfl := hts hn
      have hrest : l.map (fun u => (u, if u = t then f u + 1 else f u)) = l.map fun u => (u, f u) :=
        List.map_congr_left fun u hu => by rw [if_neg (ne_of_mem_of_not_mem hu ht)]
      simp [hrest]
    · have hne : t ≠ s := fun he => hn (by rw [he])
      rw [if_neg hn, ih hl hname]
      by_cases hs : s ∈ l <;>
        simp [hs, hne, hne.symm, Bind.bind, Except.bind, Pure.pure, Except.pure]

/-- Each name keeps its polarity. -/
def Consistent (signals : List Signal) : Prop :=
  ∀ s ∈ signals, ∀ t ∈ signals, s.name = t.name → s = t

/-- **Counting** succeeds if each name keeps its polarity. -/
theorem foldlM_sight {signals : List Signal} (h : Consistent signals) :
    signals.foldlM (fun seen s => sight s seen) [] = .ok (tally signals) := by
  induction signals using List.reverseRecOn with
  | nil => rfl
  | append_singleton l s ih =>
    have hl : Consistent l := fun t ht u hu =>
      h t (List.mem_append_left _ ht) u (List.mem_append_left _ hu)
    have hname : ∀ t ∈ l.eraseDups, t.name = s.name → t = s := fun t ht =>
      h t (List.mem_append_left _ (List.mem_eraseDups.mp ht)) s (by simp)
    have hstep := sight_map (nodup_eraseDups l) hname (l.count ·)
    have hcount (t : Signal) : (l ++ [s]).count t = if t = s then l.count t + 1 else l.count t := by
      rw [List.count_append, List.count_singleton]
      by_cases ht : t = s
      · simp [ht]
      · simp [ht, Ne.symm ht]
    rw [List.foldlM_append, ih hl]
    change (sight s (tally l) >>= pure) = _
    rw [bind_pure, tally, hstep, tally, eraseDups_append_singleton]
    simp only [hcount, List.mem_eraseDups]
    split_ifs with hs
    · rfl
    · have hrest : l.eraseDups.map (fun t => (t, if t = s then l.count t + 1 else l.count t)) =
          l.eraseDups.map fun t => (t, l.count t) :=
        List.map_congr_left fun t ht => by
          rw [if_neg (ne_of_mem_of_not_mem (List.mem_eraseDups.mp ht) hs)]
      simp [hrest, List.count_eq_zero_of_not_mem hs]

theorem foldlM_sightTerm_terms {pairs : List (Signal × Signal)}
    (h : ∀ t ∈ pairs, t.1.name ≠ t.2.name) (seen : Sightings) :
    (pairs.map term).foldlM sightTerm seen =
      (pairSignals pairs).foldlM (fun seen s => sight s seen) seen := by
  induction pairs generalizing seen with
  | nil => rfl
  | cons t pairs ih =>
    obtain ⟨a, b⟩ := t
    obtain ⟨hne, h⟩ := List.forall_mem_cons.mp h
    have hterm : sightTerm seen (term (a, b)) = (sight a seen >>= sight b) := by
      rw [sightTerm, term, Expr.andPair?]
      exact if_neg hne
    have hsignals : pairSignals ((a, b) :: pairs) = a :: b :: pairSignals pairs := rfl
    rw [List.map_cons, List.foldlM_cons, hterm, hsignals, List.foldlM_cons, bind_assoc]
    simp only [ih h, List.foldlM_cons]

/-! ### The pairs of three signals -/

section Majority

variable {terms : List (Signal × Signal)} {a b c : Signal}

theorem IsMajority.nodup (h : IsMajority terms a b c) : [a, b, c].Nodup := by
  have hab : a ≠ b := fun he => h.ab_ne (by rw [he])
  have hac : a ≠ c := fun he => h.ac_ne (by rw [he])
  have hbc : b ≠ c := fun he => h.bc_ne (by rw [he])
  simp [hab, hac, hbc]

/-- Three terms that are the pairs of three signals are each pair once. -/
theorem IsMajority.perm (h : IsMajority terms a b c) (hlen : terms.length = 3) :
    (pairSignals terms).Perm (pairSignals [(a, b), (a, c), (b, c)]) := by
  have hnodup := h.nodup
  simp only [List.nodup_cons, List.mem_cons, List.not_mem_nil, or_false, not_or] at hnodup
  obtain ⟨⟨hab, hac⟩, hbc, -⟩ := hnodup
  have pick {a b : Signal} (h : (a, b) ∈ terms ∨ (b, a) ∈ terms) :
      ∃ x ∈ terms, x = (a, b) ∨ x = (b, a) :=
    h.elim (fun h => ⟨_, h, .inl rfl⟩) fun h => ⟨_, h, .inr rfl⟩
  obtain ⟨x, hx, hx'⟩ := pick h.ab
  obtain ⟨y, hy, hy'⟩ := pick h.ac
  obtain ⟨z, hz, hz'⟩ := pick h.bc
  have hxyz : [x, y, z].Nodup := by
    rcases hx' with rfl | rfl <;> rcases hy' with rfl | rfl <;> rcases hz' with rfl | rfl <;>
      simp [hab, hac, hbc, Ne.symm hab, Ne.symm hbc]
  have hperm : [x, y, z].Perm terms :=
    (List.subperm_of_subset hxyz (by simp [hx, hy, hz])).perm_of_length_le (by simp [hlen])
  have either {x : Signal × Signal} {a b : Signal} (hx : x = (a, b) ∨ x = (b, a)) :
      [x.1, x.2].Perm [a, b] := by
    rcases hx with rfl | rfl
    · exact .refl _
    · exact .swap _ _ _
  exact (hperm.symm.flatMap_right _).trans
    ((either hx').append ((either hy').append ((either hz').append .nil)))

theorem IsMajority.mem_iff (h : IsMajority terms a b c) (hlen : terms.length = 3) (s : Signal) :
    s ∈ pairSignals terms ↔ s ∈ [a, b, c] := by
  rw [(h.perm hlen).mem_iff]
  simp [pairSignals]
  tauto

theorem IsMajority.count_eq (h : IsMajority terms a b c) (hlen : terms.length = 3) {s : Signal}
    (hs : s ∈ pairSignals terms) : (pairSignals terms).count s = 2 := by
  have hnodup := h.nodup
  simp only [List.nodup_cons, List.mem_cons, List.not_mem_nil, or_false, not_or] at hnodup
  obtain ⟨⟨hab, hac⟩, hbc, -⟩ := hnodup
  rw [h.mem_iff hlen] at hs
  rw [(h.perm hlen).count_eq]
  simp only [List.mem_cons, List.not_mem_nil, or_false] at hs
  rcases hs with rfl | rfl | rfl <;>
    simp [pairSignals, hab, hac, hbc, Ne.symm hab, Ne.symm hac, Ne.symm hbc]

theorem IsMajority.consistent (h : IsMajority terms a b c) (hlen : terms.length = 3) :
    Consistent (pairSignals terms) := by
  intro s hs t ht he
  rw [h.mem_iff hlen] at hs ht
  have hab := h.ab_ne
  have hac := h.ac_ne
  have hbc := h.bc_ne
  simp only [List.mem_cons, List.not_mem_nil, or_false] at hs ht
  rcases hs with rfl | rfl | rfl <;> rcases ht with rfl | rfl | rfl <;> simp_all

end Majority

/-- **A majority is recognised** by its three terms, and lists its signals in the order of first
sight. -/
theorem ofTerms_of_isMajority {t u w : Signal × Signal} {a b c : Signal}
    (h : IsMajority [t, u, w] a b c) : ∃ x y z,
      (pairSignals [t, u, w]).eraseDups = [x, y, z] ∧
        ofTerms [term t, term u, term w] = .ok (.majority x y z) := by
  have hperm : (pairSignals [t, u, w]).eraseDups.Perm [a, b, c] :=
    (List.perm_ext_iff_of_nodup (nodup_eraseDups _) h.nodup).mpr fun s => by
      rw [List.mem_eraseDups, h.mem_iff rfl]
  obtain ⟨x, y, z, hxyz⟩ := List.length_eq_three.mp hperm.length_eq
  have hne : ∀ p ∈ [t, u, w], p.1.name ≠ p.2.name := fun p hp => by
    have hmem := h.mem p hp
    simp only [List.mem_cons, List.not_mem_nil, or_false] at hmem
    rcases hmem with rfl | rfl | rfl | rfl | rfl | rfl
    exacts [h.ab_ne, h.ab_ne.symm, h.ac_ne, h.ac_ne.symm, h.bc_ne, h.bc_ne.symm]
  have htally : tally (pairSignals [t, u, w]) = [(x, 2), (y, 2), (z, 2)] := by
    have hcount (s : Signal) (hs : s ∈ [x, y, z]) : (pairSignals [t, u, w]).count s = 2 :=
      h.count_eq rfl (List.mem_eraseDups.mp (hxyz ▸ hs))
    simp only [tally, hxyz, List.map_cons, List.map_nil, hcount x (by simp), hcount y (by simp),
      hcount z (by simp)]
  have hfold : [term t, term u, term w].foldlM sightTerm [] = .ok [(x, 2), (y, 2), (z, 2)] := by
    rw [← htally, ← foldlM_sight (h.consistent rfl), ← foldlM_sightTerm_terms hne]
    rfl
  refine ⟨x, y, z, hxyz, ?_⟩
  rw [ofTerms, hfold]
  rfl

/-! ### Right-hand sides -/

/-- A literal, which may stand in parentheses. -/
inductive IsWrapped : List Token → Signal → Prop
  | bare {ts : List Token} {s : Signal} : IsLiteral ts s → IsWrapped ts s
  | group {ts : List Token} {s : Signal} : IsLiteral ts s →
      IsWrapped (.punct .openParen :: (ts ++ [.punct .closeParen])) s

/-- The AND of two literals, in parentheses. -/
inductive IsTerm : List Token → Signal × Signal → Prop
  | intro {ts us : List Token} {a b : Signal} : IsLiteral ts a → IsLiteral us b →
      IsTerm (.punct .openParen :: (ts ++ .punct .amp :: us ++ [.punct .closeParen])) (a, b)

/-- The tokens are a right-hand side of the gate. -/
inductive IsRightHandSide : List Token → Gate → Prop
  | copy {ts : List Token} {a : Signal} : IsWrapped ts a → IsRightHandSide ts (.copy a)
  | binary {ts us : List Token} {a b : Signal} (op : BinOp) : IsWrapped ts a → IsWrapped us b →
      IsRightHandSide (ts ++ .punct op.punct :: us) (.binary op a b)
  /-- The terms are the three pairs of the signals, which are listed as they are met first. -/
  | majority {ts us ws : List Token} {t u w : Signal × Signal} {a b c : Signal} :
      IsTerm ts t → IsTerm us u → IsTerm ws w → IsMajority [t, u, w] a b c →
        [t.1, t.2, u.1, u.2, w.1, w.2].eraseDups = [a, b, c] →
          IsRightHandSide (ts ++ .punct .bar :: (us ++ .punct .bar :: ws)) (.majority a b c)

theorem isWrapped_iff {ts : List Token} {s : Signal} : IsWrapped ts s ↔
    ∃ e : Expr, e.wrappedLiteral? = some s ∧ ts.map Token.asSignal = e.written := by
  constructor
  · rintro (h | h)
    · exact ⟨.literal s, rfl, isLiteral_iff.mp h⟩
    · exact ⟨.group (.literal s), rfl,
        Expr.map_asSignal_eq_group_iff.mpr ⟨_, rfl, isLiteral_iff.mp h⟩⟩
  · rintro ⟨e, he, hts⟩
    rcases eq_of_wrappedLiteral? he with rfl | rfl
    · exact .bare (isLiteral_iff.mpr hts)
    · obtain ⟨us, rfl, hus⟩ := Expr.map_asSignal_eq_group_iff.mp hts
      exact .group (isLiteral_iff.mpr hus)

theorem isTerm_iff {ts : List Token} {t : Signal × Signal} :
    IsTerm ts t ↔ ts.map Token.asSignal = (term t).written := by
  constructor
  · rintro ⟨ha, hb⟩
    refine Expr.map_asSignal_eq_group_iff.mpr ⟨_, rfl, ?_⟩
    refine Expr.map_asSignal_eq_writtenChain_iff.mpr ⟨_, _, rfl, isLiteral_iff.mp ha, ?_⟩
    rw [Expr.writtenChain_singleton]
    exact isLiteral_iff.mp hb
  · intro h
    obtain ⟨inside, rfl, hinside⟩ := Expr.map_asSignal_eq_group_iff.mp h
    obtain ⟨us, ws, rfl, hus, hws⟩ := Expr.map_asSignal_eq_writtenChain_iff.mp hinside
    rw [Expr.writtenChain_singleton] at hws
    exact .intro (isLiteral_iff.mpr hus) (isLiteral_iff.mpr hws)

theorem isRegularOperand_of_wrappedLiteral? {e : Expr} {s : Signal}
    (h : e.wrappedLiteral? = some s) : e.IsRegularOperand maxGroupDepth := by
  rcases eq_of_wrappedLiteral? h with rfl | rfl
  · exact ⟨rfl, .literal s⟩
  · exact ⟨rfl, .group (.literal s)⟩

theorem ofExpr_of_wrappedLiteral? {e : Expr} {s : Signal} (h : e.wrappedLiteral? = some s) :
    ofExpr e = .ok (.copy s) := by
  rcases eq_of_wrappedLiteral? h with rfl | rfl <;> rfl

theorem isRegularOperand_term (t : Signal × Signal) :
    (term t).IsRegularOperand maxGroupDepth := by
  refine ⟨rfl, .group (.chain (Nat.le_refl 2) rfl ?_ ?_)⟩
  · simp [Expr.isOperand]
  · simp only [List.mem_cons, List.not_mem_nil, or_false]
    rintro _ (rfl | rfl) <;> exact .literal _

theorem regular_chain {operands : List Expr} {ops : List BinOp} (hlen : 2 ≤ operands.length)
    (hops : operands.length = ops.length + 1)
    (h : ∀ e ∈ operands, e.IsRegularOperand maxGroupDepth) :
    (Expr.chain operands ops).Regular maxGroupDepth :=
  .chain hlen hops (fun e he => (h e he).1) fun e he => (h e he).2

theorem IsRightHandSide.exists_expr {ts : List Token} {gate : Gate} (h : IsRightHandSide ts gate) :
    ∃ e : Expr, e.Regular maxGroupDepth ∧ ts.map Token.asSignal = e.written ∧
      ofExpr e = .ok gate := by
  cases h with
  | copy ha =>
    obtain ⟨e, he, hts⟩ := isWrapped_iff.mp ha
    exact ⟨e, (isRegularOperand_of_wrappedLiteral? he).2, hts, ofExpr_of_wrappedLiteral? he⟩
  | binary op ha hb =>
    obtain ⟨e, he, hts⟩ := isWrapped_iff.mp ha
    obtain ⟨f, hf, hus⟩ := isWrapped_iff.mp hb
    refine ⟨.chain [e, f] [op], regular_chain (Nat.le_refl 2) rfl ?_, ?_, ?_⟩
    · simp [isRegularOperand_of_wrappedLiteral? he, isRegularOperand_of_wrappedLiteral? hf]
    · refine Expr.map_asSignal_eq_writtenChain_iff.mpr ⟨_, _, rfl, hts, ?_⟩
      rw [Expr.writtenChain_singleton, hus]
    · change ofPair op e f = _
      rw [ofPair, he, hf]
  | @majority ts us ws t u w a b c ht hu hw hm horder =>
    refine ⟨.chain [term t, term u, term w] [.or, .or], regular_chain (by simp) rfl ?_, ?_, ?_⟩
    · simp [isRegularOperand_term]
    · refine Expr.map_asSignal_eq_writtenChain_iff.mpr ⟨_, _, rfl, isTerm_iff.mp ht, ?_⟩
      refine Expr.map_asSignal_eq_writtenChain_iff.mpr ⟨_, _, rfl, isTerm_iff.mp hu, ?_⟩
      rw [Expr.writtenChain_singleton]
      exact isTerm_iff.mp hw
    · obtain ⟨x, y, z, hxyz, hof⟩ := ofTerms_of_isMajority hm
      have hsame : [a, b, c] = [x, y, z] := horder.symm.trans hxyz
      cases hsame
      exact hof

theorem isRightHandSide_of_ofExpr {ts : List Token} {e : Expr} {gate : Gate}
    (hr : Expr.Reading [] [] none ts e) (h : ofExpr e = .ok gate) : IsRightHandSide ts gate := by
  have hd : Describes e gate := describes_of_ofExpr h fun operands ops he => by
    subst he
    exact Expr.length_of_reading hr
  have hts := Expr.map_asSignal_of_reading hr
  cases hd with
  | copy he => exact .copy (isWrapped_iff.mpr ⟨e, he, hts⟩)
  | binary op he hf =>
    obtain ⟨us, ws, rfl, hus, hws⟩ := Expr.map_asSignal_eq_writtenChain_iff.mp hts
    rw [Expr.writtenChain_singleton] at hws
    exact .binary op (isWrapped_iff.mpr ⟨_, he, hus⟩) (isWrapped_iff.mpr ⟨_, hf, hws⟩)
  | @majority t u w a b c hm =>
    obtain ⟨us, ts', rfl, hus, hts'⟩ := Expr.map_asSignal_eq_writtenChain_iff.mp hts
    obtain ⟨vs, ws, rfl, hvs, hws⟩ := Expr.map_asSignal_eq_writtenChain_iff.mp hts'
    rw [Expr.writtenChain_singleton] at hws
    obtain ⟨x, y, z, hxyz, hof⟩ := ofTerms_of_isMajority hm
    have hsame : majority x y z = majority a b c := Except.ok.inj (hof.symm.trans h)
    cases hsame
    exact .majority (isTerm_iff.mpr hus) (isTerm_iff.mpr hvs) (isTerm_iff.mpr hws) hm hxyz

theorem isRightHandSide_iff {ts : List Token} {gate : Gate} : IsRightHandSide ts gate ↔
    ∃ e, Expr.Reading [] [] none ts e ∧ ofExpr e = .ok gate := by
  constructor
  · intro h
    obtain ⟨e, hregular, hts, ho⟩ := h.exists_expr
    exact ⟨e, Expr.reading_iff.mpr ⟨hregular, hts⟩, ho⟩
  · rintro ⟨e, hr, ho⟩
    exact isRightHandSide_of_ofExpr hr ho

/-- **The right-hand sides of gates**: lexemes are accepted as a gate exactly if their tokens are a
right-hand side of it, wherever they stand. -/
theorem ofLexemes_eq_ok_iff_isRightHandSide (ls : List Lexeme) (limit : Span) (gate : Gate) :
    ofLexemes ls limit = .ok gate ↔ IsRightHandSide (ls.map Lexeme.token) gate :=
  ofLexemes_eq_ok_iff.trans isRightHandSide_iff.symm

end Gate

end Netlist
