import Netlist.Proofs.Value

/-! # The function of an expression

What an expression computes is told from its tree: groups change nothing, and in a chain `&` binds
closest, then `^`, then `|` (`Expr.value`; the laws are `Expr.chainValue_or`, `Expr.chainValue_xor`
and `Expr.chainValue_and`). Main statement: an expression that is recognised as a gate computes what
the gate does (`Gate.value_of_classify`). -/

namespace Netlist

namespace Expr

/-- Each chain has at least two operands, and one operator fewer. -/
inductive WellFormed : Expr → Prop
  | literal (s : Signal) : WellFormed (.literal s)
  | group {e : Expr} : WellFormed e → WellFormed (.group e)
  | chain {operands : List Expr} {ops : List BinOp} : 2 ≤ operands.length →
      operands.length = ops.length + 1 → (∀ e ∈ operands, WellFormed e) →
        WellFormed (.chain operands ops)

mutual

/-- The value of the expression, when names have the values `v`. -/
def value (v : String → Bool) : Expr → Bool
  | literal s => s.value v
  | group e => e.value v
  | chain operands ops => chainValue v {} operands ops

/-- The value of operands with operators between them, behind what stands before them. -/
def chainValue (v : String → Bool) (b : Before) : List Expr → List BinOp → Bool
  | [], _ => false
  | e :: _, [] => b.close (e.value v)
  | e :: es, op :: ops => chainValue v (b.next (e.value v) op) es ops

end

/-! ### Precedence -/

section Precedence

variable (v : String → Bool) {es fs : List Expr} {ops ops' : List BinOp}

theorem chainValue_before_or (x y z : Bool) (h : es.length = ops.length + 1) :
    chainValue v ⟨x, y, z⟩ es ops = (x || chainValue v ⟨false, y, z⟩ es ops) := by
  induction ops generalizing es x y z with
  | nil =>
    obtain ⟨e, rfl⟩ := List.length_eq_one_iff.mp h
    simp [chainValue, Before.close]
  | cons op ops ih =>
    obtain ⟨e, es, rfl⟩ := List.exists_cons_of_length_eq_add_one h
    have hlen : es.length = ops.length + 1 := by simpa using h
    cases op with
    | and | xor => exact ih x _ _ hlen
    | or =>
      have hx := ih (x || (y ^^ (z && e.value v))) false true hlen
      have hy := ih (false || (y ^^ (z && e.value v))) false true hlen
      rw [Bool.or_assoc] at hx
      rw [Bool.false_or] at hy
      exact hx.trans (congrArg (x || ·) hy.symm)

/-- Where no `|` follows, what stands before the last `^` is joined by it. -/
theorem chainValue_before_xor (y z : Bool) (h : es.length = ops.length + 1) (hops : .or ∉ ops) :
    chainValue v ⟨false, y, z⟩ es ops = (y ^^ chainValue v ⟨false, false, z⟩ es ops) := by
  induction ops generalizing es y z with
  | nil =>
    obtain ⟨e, rfl⟩ := List.length_eq_one_iff.mp h
    simp [chainValue, Before.close]
  | cons op ops ih =>
    obtain ⟨e, es, rfl⟩ := List.exists_cons_of_length_eq_add_one h
    have hlen : es.length = ops.length + 1 := by simpa using h
    obtain ⟨hop, hrest⟩ := not_or.mp (mt List.mem_cons.mpr hops)
    cases op with
    | and => exact ih y _ hlen hrest
    | xor =>
      have hx := ih (y ^^ (z && e.value v)) true hlen hrest
      have hy := ih (false ^^ (z && e.value v)) true hlen hrest
      rw [Bool.xor_assoc] at hx hy
      rw [Bool.false_xor (_ ^^ _)] at hy
      exact hx.trans (congrArg (y ^^ ·) hy.symm)
    | or => exact absurd rfl hop

/-- `|` binds loosest: it joins the values of what stands on its two sides. -/
theorem chainValue_or (b : Before) (he : es.length = ops.length + 1)
    (hf : fs.length = ops'.length + 1) : chainValue v b (es ++ fs) (ops ++ .or :: ops') =
      (chainValue v b es ops || chainValue v {} fs ops') := by
  induction ops generalizing es b with
  | nil =>
    obtain ⟨e, rfl⟩ := List.length_eq_one_iff.mp he
    exact chainValue_before_or v _ _ _ hf
  | cons op ops ih =>
    obtain ⟨e, es, rfl⟩ := List.exists_cons_of_length_eq_add_one he
    exact ih _ (by simpa using he)

/-- `^` binds closer than `|`: where no `|` follows, it joins the values of what stands on its two
sides. -/
theorem chainValue_xor (y z : Bool) (he : es.length = ops.length + 1)
    (hf : fs.length = ops'.length + 1) (hops : .or ∉ ops) (hops' : .or ∉ ops') :
    chainValue v ⟨false, y, z⟩ (es ++ fs) (ops ++ .xor :: ops') =
      (chainValue v ⟨false, y, z⟩ es ops ^^ chainValue v {} fs ops') := by
  induction ops generalizing es y z with
  | nil =>
    obtain ⟨e, rfl⟩ := List.length_eq_one_iff.mp he
    exact chainValue_before_xor v (y ^^ (z && e.value v)) true hf hops'
  | cons op ops ih =>
    obtain ⟨e, es, rfl⟩ := List.exists_cons_of_length_eq_add_one he
    obtain ⟨hop, hrest⟩ := not_or.mp (mt List.mem_cons.mpr hops)
    cases op with
    | and | xor => exact ih _ _ (by simpa using he) hrest
    | or => exact absurd rfl hop

/-- `&` binds closest. -/
theorem chainValue_and (z : Bool) (h : es.length = ops.length + 1) (hops : ∀ op ∈ ops, op = .and) :
    chainValue v ⟨false, false, z⟩ es ops = (z && es.all (·.value v)) := by
  induction ops generalizing es z with
  | nil =>
    obtain ⟨e, rfl⟩ := List.length_eq_one_iff.mp h
    simp [chainValue, Before.close]
  | cons op ops ih =>
    obtain ⟨e, es, rfl⟩ := List.exists_cons_of_length_eq_add_one h
    obtain ⟨rfl, hrest⟩ := List.forall_mem_cons.mp hops
    have hx := ih (z && e.value v) (by simpa using h) hrest
    rw [Bool.and_assoc] at hx
    exact hx

/-! ### Expressions of gates -/

theorem chainValue_singleton (e : Expr) : chainValue v {} [e] [] = e.value v :=
  (chainValue_and v true rfl (by simp)).trans (by simp)

theorem chainValue_pair (e f : Expr) (op : BinOp) :
    chainValue v {} [e, f] [op] = op.value (e.value v) (f.value v) := by
  have one (e : Expr) : [e].length = ([] : List BinOp).length + 1 := rfl
  cases op with
  | and => exact (chainValue_and v true rfl (by simp)).trans (by simp [BinOp.value])
  | or =>
    have h := chainValue_or v {} (one e) (one f)
    rwa [chainValue_singleton, chainValue_singleton] at h
  | xor =>
    have h := chainValue_xor v false true (one e) (one f) (by simp) (by simp)
    rwa [chainValue_singleton, chainValue_singleton] at h

theorem chainValue_triple (e f g : Expr) :
    chainValue v {} [e, f, g] [.or, .or] = (e.value v || f.value v || g.value v) := by
  have two : [e, f].length = [BinOp.or].length + 1 := rfl
  have one : [g].length = ([] : List BinOp).length + 1 := rfl
  have h := chainValue_or v {} two one
  rwa [chainValue_pair, chainValue_singleton] at h

end Precedence

theorem value_of_wrappedLiteral? {e : Expr} {s : Signal} (h : e.wrappedLiteral? = some s)
    (v : String → Bool) : e.value v = s.value v := by
  rcases Gate.eq_of_wrappedLiteral? h with rfl | rfl
  · rw [value]
  · rw [value, value]

theorem wellFormed_term (t : Signal × Signal) : (Gate.term t).WellFormed :=
  .group (.chain (Nat.le_refl 2) rfl (by simp [WellFormed.literal]))

theorem value_term (t : Signal × Signal) (v : String → Bool) :
    (Gate.term t).value v = (t.1.value v && t.2.value v) := by
  rw [Gate.term, value, value, chainValue_pair, value, value, BinOp.value]

end Expr

namespace Gate

theorem value_majority_iff (a b c : Signal) (v : String → Bool) :
    (majority a b c).value v = true ↔ 2 ≤ [a, b, c].countP (·.value v) := by
  cases ha : a.value v <;> cases hb : b.value v <;> cases hc : c.value v <;>
    simp [value, ha, hb, hc]

theorem Describes.value_eq {e : Expr} {gate : Gate} (h : Describes e gate) (v : String → Bool) :
    e.value v = gate.value v := by
  cases h with
  | copy ha => exact Expr.value_of_wrappedLiteral? ha v
  | binary op ha hb =>
    rw [Expr.value, Expr.chainValue_pair, Expr.value_of_wrappedLiteral? ha,
      Expr.value_of_wrappedLiteral? hb, value]
  | @majority t u w a b c hm =>
    have hany := hm.any_and (·.value v)
    simp only [List.any_cons, List.any_nil, Bool.or_false] at hany
    rw [Expr.value, Expr.chainValue_triple, Expr.value_term, Expr.value_term, Expr.value_term,
      Bool.or_assoc, hany, value]

/-- **An expression computes what its gate does**: whatever the values of names, the expression has
the value of the gate that it is recognised as. A majority is true where at least two of its three
signals are. -/
theorem value_of_classify {e : Expr} (he : e.WellFormed) {span : Span} {gate : Gate}
    (h : classify e span = .ok gate) (v : String → Bool) :
    e.value v = gate.value v ∧ ∀ a b c, gate = .majority a b c →
      (e.value v = true ↔ 2 ≤ [a, b, c].countP (·.value v)) := by
  have ho : ofExpr e = .ok gate := by
    unfold classify at h
    split at h
    · rename_i ho
      rw [ho, Except.ok.inj h]
    · cases h
  have hd : Describes e gate := describes_of_ofExpr ho fun operands ops hc => by
    subst hc
    cases he with
    | chain _ hlen _ => exact hlen
  have hv : e.value v = gate.value v := hd.value_eq v
  refine ⟨hv, fun a b c hg => ?_⟩
  rw [hv, hg]
  exact value_majority_iff a b c v

/-- The majority of `b`, `~c` and `~a`, with the terms and the operands in them out of order. -/
def permuted : Expr :=
  .chain [term (⟨"b", false⟩, ⟨"c", true⟩), term (⟨"a", true⟩, ⟨"c", true⟩),
    term (⟨"a", true⟩, ⟨"b", false⟩)] [.or, .or]

theorem permuted_wellFormed : permuted.WellFormed :=
  .chain (by decide) rfl (by simp [Expr.wellFormed_term])

/-- Where only `a` is true, one of the three signals is inverted to true, which is too few. -/
theorem value_of_classify_permuted :
    permuted.WellFormed ∧
      classify permuted default = .ok (.majority ⟨"b", false⟩ ⟨"c", true⟩ ⟨"a", true⟩) ∧
      permuted.value (· = "a") = false :=
  have h : classify permuted default = .ok (.majority ⟨"b", false⟩ ⟨"c", true⟩ ⟨"a", true⟩) := by
    rfl
  ⟨permuted_wellFormed, h, (value_of_classify permuted_wellFormed h (· = "a")).1.trans (by decide)⟩

end Gate

end Netlist
