import Netlist.Proofs.Function
import Netlist.Proofs.Positional
import Netlist.Proofs.Written

/-! # All accesses are in range

A gate can be recognised by position as well: the operands and the operator of a chain are looked
up, and so are the signals of a majority in the table of those that were seen. What keeps these
accesses in range is the shape of the expression, in which each chain has at least two operands and
one operator fewer (`Expr.WellFormed`), and the counts in the table. An expression that was read has
that shape. Main statement: `Positional.accesses_inRange`. -/

namespace Netlist

theorem Expr.Regular.wellFormed {depth : Nat} {e : Expr} (h : e.Regular depth) : e.WellFormed := by
  induction h with
  | literal s => exact .literal s
  | group _ ih => exact .group ih
  | chain hlen hops _ _ ih => exact .chain hlen hops ih

namespace Checked

variable {ε α β : Type}

theorem inRange_bind (r : Except ε α) (f : α → Except ε β) :
    (inRange r >>= fun a => inRange (f a)) = inRange (r >>= f) := by
  cases r <;> rfl

theorem foldlM_inRange {f : β → α → Checked ε β} {g : β → α → Except ε β} {xs : List α}
    (h : ∀ x ∈ xs, ∀ s, f s x = inRange (g s x)) (s : β) :
    xs.foldlM f s = inRange (xs.foldlM g s) := by
  induction xs generalizing s with
  | nil => rfl
  | cons x xs ih =>
    obtain ⟨hx, hxs⟩ := List.forall_mem_cons.mp h
    rw [List.foldlM_cons, List.foldlM_cons, hx, ← inRange_bind]
    simp only [ih hxs]

end Checked

namespace Positional

open Checked

/-! ### Recognising a gate -/

/-- The two signals of a parenthesized AND of two literals. -/
def andPair : Expr → Checked PatternError (Option (Signal × Signal))
  | .group (.chain operands ops) =>
    if ops = [.and] then do
      match ← get operands 0, ← get operands 1 with
      | .literal a, .literal b => return some (a, b)
      | _, _ => return none
    else return none
  | _ => return none

/-- Counts the signals of one term of a majority. -/
def sightTerm (seen : Gate.Sightings) (term : Expr) : Checked PatternError Gate.Sightings := do
  match ← andPair term with
  | none => throw .compoundTerm
  | some (a, b) =>
    if a.name = b.name then throw (.selfPair a.name)
    else inRange (do Gate.sight b (← Gate.sight a seen))

/-- The majority gate that is the OR of the terms: three signals, each in two of the terms. -/
def ofTerms (terms : List Expr) : Checked PatternError Gate := do
  let seen ← terms.foldlM sightTerm []
  if seen.length ≠ 3 ∨ seen.any (·.2 ≠ 2) then throw .notMajority
  else return .majority (← get seen 0).1 (← get seen 1).1 (← get seen 2).1

/-- The gate of two operands, each a literal that may stand in parentheses. -/
def ofPair (operands : List Expr) (ops : List BinOp) : Checked PatternError Gate := do
  match (← get operands 0).wrappedLiteral?, (← get operands 1).wrappedLiteral? with
  | some a, some b => return .binary (← get ops 0) a b
  | _, _ => throw .compoundOperands

/-- The gate that the expression describes. -/
def ofExpr (e : Expr) : Checked PatternError Gate :=
  match e.wrappedLiteral? with
  | some a => return .copy a
  | none =>
    match e with
    | .chain operands ops =>
      match operands.length with
      | 2 => ofPair operands ops
      | 3 => if ops.all (· = .or) then ofTerms operands else throw .mixedTriple
      | n => throw (.operandCount n)
    | _ => throw .misplacedGroup

/-- The gate that the expression describes, or the error for the stretch of text it stands in. -/
def classify (e : Expr) (span : Span) : Checked ReadError Gate :=
  (ofExpr e).adapt fun p => ⟨.pattern p, span⟩

/-- The gate that the lexemes describe. `limit` is the place just after them. -/
def gate (ls : List Lexeme) (limit : Span) : Checked ReadError Gate := do
  classify (← expr ls limit) (Span.ofLexemes ls limit)

/-! ### Its accesses -/

/-- A term is looked at where its only operator is `&`, so it has two operands. -/
theorem andPair_eq {e : Expr} (h : e.WellFormed) : andPair e = pure e.andPair? := by
  match e, h with
  | .literal _, _ => rfl
  | .chain _ _, _ => rfl
  | .group (.literal _), _ => rfl
  | .group (.group _), _ => rfl
  | .group (.chain operands ops), .group (.chain _ hlen _) =>
    by_cases hops : ops = [.and]
    · subst hops
      obtain ⟨x, y, rfl⟩ := List.length_eq_two.mp hlen
      cases x <;> cases y <;> rfl
    · rw [andPair, if_neg hops, Expr.andPair?]
      rintro a b ⟨⟩
      exact hops rfl

theorem sightTerm_eq {term : Expr} (h : term.WellFormed) (seen : Gate.Sightings) :
    sightTerm seen term = inRange (Gate.sightTerm seen term) := by
  rw [sightTerm, andPair_eq h, pure_bind, Gate.sightTerm]
  cases term.andPair? with
  | none => rfl
  | some t =>
    obtain ⟨a, b⟩ := t
    by_cases hname : a.name = b.name
    · simp only [if_pos hname]
      rfl
    · simp only [if_neg hname]

theorem exists_eq_of_counts {seen : Gate.Sightings} (hlen : seen.length = 3)
    (hcount : ∀ x ∈ seen, x.2 = 2) : ∃ a b c, seen = [(a, 2), (b, 2), (c, 2)] := by
  obtain ⟨⟨a, k⟩, ⟨b, m⟩, ⟨c, n⟩, rfl⟩ := List.length_eq_three.mp hlen
  simp only [List.forall_mem_cons] at hcount
  obtain ⟨rfl, rfl, rfl, -⟩ := hcount
  exact ⟨a, b, c, rfl⟩

theorem ofTerms_eq {terms : List Expr} (h : ∀ t ∈ terms, t.WellFormed) :
    ofTerms terms = inRange (Gate.ofTerms terms) := by
  rw [ofTerms, foldlM_inRange fun t ht seen => sightTerm_eq (h t ht) seen, Gate.ofTerms,
    ← inRange_bind]
  refine congrArg _ (funext fun seen => ?_)
  split
  · rename_i hrefused
    split
    · simp at hrefused
    · rfl
  · rename_i hcounts
    have hlen : seen.length = 3 := by
      by_contra hne
      exact hcounts (.inl hne)
    obtain ⟨a, b, c, rfl⟩ := exists_eq_of_counts hlen (by simpa [hlen] using hcounts)
    rfl

theorem ofPair_eq (x y : Expr) (op : BinOp) :
    ofPair [x, y] [op] = inRange (Gate.ofPair op x y) := by
  have hx : get (ε := PatternError) [x, y] 0 = pure x := rfl
  have hy : get (ε := PatternError) [x, y] 1 = pure y := rfl
  rw [ofPair, hx, hy, pure_bind, pure_bind, Gate.ofPair]
  cases x.wrappedLiteral? <;> cases y.wrappedLiteral? <;> rfl

theorem ofExpr_eq {e : Expr} (h : e.WellFormed) : ofExpr e = inRange (Gate.ofExpr e) := by
  cases h with
  | literal s => rfl
  | @group e _ => cases e <;> rfl
  | @chain operands ops hlen hops hoperands =>
    match operands with
    | [x, y] =>
      obtain ⟨op, rfl⟩ := List.length_eq_one_iff.mp (Nat.succ.inj hops).symm
      exact ofPair_eq x y op
    | [x, y, z] =>
      have hby : ofExpr (.chain [x, y, z] ops) =
          if ops.all (· = .or) then ofTerms [x, y, z] else throw .mixedTriple := rfl
      have hof : Gate.ofExpr (.chain [x, y, z] ops) =
          if ops.all (· = .or) then Gate.ofTerms [x, y, z] else .error .mixedTriple := rfl
      rw [hby, hof, ofTerms_eq hoperands]
      split <;> rfl
    | x :: y :: z :: w :: operands => rfl

theorem classify_eq {e : Expr} (h : e.WellFormed) (span : Span) :
    classify e span = inRange (Gate.classify e span) := by
  rw [classify, ofExpr_eq h, Gate.classify]
  cases Gate.ofExpr e <;> rfl

theorem gate_eq (ls : List Lexeme) (limit : Span) :
    gate ls limit = inRange (Gate.ofLexemes ls limit) := by
  rw [gate, expr_eq, Gate.ofLexemes]
  cases hread : Expr.ofLexemes ls limit with
  | error e => rfl
  | ok e =>
    have hregular : e.Regular maxGroupDepth :=
      Expr.regular_of_reading (Expr.ofLexemes_eq_ok_iff.mp hread)
    exact classify_eq hregular.wellFormed _

/-- **No access is out of range.** From any lexemes an expression and a gate are read by position
with all accesses in range, and with the result or the error of `Expr.ofLexemes` and
`Gate.ofLexemes`. The same holds of recognising the gate of any well-formed expression, however deep
its groups nest. -/
theorem accesses_inRange :
    (∀ (ls : List Lexeme) (limit : Span),
      (expr ls limit).run = .ok (Expr.ofLexemes ls limit) ∧
        (gate ls limit).run = .ok (Gate.ofLexemes ls limit)) ∧
      ∀ e : Expr, e.WellFormed → ∀ span : Span,
        (classify e span).run = .ok (Gate.classify e span) := by
  refine ⟨fun ls limit => ⟨?_, ?_⟩, fun e he span => ?_⟩
  · rw [expr_eq]
    rfl
  · rw [gate_eq]
    rfl
  · rw [classify_eq he]
    rfl

/-- Two terms of a majority, and a third inside two more groups. -/
def nested : Expr :=
  .chain [Gate.term (⟨"a", false⟩, ⟨"b", true⟩), Gate.term (⟨"a", false⟩, ⟨"c", false⟩),
    .group (.group (Gate.term (⟨"b", true⟩, ⟨"c", false⟩)))] [.or, .or]

theorem nested_wellFormed : nested.WellFormed :=
  .chain (by decide) rfl (by simp [Expr.wellFormed_term, Expr.WellFormed.group])

/-- The first two terms are looked at, and the third is refused. -/
theorem accesses_inRange_of_nested : nested.WellFormed ∧
    (classify nested default).run = .ok (.error ⟨.pattern .compoundTerm, default⟩) :=
  ⟨nested_wellFormed, (accesses_inRange.2 nested nested_wellFormed default).trans rfl⟩

/-- A chain that lacks its operator has an access out of range. -/
example (a b : Signal) :
    (classify (.chain [.literal a, .literal b] []) default).run = .error ⟨0, 0⟩ := rfl

/-- A term that lacks its second operand does as well. -/
example (a : Signal) (e f : Expr) :
    (classify (.chain [.group (.chain [.literal a] [.and]), e, f] [.or, .or]) default).run =
      .error ⟨1, 1⟩ := rfl

end Positional

end Netlist
