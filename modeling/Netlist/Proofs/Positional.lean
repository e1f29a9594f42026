import Netlist.Gate

/-! # Reading by position

An expression is read by patterns on its lexemes (`Expr.ofLexemes`), which cannot reach behind their
end. Over slices the same is done by recursive descent and by position: an operand is cut off at the
front, and a group is a chain between parentheses. Here that reader is written out, with each access
checked (`Checked`): one that is out of range ends the reading without an answer. Only looks that
may find nothing (`head?`, `[1]?`) need no check. Main statement: all accesses are in range, and the
answer is the expression or the error of `Expr.ofLexemes` (`Positional.expr_eq`). -/

namespace Netlist

/-- An access that is out of range: the position it asks for, and how long the list is. -/
structure OutOfRange where
  position : Nat
  length : Nat
  deriving DecidableEq, Repr

/-- A computation that accesses lists by position. It comes to a result or an error, unless an
access is out of range. -/
abbrev Checked (ε : Type) := ExceptT ε (Except OutOfRange)

namespace Checked

variable {ε α : Type}

/-- All accesses are in range, and the result or the error is `r`. -/
def inRange (r : Except ε α) : Checked ε α := ExceptT.mk (.ok r)

def outOfRange (access : OutOfRange) : Checked ε α := ExceptT.mk (.error access)

/-- The element at the position. -/
def get (xs : List α) (i : Nat) : Checked ε α :=
  match xs[i]? with
  | some x => pure x
  | none => outOfRange ⟨i, xs.length⟩

/-- The elements from the position on, which may be the end of the list but not behind it. -/
def cut (xs : List α) (n : Nat) : Checked ε {ys : List α // ys.length + n = xs.length} :=
  if h : n ≤ xs.length then
    pure ⟨xs.drop n, by rw [List.length_drop, Nat.sub_add_cancel h]⟩
  else outOfRange ⟨n, xs.length⟩

@[simp] theorem cut_one (x : α) (xs : List α) : cut (ε := ε) (x :: xs) 1 = pure ⟨xs, rfl⟩ :=
  dif_pos (Nat.le_add_left 1 xs.length)

@[simp] theorem cut_two (x y : α) (xs : List α) :
    cut (ε := ε) (x :: y :: xs) 2 = pure ⟨xs, rfl⟩ :=
  dif_pos (Nat.le_add_left 2 xs.length)

end Checked

namespace Positional

open Checked

/-! ### The reader -/

/-- What was read at the front of `n` lexemes, and the lexemes after it, which are fewer. -/
structure Front (n : Nat) where
  expr : Expr
  rest : List Lexeme
  length_rest_lt : rest.length < n

/-- Of fewer than `n` lexemes, fewer are left behind a cut and what is read after it. -/
theorem length_lt_of_cut {ls behind rest : List Lexeme} {i n : Nat}
    (hcut : behind.length + i = ls.length) (hrest : rest.length < behind.length)
    (h : ls.length < n) : rest.length < n := by
  omega

def refuse {α : Type} (e : GrammarError) (span : Span) : Checked ReadError α :=
  throw ⟨.grammar e, span⟩

/-- Reads the end of a group behind the chain in it. -/
def groupEnd (limit : Span) {n : Nat} (inner : Expr) (behind : List Lexeme)
    (h : behind.length < n) : Checked ReadError (Front n) :=
  match behind.head? with
  | none => refuse (.endOfExpression .groupEnd) limit
  | some ⟨token, span⟩ =>
    if token = .punct .closeParen then do
      let ⟨rest, hrest⟩ ← cut behind 1
      return ⟨.group inner, rest, by omega⟩
    else refuse (.unexpected .groupEnd token) span

mutual

/-- Reads an operand inside `depth` groups: a signal, an inverted signal, or a group. -/
def operand (limit : Span) (depth : Nat) (ls : List Lexeme) :
    Checked ReadError (Front ls.length) :=
  match ls.head? with
  | none => refuse (.endOfExpression .operand) limit
  | some ⟨.punct .tilde, span⟩ =>
    match ls[1]?.bind (·.token.signalName?) with
    | some name => do
      let ⟨rest, hrest⟩ ← cut ls 2
      return ⟨.literal ⟨name, true⟩, rest, by omega⟩
    | none => refuse .danglingTilde span
  | some ⟨.punct .openParen, span⟩ =>
    if maxGroupDepth ≤ depth then throw (.nesting span)
    else do
      let ⟨inside, hinside⟩ ← cut ls 1
      let ⟨inner, behind, hbehind⟩ ← chain limit (depth + 1) inside
      groupEnd limit inner behind (by omega)
  | some ⟨token, span⟩ =>
    match token.signalName? with
    | some name => do
      let ⟨rest, hrest⟩ ← cut ls 1
      return ⟨.literal ⟨name, false⟩, rest, by omega⟩
    | none => refuse (.unexpected .operand token) span
termination_by (ls.length, 0)

/-- Reads operands with operators between them. -/
def chain (limit : Span) (depth : Nat) (ls : List Lexeme) :
    Checked ReadError (Front ls.length) := do
  let ⟨first, rest, hrest⟩ ← operand limit depth ls
  chainOn limit depth [first] [] rest hrest
termination_by (ls.length, 1)

/-- Reads on behind the operands of a chain as long as an operator comes. A single operand is
itself. -/
def chainOn (limit : Span) (depth : Nat) {n : Nat} (operands : List Expr) (ops : List BinOp)
    (rest : List Lexeme) (h : rest.length < n) : Checked ReadError (Front n) :=
  match rest.head?.bind (BinOp.ofToken? ·.token) with
  | some op => do
    let ⟨behind, hbehind⟩ ← cut rest 1
    let ⟨next, rest', hrest'⟩ ← operand limit depth behind
    chainOn limit depth (operands ++ [next]) (ops ++ [op]) rest'
      (length_lt_of_cut hbehind hrest' h)
  | none =>
    if ops.isEmpty then do return ⟨← get operands 0, rest, h⟩
    else return ⟨.chain operands ops, rest, h⟩
termination_by (rest.length, 1)

end

/-- Reads the expression that the lexemes spell. `limit` is the place just after them. -/
def expr (ls : List Lexeme) (limit : Span) : Checked ReadError Expr :=
  if ls.isEmpty then refuse (.endOfExpression .expression) limit
  else do
    let ⟨whole, rest, _⟩ ← chain limit 0 ls
    match rest.head? with
    | some ⟨token, span⟩ => refuse (.trailing token) span
    | none => return whole

/-! ### Its accesses -/

/-- No access of `x` is out of range, and `r` is what `next` makes of what `x` reads. -/
def LeadsTo {n : Nat} (x : Checked ReadError (Front n)) (r : Except ReadError Expr)
    (next : Expr → List Lexeme → Except ReadError Expr) : Prop :=
  ∃ y, x = inRange y ∧ r = y >>= fun front => next front.expr front.rest

theorem leadsTo_pure {n : Nat} (front : Front n)
    (next : Expr → List Lexeme → Except ReadError Expr) :
    LeadsTo (pure front) (next front.expr front.rest) next :=
  ⟨.ok front, rfl, rfl⟩

theorem leadsTo_throw {n : Nat} (e : ReadError)
    (next : Expr → List Lexeme → Except ReadError Expr) :
    LeadsTo (throw e : Checked ReadError (Front n)) (.error e) next :=
  ⟨.error e, rfl, rfl⟩

theorem LeadsTo.bind {m n : Nat} {x : Checked ReadError (Front m)} {r : Except ReadError Expr}
    {next next' : Expr → List Lexeme → Except ReadError Expr}
    {f : Front m → Checked ReadError (Front n)} (hx : LeadsTo x r next)
    (hf : ∀ front, LeadsTo (f front) (next front.expr front.rest) next') :
    LeadsTo (x >>= f) r next' := by
  obtain ⟨y, rfl, rfl⟩ := hx
  cases y with
  | error e => exact leadsTo_throw e next'
  | ok front => exact hf front

/-- Reads on after a whole chain: the end of its group, or the end of all. -/
def afterChain (limit : Span) : List Expr.Pending → Expr → List Lexeme → Except ReadError Expr
  | [], e, [] => .ok e
  | [], _, ⟨token, span⟩ :: _ => Expr.refuse (.trailing token) span
  | _ :: _, _, [] => Expr.refuse (.endOfExpression .groupEnd) limit
  | around :: outer, e, ⟨token, span⟩ :: rest =>
    if token = .punct .closeParen then Expr.operatorNext limit outer around (.group e) rest
    else Expr.refuse (.unexpected .groupEnd token) span

theorem operatorNext_eq_afterChain {limit : Span} {outer : List Expr.Pending}
    {pending : Expr.Pending} {last : Expr} {rest : List Lexeme}
    (h : rest.head?.bind (BinOp.ofToken? ·.token) = none) :
    Expr.operatorNext limit outer pending last rest =
      afterChain limit outer (Expr.close pending last) rest := by
  cases rest with
  | nil => cases outer <;> simp [Expr.operatorNext, afterChain]
  | cons l rest =>
    have hop : BinOp.ofToken? l.token = none := h
    cases outer <;> simp [Expr.operatorNext, afterChain, hop]

theorem groupEnd_leadsTo {limit : Span} {n : Nat} {behind : List Lexeme} (h : behind.length < n)
    (outer : List Expr.Pending) (pending : Expr.Pending) (inner : Expr) :
    LeadsTo (groupEnd limit inner behind h) (afterChain limit (pending :: outer) inner behind)
      (Expr.operatorNext limit outer pending) := by
  cases behind with
  | nil => exact leadsTo_throw _ _
  | cons l behind =>
    simp only [groupEnd, List.head?_cons, afterChain, cut_one, pure_bind]
    split
    · exact leadsTo_pure _ _
    · exact leadsTo_throw _ _

/-- Among fewer than `n` lexemes each operand is read with all accesses in range, and as
`Expr.operandNext` reads it. -/
def OperandsLead (limit : Span) (n : Nat) : Prop :=
  ∀ ls : List Lexeme, ls.length < n → ∀ outer pending,
    LeadsTo (operand limit outer.length ls) (Expr.operandNext limit outer pending ls)
      (Expr.operatorNext limit outer pending)

theorem OperandsLead.mono {limit : Span} {m n : Nat} (h : OperandsLead limit n) (hmn : m ≤ n) :
    OperandsLead limit m :=
  fun ls hls => h ls (Nat.lt_of_lt_of_le hls hmn)

/-- The operands so far are the pending ones and the last, so the look at the first of them finds
one. The induction is on the number of lexemes that are left. -/
theorem chainOn_leadsTo {limit : Span} {n : Nat} {rest : List Lexeme}
    (hoperand : OperandsLead limit rest.length) (h : rest.length < n) (outer : List Expr.Pending)
    (pending : Expr.Pending) (last : Expr) :
    LeadsTo (chainOn limit outer.length (pending.reverse.map Prod.fst ++ [last])
        (pending.reverse.map Prod.snd) rest h)
      (Expr.operatorNext limit outer pending last rest) (afterChain limit outer) := by
  induction hlen : rest.length using Nat.strongRecOn generalizing rest pending last with
  | ind m ih =>
    subst hlen
    unfold chainOn
    split
    · rename_i op hop
      cases rest with
      | nil => cases hop
      | cons l rest =>
        have hop : BinOp.ofToken? l.token = some op := hop
        simp only [cut_one, pure_bind, Expr.operatorNext, hop]
        refine (hoperand rest (Nat.lt_succ_self _) outer ((last, op) :: pending)).bind ?_
        rintro ⟨next, rest', hrest'⟩
        have hlt : rest'.length < (l :: rest).length := Nat.lt_succ_of_lt hrest'
        have hon := ih rest'.length hlt (hoperand.mono (Nat.le_of_lt hlt)) (Nat.lt_trans hlt h)
          ((last, op) :: pending) next rfl
        simpa using hon
    · rename_i hop
      rw [operatorNext_eq_afterChain hop]
      -- a single operand is looked up, while a longer chain is taken as it is
      cases pending with
      | nil => exact leadsTo_pure _ _
      | cons p pending =>
        have hops : ((p :: pending).reverse.map Prod.snd).isEmpty = false := by simp
        rw [hops]
        exact leadsTo_pure _ _

theorem chain_leadsTo {limit : Span} {ls : List Lexeme}
    (hoperand : OperandsLead limit (ls.length + 1)) (outer : List Expr.Pending) :
    LeadsTo (chain limit outer.length ls) (Expr.operandNext limit outer [] ls)
      (afterChain limit outer) := by
  unfold chain
  refine (hoperand ls (Nat.lt_succ_self _) outer []).bind ?_
  rintro ⟨first, rest, hrest⟩
  exact chainOn_leadsTo (hoperand.mono (by omega)) hrest outer [] first

/-- Induction on the number of lexemes: the chain inside a group has fewer. -/
theorem operandsLead (limit : Span) (n : Nat) : OperandsLead limit n := by
  induction n with
  | zero => exact fun ls hls => absurd hls (Nat.not_lt_zero _)
  | succ n ih =>
    intro ls hls outer pending
    unfold operand
    split
    -- the end
    · rename_i hhead
      rw [List.head?_eq_none_iff.mp hhead]
      exact leadsTo_throw _ _
    -- an inverted signal
    · rename_i span hhead
      obtain ⟨rest, rfl⟩ := List.head?_eq_some_iff.mp hhead
      cases rest with
      | nil => exact leadsTo_throw _ _
      | cons l rest =>
        simp only [List.getElem?_cons_succ, List.getElem?_cons_zero, Option.bind_some,
          Expr.operandNext]
        cases l.token.signalName? with
        | none => exact leadsTo_throw _ _
        | some name =>
          simp only [cut_two, pure_bind]
          exact leadsTo_pure _ _
    -- a group
    · rename_i span hhead
      obtain ⟨rest, rfl⟩ := List.head?_eq_some_iff.mp hhead
      simp only [Expr.operandNext, cut_one, pure_bind]
      by_cases hdepth : maxGroupDepth ≤ outer.length
      · rw [if_pos hdepth, if_neg (Nat.not_lt.mpr hdepth)]
        exact leadsTo_throw _ _
      · rw [if_neg hdepth, if_pos (Nat.lt_of_not_le hdepth)]
        have hinside : OperandsLead limit (rest.length + 1) := ih.mono (Nat.le_of_lt_succ hls)
        refine (chain_leadsTo hinside (pending :: outer)).bind ?_
        rintro ⟨inner, behind, hbehind⟩
        exact groupEnd_leadsTo _ outer pending inner
    -- a signal, or what is none
    · rename_i token span htilde hopen hhead
      obtain ⟨rest, rfl⟩ := List.head?_eq_some_iff.mp hhead
      simp only [Expr.operandNext]
      cases token.signalName? with
      | none => exact leadsTo_throw _ _
      | some name =>
        simp only [cut_one, pure_bind]
        exact leadsTo_pure _ _

/-- **All accesses of the reader are in range**, and it comes to what the patterns come to. -/
theorem expr_eq (ls : List Lexeme) (limit : Span) :
    expr ls limit = inRange (Expr.ofLexemes ls limit) := by
  cases ls with
  | nil => rfl
  | cons l ls =>
    have hchain := @chain_leadsTo limit (l :: ls) (operandsLead limit _) []
    obtain ⟨y, hy, hread⟩ := hchain
    have hof : Expr.ofLexemes (l :: ls) limit = Expr.operandNext limit [] [] (l :: ls) := rfl
    have hy : chain limit 0 (l :: ls) = inRange y := hy
    rw [hof, hread, expr, if_neg (by simp), hy]
    cases y with
    | error e => rfl
    | ok front =>
      obtain ⟨whole, rest, _⟩ := front
      cases rest <;> rfl

end Positional

end Netlist
