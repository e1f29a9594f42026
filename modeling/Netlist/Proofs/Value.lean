import Netlist.Proofs.Shape

/-! # The value of a right-hand side

What a right-hand side computes is told from its tokens alone. A net stands for a given value and a
constant for its bit; of the operators `&` binds closest, then `^`, then `|` (`value`).

Main statement: a right-hand side that is read as a gate has a value, and it is that of the gate
once the nets that are named like constants have the values of those (`value_of_ofLexemes`). -/

namespace Netlist

/-! ### Values of tokens -/

/-- The token, if it names a net as the constant that is the value of the net. -/
def Token.under (v : String → Bool) (t : Token) : Token :=
  match t.name? with
  | some name => .constant (v name)
  | none => t

/-- What the operators before an operand make of it: the operand is joined to `and`, this to `xor`,
and this to `or`. -/
structure Before where
  or : Bool := false
  xor : Bool := false
  and : Bool := true

namespace Before

/-- The value of the chain that ends with the operand `x`. -/
def close (b : Before) (x : Bool) : Bool := b.or || (b.xor ^^ (b.and && x))

/-- What stands before the next operand, after the operand `x` and an operator. -/
def next (b : Before) (x : Bool) : BinOp → Before
  | .and => { b with and := b.and && x }
  | .xor => { b with xor := b.xor ^^ (b.and && x), and := true }
  | .or => ⟨b.close x, false, true⟩

end Before

mutual

/-- The value of the tokens where an operand has to come, which an odd number of tildes inverts.
`outer` holds what stands before each open group, innermost first, and whether it is inverted. -/
def operandValue (outer : List (Before × Bool)) (b : Before) (inverted : Bool) :
    List Token → Option Bool
  | [] => none
  | .punct .tilde :: ts => operandValue outer b (!inverted) ts
  | .punct .openParen :: ts => operandValue ((b, inverted) :: outer) {} false ts
  | .constant x :: ts => operatorValue outer b (x ^^ inverted) ts
  | _ :: _ => none

/-- The value of the tokens after an operand with the value `x`. -/
def operatorValue (outer : List (Before × Bool)) (b : Before) (x : Bool) :
    List Token → Option Bool
  | [] =>
    match outer with
    | [] => some (b.close x)
    | _ :: _ => none
  | t :: ts =>
    match BinOp.ofToken? t with
    | some op => operandValue outer (b.next x op) false ts
    | none =>
      match outer with
      | [] => none
      | (around, inverted) :: outer =>
        if t = .punct .closeParen then operatorValue outer around (b.close x ^^ inverted) ts
        else none

end

/-- The value of a right-hand side, if it is an expression, when nets have the values `v`. -/
def value (v : String → Bool) (ts : List Token) : Option Bool :=
  operandValue [] {} false (ts.map (Token.under v))

/-- The values where the nets named like constants have the values of these. -/
def pin (v : String → Bool) : String → Bool := fun name =>
  if name = constantName false then false
  else if name = constantName true then true
  else v name

@[simp] theorem pin_constantName (v : String → Bool) (x : Bool) : pin v (constantName x) = x := by
  cases x <;> simp [pin, constantName]

/-- Pinning changes nothing where no net is named like a constant. -/
theorem value_pin {ts : List Token} (h : ∀ t ∈ ts, ∀ x, t.name? ≠ some (constantName x))
    (v : String → Bool) : value (pin v) ts = value v ts := by
  unfold value
  rw [List.map_congr_left fun t ht => ?_]
  unfold Token.under
  split
  · rename_i name hn
    have hf : name ≠ constantName false := fun he => h t ht false (he ▸ hn)
    have ht : name ≠ constantName true := fun he => h t ht true (he ▸ hn)
    simp [pin, hf, ht]
  · rfl

/-! ### Values of gates -/

namespace Signal

/-- The value of the signal, when names have the values `v`. -/
def value (s : Signal) (v : String → Bool) : Bool := v s.name ^^ s.negated

end Signal

def BinOp.value : BinOp → Bool → Bool → Bool
  | and => Bool.and
  | or => Bool.or
  | xor => Bool.xor

namespace Gate

/-- The value of the gate, when names have the values `v`. -/
def value (gate : Gate) (v : String → Bool) : Bool :=
  match gate with
  | copy a => a.value v
  | binary op a b => op.value (a.value v) (b.value v)
  | majority a b c =>
    (a.value v && b.value v) || (a.value v && c.value v) || (b.value v && c.value v)

end Gate

theorem Gate.IsMajority.any_and {terms : List (Signal × Signal)} {a b c : Signal}
    (h : IsMajority terms a b c) (v : Signal → Bool) :
    terms.any (fun t => v t.1 && v t.2) = (v a && v b || v a && v c || v b && v c) := by
  rw [Bool.eq_iff_iff]
  simp only [List.any_eq_true, Bool.or_eq_true, Bool.and_eq_true]
  constructor
  · rintro ⟨t, ht, h1, h2⟩
    have hm := h.mem t ht
    simp only [List.mem_cons, List.not_mem_nil, or_false] at hm
    rcases hm with rfl | rfl | rfl | rfl | rfl | rfl <;> simp_all
  · have both {x y : Signal} (hxy : (x, y) ∈ terms ∨ (y, x) ∈ terms) (hx : v x = true)
        (hy : v y = true) : ∃ t ∈ terms, v t.1 = true ∧ v t.2 = true := by
      rcases hxy with ht | ht
      · exact ⟨_, ht, hx, hy⟩
      · exact ⟨_, ht, hy, hx⟩
    rintro ((⟨h1, h2⟩ | ⟨h1, h2⟩) | ⟨h1, h2⟩)
    · exact both h.ab h1 h2
    · exact both h.ac h1 h2
    · exact both h.bc h1 h2

/-! ### Operands -/

/-- The tokens are an operand with the value `x`, wherever they stand. -/
def IsOperand (ts : List Token) (x : Bool) : Prop :=
  ∀ outer b rest, operandValue outer b false (ts ++ rest) = operatorValue outer b x rest

theorem operatorValue_cons (outer : List (Before × Bool)) (b : Before) (x : Bool) (op : BinOp)
    {ts : List Token} {y : Bool} (h : IsOperand ts y) (rest : List Token) :
    operatorValue outer b x (.punct op.punct :: (ts ++ rest)) =
      operatorValue outer (b.next x op) y rest := by
  simp only [operatorValue, BinOp.ofToken?_punct]
  exact h outer _ rest

namespace IsOperand

variable {ts us ws : List Token} {x y z : Bool}

theorem constant (x : Bool) : IsOperand [.constant x] x := fun outer b rest => by
  simp [operandValue]

theorem tilde (x : Bool) : IsOperand [.punct .tilde, .constant x] (!x) := fun outer b rest => by
  simp [operandValue]

theorem close (outer : List (Before × Bool)) (around b : Before) (x : Bool) (rest : List Token) :
    operatorValue ((around, false) :: outer) b x (.punct .closeParen :: rest) =
      operatorValue outer around (b.close x) rest := by
  simp [operatorValue, BinOp.ofToken?]

theorem group (h : IsOperand ts x) :
    IsOperand (.punct .openParen :: ts ++ [.punct .closeParen]) x := fun outer b rest => by
  have hopen := h ((b, false) :: outer) {} (.punct .closeParen :: rest)
  rw [close] at hopen
  simpa [operandValue, Before.close] using hopen

theorem term (h : IsOperand ts x) (h' : IsOperand us y) :
    IsOperand (.punct .openParen :: (ts ++ .punct BinOp.and.punct :: us) ++ [.punct .closeParen])
      (x && y) := fun outer b rest => by
  have hopen := h ((b, false) :: outer) {} (.punct BinOp.and.punct ::
    (us ++ .punct .closeParen :: rest))
  rw [operatorValue_cons _ _ _ _ h', close] at hopen
  simpa [operandValue, Before.close, Before.next] using hopen

theorem value_single (h : IsOperand ts x) : operandValue [] {} false ts = some x := by
  have hv := h [] {} []
  rw [List.append_nil] at hv
  rw [hv]
  simp [operatorValue, Before.close]

theorem value_pair (h : IsOperand ts x) (h' : IsOperand us y) (op : BinOp) :
    operandValue [] {} false (ts ++ .punct op.punct :: us) = some (op.value x y) := by
  have hv := operatorValue_cons [] {} x op h' []
  rw [List.append_nil] at hv
  rw [h, hv]
  cases op <;> simp [operatorValue, Before.close, Before.next, BinOp.value]

theorem value_triple (h : IsOperand ts x) (h' : IsOperand us y) (h'' : IsOperand ws z) :
    operandValue [] {} false (ts ++ .punct BinOp.or.punct :: (us ++ .punct BinOp.or.punct :: ws)) =
      some (x || y || z) := by
  have hv := operatorValue_cons [] (Before.next {} x .or) y .or h'' []
  rw [List.append_nil] at hv
  rw [h, operatorValue_cons _ _ _ _ h', hv]
  simp [operatorValue, Before.close, Before.next]

end IsOperand

section Written

variable (v : String → Bool)

theorem under_of_signalName? {t : Token} {name : String} (h : t.signalName? = some name) :
    ∃ x, t.under v = .constant x ∧ ((∀ y, v (constantName y) = y) → x = v name) := by
  cases t with
  | constant y =>
    cases h
    exact ⟨y, rfl, fun hv => (hv y).symm⟩
  | identifier | escaped =>
    cases h
    exact ⟨v name, rfl, fun _ => rfl⟩
  | keyword | punct | comment => simp [Token.signalName?, Token.name?] at h

theorem isOperand_of_signal {s : Signal} {ts : List Token} (h : ts.map Token.asSignal = s.written) :
    ∃ x, IsOperand (ts.map (Token.under v)) x ∧
      ((∀ y, v (constantName y) = y) → x = s.value v) := by
  cases isLiteral_iff.mpr h with
  | inverted hn =>
    obtain ⟨x, hx, hv⟩ := under_of_signalName? v hn
    refine ⟨!x, ?_, fun hy => by simp [Signal.value, hv hy]⟩
    rw [List.map_cons, List.map_cons, hx]
    exact .tilde x
  | plain hn =>
    obtain ⟨x, hx, hv⟩ := under_of_signalName? v hn
    refine ⟨x, ?_, fun hy => by simp [Signal.value, hv hy]⟩
    rw [List.map_cons, hx]
    exact .constant x

theorem isOperand_of_wrapped {e : Expr} {s : Signal} (he : e.wrappedLiteral? = some s)
    {ts : List Token} (h : ts.map Token.asSignal = e.written) :
    ∃ x, IsOperand (ts.map (Token.under v)) x ∧
      ((∀ y, v (constantName y) = y) → x = s.value v) := by
  rcases Gate.eq_of_wrappedLiteral? he with rfl | rfl
  · exact isOperand_of_signal v h
  · obtain ⟨us, rfl, hus⟩ := Expr.map_asSignal_eq_group_iff.mp h
    obtain ⟨x, hx, hv⟩ := isOperand_of_signal v hus
    refine ⟨x, ?_, hv⟩
    simpa [Token.under, Token.name?] using hx.group

theorem isOperand_of_term {t : Signal × Signal} {ts : List Token}
    (h : ts.map Token.asSignal = (Gate.term t).written) :
    ∃ x, IsOperand (ts.map (Token.under v)) x ∧
      ((∀ y, v (constantName y) = y) → x = (t.1.value v && t.2.value v)) := by
  obtain ⟨us, rfl, hus⟩ := Expr.map_asSignal_eq_group_iff.mp h
  obtain ⟨as, bs, rfl, has, hbs⟩ := Expr.map_asSignal_eq_writtenChain_iff.mp hus
  rw [Expr.writtenChain_singleton] at hbs
  obtain ⟨x, hx, hvx⟩ := isOperand_of_signal v has
  obtain ⟨y, hy, hvy⟩ := isOperand_of_signal v hbs
  refine ⟨x && y, ?_, fun hv => by rw [hvx hv, hvy hv]⟩
  simpa [Token.under, Token.name?] using hx.term hy

/-- **A right-hand side has the value of its gate**, if names that spell constants have the values
of these. With other values of such names it still has a value. -/
theorem value_of_ofLexemes {ls : List Lexeme} {limit : Span} {gate : Gate}
    (h : Gate.ofLexemes ls limit = .ok gate) :
    ∃ x, value v (ls.map Lexeme.token) = some x ∧
      ((∀ y, v (constantName y) = y) → x = gate.value v) := by
  obtain ⟨e, hd, hw⟩ := Gate.describes_of_ofLexemes h
  generalize ls.map Lexeme.token = ts at hw
  unfold value
  cases hd with
  | copy ha =>
    obtain ⟨x, hx, hv⟩ := isOperand_of_wrapped v ha hw
    exact ⟨x, hx.value_single, hv⟩
  | binary op ha hb =>
    obtain ⟨as, bs, rfl, has, hbs⟩ := Expr.map_asSignal_eq_writtenChain_iff.mp hw
    rw [Expr.writtenChain_singleton] at hbs
    obtain ⟨x, hx, hvx⟩ := isOperand_of_wrapped v ha has
    obtain ⟨y, hy, hvy⟩ := isOperand_of_wrapped v hb hbs
    refine ⟨op.value x y, ?_, fun hv => by rw [hvx hv, hvy hv]; rfl⟩
    rw [List.map_append, List.map_cons]
    exact hx.value_pair hy op
  | @majority t u w a b c hm =>
    obtain ⟨as, ts', rfl, has, h'⟩ := Expr.map_asSignal_eq_writtenChain_iff.mp hw
    obtain ⟨bs, cs, rfl, hbs, hcs⟩ := Expr.map_asSignal_eq_writtenChain_iff.mp h'
    rw [Expr.writtenChain_singleton] at hcs
    obtain ⟨x, hx, hvx⟩ := isOperand_of_term v has
    obtain ⟨y, hy, hvy⟩ := isOperand_of_term v hbs
    obtain ⟨z, hz, hvz⟩ := isOperand_of_term v hcs
    refine ⟨x || y || z, ?_, fun hv => ?_⟩
    · rw [List.map_append, List.map_cons, List.map_append, List.map_cons]
      exact hx.value_triple hy hz
    · rw [hvx hv, hvy hv, hvz hv, Gate.value, ← hm.any_and fun s => s.value v]
      simp [Bool.or_assoc]

end Written

end Netlist
