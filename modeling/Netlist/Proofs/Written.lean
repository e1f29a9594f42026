import Netlist.Proofs.Reading

/-! # Expressions are read as they are written

Reading gives regular expressions only: a chain has at least two operands, which are literals or
groups, and one operator fewer, and groups nest no deeper than is supported (`Expr.Regular`). Main
statement: lexemes are read as an expression exactly if it is regular and they are what it is
written with, up to how each signal is spelled (`Expr.ofLexemes_eq_ok_iff_written`). -/

namespace Netlist

namespace Expr

/-! ### Regular expressions -/

/-- The expression is a literal or a group, which can be operands of a chain. -/
def isOperand : Expr → Bool
  | literal _ | group _ => true
  | chain _ _ => false

/-- Each chain has at least two operands and one operator fewer, its operands are literals or
groups, and groups nest at most `depth` deep. -/
inductive Regular : Nat → Expr → Prop
  | literal {depth : Nat} (s : Signal) : Regular depth (.literal s)
  | group {depth : Nat} {e : Expr} : Regular depth e → Regular (depth + 1) (.group e)
  | chain {depth : Nat} {operands : List Expr} {ops : List BinOp} : 2 ≤ operands.length →
      operands.length = ops.length + 1 → (∀ e ∈ operands, e.isOperand = true) →
        (∀ e ∈ operands, Regular depth e) → Regular depth (.chain operands ops)

/-! ### What is read is regular -/

/-- The expression can stand in a chain inside which groups nest at most `depth` deep. -/
def IsRegularOperand (depth : Nat) (e : Expr) : Prop := e.isOperand = true ∧ e.Regular depth

/-- The chains around the one being read are regular so far, and `depth` more groups may open. -/
inductive Around : Nat → List Pending → Prop
  | nil : Around maxGroupDepth []
  | cons {depth : Nat} {pending : Pending} {outer : List Pending} :
      (∀ p ∈ pending, IsRegularOperand (depth + 1) p.1) → Around (depth + 1) outer →
        Around depth (pending :: outer)

theorem Around.add_length {depth : Nat} {outer : List Pending} (h : Around depth outer) :
    depth + outer.length = maxGroupDepth := by
  induction h with
  | nil => rfl
  | cons _ _ ih =>
    rw [List.length_cons]
    omega

theorem regular_close {depth : Nat} {pending : Pending} {last : Expr}
    (h : ∀ p ∈ pending, IsRegularOperand depth p.1) (hl : IsRegularOperand depth last) :
    (close pending last).Regular depth := by
  unfold close
  split
  · exact hl.2
  · rename_i hne
    have hpos : 0 < pending.length := List.length_pos_of_ne_nil fun he => hne he
    have hall : ∀ e ∈ pending.reverse.map Prod.fst ++ [last], IsRegularOperand depth e := by
      refine List.forall_mem_append.mpr ⟨fun e he => ?_, List.forall_mem_singleton.mpr hl⟩
      obtain ⟨p, hp, rfl⟩ := List.mem_map.mp he
      exact h p (List.mem_reverse.mp hp)
    refine .chain ?_ (by simp) (fun e he => (hall e he).1) fun e he => (hall e he).2
    rw [List.length_append, List.length_map, List.length_reverse, List.length_singleton]
    omega

theorem regular_of_reading_aux {outer : List Pending} {pending : Pending} {last : Option Expr}
    {ts : List Token} {e : Expr} (h : Reading outer pending last ts e) {depth : Nat}
    (houter : Around depth outer) (hpending : ∀ p ∈ pending, IsRegularOperand depth p.1)
    (hlast : ∀ x, last = some x → IsRegularOperand depth x) : e.Regular maxGroupDepth := by
  induction h generalizing depth with
  | inverted _ _ ih => exact ih houter hpending (by rintro _ ⟨⟩; exact ⟨rfl, .literal _⟩)
  | plain _ _ ih => exact ih houter hpending (by rintro _ ⟨⟩; exact ⟨rfl, .literal _⟩)
  | openGroup hd _ ih =>
    -- one of the groups that may still open is opened
    have hlen := houter.add_length
    obtain ⟨depth, rfl⟩ : ∃ d, depth = d + 1 := Nat.exists_eq_add_one.mpr (by omega)
    exact ih (.cons hpending houter) (List.forall_mem_nil _) (by simp)
  | operator _ _ ih =>
    exact ih houter (List.forall_mem_cons.mpr ⟨hlast _ rfl, hpending⟩) (by simp)
  | closeGroup _ ih =>
    have hinner := regular_close hpending (hlast _ rfl)
    cases houter with
    | cons haround houter =>
      exact ih houter haround (by rintro _ ⟨⟩; exact ⟨rfl, .group hinner⟩)
  | finish =>
    cases houter
    exact regular_close hpending (hlast _ rfl)

theorem regular_of_reading {ts : List Token} {e : Expr} (h : Reading [] [] none ts e) :
    e.Regular maxGroupDepth :=
  regular_of_reading_aux h .nil (List.forall_mem_nil _) (by simp)

/-! ### What is written is read -/

/-- Inside the chains `outer` the tokens are read as the operand `x`, whatever comes after them. -/
def ReadAs (outer : List Pending) (ts : List Token) (x : Expr) : Prop :=
  ∀ pending rest e, Reading outer pending (some x) rest e →
    Reading outer pending none (ts ++ rest) e

theorem readAs_of_isLiteral {s : Signal} {ts : List Token} (h : IsLiteral ts s)
    (outer : List Pending) : ReadAs outer ts (.literal s) := by
  intro pending rest e hr
  cases h with
  | plain hn => exact .plain hn hr
  | inverted hn => exact .inverted hn hr

theorem reading_chain {outer : List Pending} {operands : List (Expr × BinOp)} {last : Expr}
    (h : ∀ x ∈ operands.map Prod.fst ++ [last], ∀ ts : List Token,
      ts.map Token.asSignal = x.written → ReadAs outer ts x)
    {ts : List Token} (hts : ts.map Token.asSignal =
      writtenChain (operands.map Prod.fst ++ [last]) (operands.map Prod.snd))
    {pending : Pending} {rest : List Token} {e : Expr}
    (hr : Reading outer (operands.reverse ++ pending) (some last) rest e) :
    Reading outer pending none (ts ++ rest) e := by
  induction operands generalizing ts pending with
  | nil =>
    rw [List.map_nil, List.map_nil, List.nil_append, writtenChain_singleton] at hts
    exact h last (by simp) ts hts pending rest e hr
  | cons p operands ih =>
    obtain ⟨x, op⟩ := p
    obtain ⟨us, ws, rfl, hus, hws⟩ := map_asSignal_eq_writtenChain_iff.mp hts
    have hrest : Reading outer ((x, op) :: pending) none (ws ++ rest) e := by
      refine ih (fun y hy => h y (List.mem_cons_of_mem _ hy)) hws ?_
      rwa [List.reverse_cons, List.append_assoc] at hr
    rw [List.append_assoc, List.cons_append]
    exact h x (by simp) us hus pending _ e (.operator (BinOp.ofToken?_punct op) hrest)

theorem exists_pairs {operands : List Expr} {ops : List BinOp}
    (h : operands.length = ops.length + 1) : ∃ (pairs : List (Expr × BinOp)) (last : Expr),
      operands = pairs.map Prod.fst ++ [last] ∧ ops = pairs.map Prod.snd := by
  rcases List.eq_nil_or_concat' operands with rfl | ⟨init, last, rfl⟩
  · simp at h
  · have hlen : init.length = ops.length := by simpa using h
    exact ⟨init.zip ops, last, by rw [List.map_fst_zip (Nat.le_of_eq hlen)],
      (List.map_snd_zip (Nat.le_of_eq hlen.symm)).symm⟩

/-- A regular expression is read from its tokens, as an operand if it is one, and as the whole of a
group or of everything. -/
theorem Regular.reading {depth : Nat} {e : Expr} (h : Regular depth e) {outer : List Pending}
    (hd : outer.length + depth = maxGroupDepth) {ts : List Token}
    (hts : ts.map Token.asSignal = e.written) :
    (e.isOperand = true → ReadAs outer ts e) ∧
      ∀ rest e', (∀ pending last, close pending last = e →
        Reading outer pending (some last) rest e') → Reading outer [] none (ts ++ rest) e' := by
  -- an operand alone is a whole as well
  have alone {outer : List Pending} {ts : List Token} {x : Expr} (hx : ReadAs outer ts x) :
      (x.isOperand = true → ReadAs outer ts x) ∧
        ∀ rest e', (∀ pending last, close pending last = x →
          Reading outer pending (some last) rest e') → Reading outer [] none (ts ++ rest) e' :=
    ⟨fun _ => hx, fun rest e' hr => hx [] rest e' (hr [] x rfl)⟩
  induction h generalizing outer ts with
  | literal s => exact alone (readAs_of_isLiteral (isLiteral_iff.mpr hts) outer)
  | @group depth e _ ih =>
    refine alone fun pending rest e' hr => ?_
    obtain ⟨us, rfl, hus⟩ := map_asSignal_eq_group_iff.mp hts
    have hd' : (pending :: outer).length + depth = maxGroupDepth := by
      rw [List.length_cons]
      omega
    have hinner := (ih hd' hus).2 (.punct .closeParen :: rest) e' fun inside last he =>
      .closeGroup (he ▸ hr)
    rw [List.cons_append, List.append_assoc]
    exact .openGroup (by omega) hinner
  | @chain depth operands ops hlen hops hoperand _ ih =>
    obtain ⟨pairs, last, rfl, rfl⟩ := exists_pairs hops
    refine ⟨fun h => absurd h Bool.false_ne_true, fun rest e' hr => ?_⟩
    have hclose : close pairs.reverse last =
        .chain (pairs.map Prod.fst ++ [last]) (pairs.map Prod.snd) := by
      unfold close
      split
      · rename_i hnil
        simp [List.reverse_eq_nil_iff.mp hnil] at hlen
      · rw [List.reverse_reverse]
    refine reading_chain (fun x hx us hus => (ih x hx hd hus).1 (hoperand x hx)) hts ?_
    rw [List.append_nil]
    exact hr _ last hclose

/-- **What is read is what is written**: the regular expressions, each from its own tokens. -/
theorem reading_iff {ts : List Token} {e : Expr} : Reading [] [] none ts e ↔
    e.Regular maxGroupDepth ∧ ts.map Token.asSignal = e.written := by
  refine ⟨fun h => ⟨regular_of_reading h, map_asSignal_of_reading h⟩, fun ⟨hr, hts⟩ => ?_⟩
  have hd : ([] : List Pending).length + maxGroupDepth = maxGroupDepth := Nat.zero_add _
  have hread := (hr.reading hd hts).2 [] e fun pending last he => he ▸ .finish pending last
  rwa [List.append_nil] at hread

/-- **Reading inverts writing.** Lexemes are read as an expression exactly if it is regular and they
are its tokens, each name and each constant taken for the signal that it stands for. -/
theorem ofLexemes_eq_ok_iff_written (ls : List Lexeme) (limit : Span) (e : Expr) :
    ofLexemes ls limit = .ok e ↔ e.Regular maxGroupDepth ∧
      (ls.map Lexeme.token).map Token.asSignal = e.written :=
  ofLexemes_eq_ok_iff.trans reading_iff

end Expr

end Netlist
