import Netlist.Proofs.Skipped
import Netlist.Proofs.Truncation

/-! # Nesting of parentheses

The open parentheses of a right-hand side are counted while it is gathered (`Token.deepen`; one that
closes none is not counted). While an expression is read, the chains around the one being read are
kept, one for each open group. By both counts a parenthesis can be too deep.

The two agree. What is read as a gate is nowhere too deep (`Gate.isShallow_of_ofLexemes`), and what
is nowhere too deep is not refused for its depth (`Gate.ofLexemes_ne_nesting`). At the first
parenthesis that is too deep a run ends without a look at what follows (`Session.run_of_leadsInto`).
Main statement: `nesting_checks_agree`. -/

namespace Netlist

/-! ### Depth -/

namespace Token

/-- The number of open parentheses behind the token. -/
def deepen (depth : Nat) : Token → Nat
  | .punct .openParen => depth + 1
  | .punct .closeParen => depth - 1
  | _ => depth

/-- The token may stand in a right-hand side. -/
def InExpression (t : Token) : Prop :=
  t.isFlat = true ∨ t = .punct .openParen ∨ t = .punct .closeParen

/-- The event of the token, if it is a comment. -/
def commentEvent? : Token → Option Event
  | comment text => some (.comment text)
  | _ => none

theorem commentEvent?_of_isSignificant {t : Token} (h : t.isSignificant = true) :
    t.commentEvent? = none := by
  cases t <;> first | rfl | simp [isSignificant] at h

theorem deepen_of_isFlat {t : Token} (h : t.isFlat = true) (depth : Nat) :
    deepen depth t = depth := by
  unfold deepen
  split
  · simp [isFlat] at h
  · simp [isFlat] at h
  · rfl

end Token

/-- Behind `depth` open parentheses, those of the tokens nowhere nest deeper than in a gate. -/
def IsShallow (depth : Nat) (ts : List Token) : Prop :=
  ∀ d ∈ ts.scanl Token.deepen depth, d ≤ maxGroupDepth

instance (depth : Nat) (ts : List Token) : Decidable (IsShallow depth ts) :=
  inferInstanceAs (Decidable (∀ d ∈ ts.scanl Token.deepen depth, d ≤ maxGroupDepth))

section Depth

variable {depth : Nat} {t : Token} {ts us : List Token}

@[simp] theorem isShallow_nil : IsShallow depth [] ↔ depth ≤ maxGroupDepth := by
  simp [IsShallow]

@[simp] theorem isShallow_cons : IsShallow depth (t :: ts) ↔
    depth ≤ maxGroupDepth ∧ IsShallow (t.deepen depth) ts := by
  simp [IsShallow, List.scanl_cons]

theorem IsShallow.le (h : IsShallow depth ts) : depth ≤ maxGroupDepth := by
  cases ts with
  | nil => exact isShallow_nil.mp h
  | cons t ts => exact (isShallow_cons.mp h).1

theorem isShallow_cons_of_isFlat (h : t.isFlat = true) :
    IsShallow depth (t :: ts) ↔ IsShallow depth ts := by
  rw [isShallow_cons, Token.deepen_of_isFlat h]
  exact and_iff_right_of_imp IsShallow.le

theorem isShallow_append : IsShallow depth (ts ++ us) ↔
    IsShallow depth ts ∧ IsShallow (ts.foldl Token.deepen depth) us := by
  induction ts generalizing depth with
  | nil => exact ⟨fun h => ⟨isShallow_nil.mpr h.le, h⟩, And.right⟩
  | cons t ts ih => rw [List.cons_append, isShallow_cons, isShallow_cons, ih, and_assoc]; rfl

/-- Only an opening parenthesis can be the first that is too deep, where as many are open as may
be. -/
theorem eq_openParen_of_not_isShallow (h : IsShallow depth ts)
    (h' : ¬ IsShallow depth (ts ++ [t])) :
    t = .punct .openParen ∧ maxGroupDepth ≤ ts.foldl Token.deepen depth := by
  have hend : IsShallow (ts.foldl Token.deepen depth) [] := by
    rw [← List.append_nil ts, isShallow_append] at h
    exact h.2
  rw [isShallow_append, not_and] at h'
  generalize ts.foldl Token.deepen depth = d at h' hend ⊢
  rw [isShallow_nil] at hend
  have hlt : maxGroupDepth < t.deepen d := by simpa [hend] using h' h
  unfold Token.deepen at hlt
  split at hlt
  · exact ⟨rfl, by omega⟩
  · omega
  · omega

end Depth

/-! ### Reading -/

/-- What is read as an expression is nowhere too deep. The depth is the number of open groups. -/
theorem Expr.isShallow_of_reading {outer : List Pending} {pending : Pending} {last : Option Expr}
    {ts : List Token} {e : Expr} (h : Reading outer pending last ts e)
    (hd : outer.length ≤ maxGroupDepth) : IsShallow outer.length ts := by
  induction h with
  | inverted hn _ ih =>
    have hname := (isShallow_cons_of_isFlat (Token.isFlat_of_signalName? hn)).mpr (ih hd)
    exact (isShallow_cons_of_isFlat rfl).mpr hname
  | plain hn _ ih =>
    exact (isShallow_cons_of_isFlat (Token.isFlat_of_signalName? hn)).mpr (ih hd)
  | openGroup hlt _ ih => exact isShallow_cons.mpr ⟨hd, ih hlt⟩
  | operator ho _ ih =>
    rw [BinOp.eq_of_ofToken? ho]
    exact (isShallow_cons_of_isFlat (BinOp.isFlat_punct _)).mpr (ih hd)
  | closeGroup _ ih => exact isShallow_cons.mpr ⟨hd, ih (Nat.le_of_succ_le hd)⟩
  | finish => exact isShallow_nil.mpr hd

/-- **What is read as a gate is nowhere too deep.** -/
theorem Gate.isShallow_of_ofLexemes {ls : List Lexeme} {limit : Span} {gate : Gate}
    (h : ofLexemes ls limit = .ok gate) : IsShallow 0 (ls.map Lexeme.token) := by
  obtain ⟨e, hr, -⟩ := ofLexemes_eq_ok_iff.mp h
  exact Expr.isShallow_of_reading hr (Nat.zero_le _)

/-- What lexemes can be refused for when they are read behind `depth` open parentheses: by the
grammar, at one of them or at their end `limit`, or for a parenthesis that is too deep. -/
inductive Expr.IsRefusal (limit : Span) (depth : Nat) (ls : List Lexeme) : ReadError → Prop
  | grammar {e : GrammarError} {span : Span} : (∀ expected, e ≠ .endOfInput expected) →
      (span = limit ∨ ∃ l ∈ ls, l.span = span) → IsRefusal limit depth ls ⟨.grammar e, span⟩
  | nesting {l : Lexeme} : l ∈ ls → ¬ IsShallow depth (ls.map Lexeme.token) →
      IsRefusal limit depth ls (.nesting l.span)

namespace Expr

section Refusal

variable {limit : Span} {depth : Nat} {l : Lexeme} {ls : List Lexeme} {e : ReadError}

theorem IsRefusal.cons (h : IsRefusal limit (l.token.deepen depth) ls e) :
    IsRefusal limit depth (l :: ls) e := by
  cases h with
  | grammar hg hspan =>
    exact .grammar hg (hspan.imp_right fun ⟨m, hm, h⟩ => ⟨m, List.mem_cons_of_mem l hm, h⟩)
  | nesting hm hdeep =>
    exact .nesting (List.mem_cons_of_mem l hm) fun h => hdeep (isShallow_cons.mp h).2

theorem IsRefusal.cons_of_isFlat (ht : l.token.isFlat = true) (h : IsRefusal limit depth ls e) :
    IsRefusal limit depth (l :: ls) e :=
  .cons ((Token.deepen_of_isFlat ht depth).symm ▸ h)

theorem isRefusal_head {g : GrammarError} {t : Token} {span : Span}
    (hg : ∀ expected, g ≠ .endOfInput expected) (h : refuse g span = .error (α := Expr) e) :
    IsRefusal limit depth (⟨t, span⟩ :: ls) e := by
  cases h
  exact .grammar hg (.inr ⟨_, List.mem_cons_self, rfl⟩)

theorem isRefusal_nil {g : GrammarError} (hg : ∀ expected, g ≠ .endOfInput expected)
    (h : refuse g limit = .error (α := Expr) e) : IsRefusal limit depth [] e := by
  cases h
  exact .grammar hg (.inl rfl)

end Refusal

/-- Reading refuses lexemes by the grammar, or for a parenthesis that is too deep. The depth is the
number of open groups. -/
theorem isRefusal_of_error (limit : Span) (e : ReadError) :
    (∀ outer pending ls, operandNext limit outer pending ls = .error e →
      IsRefusal limit outer.length ls e) ∧
    ∀ outer pending last ls, operatorNext limit outer pending last ls = .error e →
      IsRefusal limit outer.length ls e := by
  apply operandNext.mutual_induct
    (fun outer pending ls => operandNext limit outer pending ls = .error e →
      IsRefusal limit outer.length ls e)
    (fun outer pending last ls => operatorNext limit outer pending last ls = .error e →
      IsRefusal limit outer.length ls e)
  -- an operand is awaited
  case case1 =>
    intro outer pending h
    rw [operandNext] at h
    exact isRefusal_nil (by simp) h
  case case2 =>
    intro outer pending span h
    rw [operandNext] at h
    exact isRefusal_head (by simp) h
  case case3 =>
    intro outer pending span t span' rest name hn ih h
    simp only [operandNext, hn] at h
    exact .cons_of_isFlat rfl (.cons_of_isFlat (Token.isFlat_of_signalName? hn) (ih h))
  case case4 =>
    intro outer pending span t span' rest hn h
    simp only [operandNext, hn] at h
    exact isRefusal_head (by simp) h
  case case5 =>
    intro outer pending span rest hd ih h
    simp only [operandNext, hd, if_true] at h
    exact .cons (ih h)
  case case6 =>
    intro outer pending span rest hd h
    simp only [operandNext, hd, if_false, Except.error.injEq] at h
    subst h
    exact .nesting List.mem_cons_self fun hs => hd (isShallow_cons.mp hs).2.le
  case case7 =>
    intro outer pending t span rest h1 h2 name hn ih h
    simp only [operandNext, hn] at h
    exact .cons_of_isFlat (Token.isFlat_of_signalName? hn) (ih h)
  case case8 =>
    intro outer pending t span rest h1 h2 hn h
    simp only [operandNext, hn] at h
    exact isRefusal_head (by simp) h
  -- what follows an operand is awaited
  case case9 =>
    intro pending last h
    simp [operatorNext] at h
  case case10 =>
    intro pending last around outer h
    rw [operatorNext] at h
    exact isRefusal_nil (by simp) h
  case case11 =>
    intro outer pending last t span rest op ho ih h
    simp only [operatorNext, ho] at h
    obtain rfl := BinOp.eq_of_ofToken? ho
    exact .cons_of_isFlat (BinOp.isFlat_punct op) (ih h)
  case case12 =>
    intro pending last t span rest ho h
    simp only [operatorNext, ho] at h
    exact isRefusal_head (by simp) h
  case case13 =>
    intro pending last span rest around outer ho ih h
    simp only [operatorNext, ho, if_true] at h
    exact .cons (ih h)
  case case14 =>
    intro pending last t span rest ho around outer ht h
    simp only [operatorNext, ho, ht, if_false] at h
    exact isRefusal_head (by simp) h

theorem isRefusal_of_ofLexemes {ls : List Lexeme} {limit : Span} {e : ReadError}
    (h : ofLexemes ls limit = .error e) : IsRefusal limit 0 ls e := by
  cases ls with
  | nil => exact isRefusal_nil (by simp) h
  | cons l ls => exact (isRefusal_of_error limit e).1 [] [] _ h

end Expr

/-! ### Recognition -/

theorem bind_ne_error {ε α β : Type} {x : Except ε α} {f : α → Except ε β} {e : ε}
    (hx : x ≠ .error e) (hf : ∀ a, f a ≠ .error e) : x >>= f ≠ .error e := by
  cases x with
  | error e' => exact fun h => hx (congrArg Except.error (Except.error.inj h))
  | ok a => exact hf a

namespace Gate

theorem sight_ne_nesting (s : Signal) (seen : Sightings) : sight s seen ≠ .error .nesting := by
  induction seen with
  | nil => simp [sight]
  | cons t seen ih =>
    rw [sight]
    split_ifs
    · simp
    · simp
    · exact bind_ne_error ih fun _ => by simp [Pure.pure, Except.pure]

theorem sightTerm_ne_nesting (seen : Sightings) (e : Expr) :
    sightTerm seen e ≠ .error .nesting := by
  unfold sightTerm
  split
  · simp
  · split_ifs
    · simp
    · exact bind_ne_error (sight_ne_nesting _ _) fun _ => sight_ne_nesting _ _

theorem ofTerms_ne_nesting (terms : List Expr) : ofTerms terms ≠ .error .nesting := by
  have hfold (seen : Sightings) : terms.foldlM sightTerm seen ≠ .error .nesting := by
    induction terms generalizing seen with
    | nil => simp [Pure.pure, Except.pure]
    | cons e terms ih => exact bind_ne_error (sightTerm_ne_nesting seen e) ih
  refine bind_ne_error (hfold []) fun seen => ?_
  split
  · simp [Pure.pure, Except.pure]
  · simp [throw, throwThe, MonadExceptOf.throw]

/-- An expression, however it nests, is not refused for its depth any more. -/
theorem ofExpr_ne_nesting (e : Expr) : ofExpr e ≠ .error .nesting := by
  unfold ofExpr ofPair
  split
  · simp
  · split
    · split <;> simp
    · split_ifs
      · exact ofTerms_ne_nesting _
      · simp
    · simp
    · simp

/-- **What is nowhere too deep is not refused for its depth.** -/
theorem ofLexemes_ne_nesting {ls : List Lexeme} (h : IsShallow 0 (ls.map Lexeme.token))
    (limit span : Span) : ofLexemes ls limit ≠ .error (.nesting span) := by
  refine bind_ne_error (fun hr => ?_) fun e => ?_
  · cases Expr.isRefusal_of_ofLexemes hr with
    | nesting _ hdeep => exact hdeep h
  · unfold classify
    split
    · simp
    · rename_i p hp
      intro hc
      simp only [ReadError.nesting, Except.error.injEq, ReadError.mk.injEq,
        Cause.pattern.injEq] at hc
      exact ofExpr_ne_nesting e (hc.1 ▸ hp)

end Gate

/-! ### Gathering -/

namespace Progress

theorem step_of_inExpression {m : Lexeme} {depth : Nat} (hm : m.token.InExpression)
    (hd : m.token.deepen depth ≤ maxGroupDepth) (target : String) (gathered : Array Lexeme) :
    Step (inExpression target depth gathered) m none
      (inExpression target (m.token.deepen depth) (gathered.push m)) := by
  rcases hm with hflat | hopen | hclose
  · rw [Token.deepen_of_isFlat hflat]
    exact .flat hflat
  · rw [hopen] at hd ⊢
    exact .openParen hopen hd
  · rw [hclose]
    exact .closeParen hclose

theorem steps_of_isShallow {rhs : List Lexeme} {depth : Nat} (target : String)
    (hin : ∀ m ∈ rhs.filter (·.token.isSignificant), m.token.InExpression)
    (h : IsShallow depth ((rhs.filter (·.token.isSignificant)).map Lexeme.token))
    (gathered : Array Lexeme) :
    Steps (inExpression target depth gathered) (rhs.map fun m => (m, m.token.commentEvent?))
      (inExpression target
        (((rhs.filter (·.token.isSignificant)).map Lexeme.token).foldl Token.deepen depth)
        (gathered ++ (rhs.filter (·.token.isSignificant)).toArray)) := by
  induction rhs generalizing depth gathered with
  | nil => simpa using Steps.nil _
  | cons m rhs ih =>
    cases hm : m.token.isSignificant with
    | false =>
      obtain ⟨text, ht⟩ := Token.eq_comment_of_isSignificant hm
      rw [List.filter_cons_of_neg (by simp [hm])] at hin h ⊢
      have hstep : Step (inExpression target depth gathered) m m.token.commentEvent?
          (inExpression target depth gathered) := by
        rw [ht]
        exact .comment ht
      exact .cons hstep (ih hin h gathered)
    | true =>
      rw [List.filter_cons_of_pos (by exact hm)] at hin h ⊢
      obtain ⟨hmin, hin⟩ := List.forall_mem_cons.mp hin
      obtain ⟨hd, h⟩ := isShallow_cons.mp h
      have hstep := step_of_inExpression hmin h.le target gathered
      rw [List.map_cons, Token.commentEvent?_of_isSignificant hm]
      simpa using Steps.cons hstep (ih hin h (gathered.push m))

theorem settle_openParen {l : Lexeme} (hl : l.token = .punct .openParen) {depth : Nat}
    (hd : maxGroupDepth ≤ depth) (target : String) (gathered : Array Lexeme) :
    (inExpression target depth gathered).settle l =
      (.error (.nesting l.span), beforeStatement) := by
  rw [settle_eq]
  simp [move, hl, moveSignificant, continueExpression, Nat.not_lt.mpr hd, restart]

end Progress

/-! ### Runs -/

namespace Cursor

variable {options : ScanOptions}

theorem scans_of_punct {ls : List Lexeme} {l : Lexeme} {p : Punct} (hl : l.token = .punct p)
    {front back : List UInt8} {pos pos' : Pos}
    (h : Scans options ⟨.ofBytes (front ++ back), pos⟩ (ls ++ [l]) ⟨.ofBytes back, pos'⟩)
    (x : Source) : Scans options ⟨.ofBytes front ++ x, pos⟩ (ls ++ [l]) ⟨x, pos'⟩ := by
  induction ls generalizing front pos with
  | nil =>
    cases h with
    | cons hs hnil =>
      cases hnil
      obtain ⟨gap, lex, tail, rest, he, hgap, hread, hspan, hd⟩ := exists_gap_of_scan hs
      obtain ⟨t, span⟩ := l
      obtain rfl : t = .punct p := hl
      obtain rfl : span = _ := hspan
      obtain rfl : lex = [p.byte] := hread.spelledBy
      obtain rfl : tail = [] := hread.endsBefore
      obtain ⟨hback, rfl⟩ := Cursor.mk.inj hd
      obtain rfl := Source.ofBytes_injective hback
      obtain rfl : front = gap ++ [p.byte] := by
        rw [List.nil_append, ← List.append_assoc] at he
        exact List.append_cancel_right he
      have hscan := scan_gap_punct hgap p x pos
      rw [Pos.advanceBy_append] at hscan
      exact .cons hscan (.nil _)
  | cons m ls ih =>
    cases h with
    | @cons _ e _ _ _ hs hrest =>
      obtain ⟨taken, left, he, rfl⟩ := (reaches_of_scan hs).exists_eq_append
      have hlen := hrest.size_add_length_le
      simp only [List.append_eq, List.length_append, List.length_singleton, size, Source.ofBytes,
        List.length_map] at hlen
      rcases List.append_eq_append_iff.mp he with ⟨back', -, rfl⟩ | ⟨mid, rfl, rfl⟩
      · rw [List.length_append] at hlen
        omega
      · cases mid with
        | nil =>
          rw [List.nil_append] at hlen
          omega
        | cons b mid =>
          rw [List.append_assoc, Source.ofBytes_append] at hs
          have halike : Source.Alike (.ofBytes (b :: mid ++ back)) (.ofBytes (b :: mid) ++ x) :=
            .cons _ _ _
          rw [Source.ofBytes_append, List.append_assoc]
          exact .cons (scan_local hs halike) (ih hrest)

end Cursor

namespace Session

/-- From the progress `p` the bytes `front` lead into a right-hand side: they are scanned as the
lexemes `ts`, which are taken up to the equals sign of an assignment, then as `rhs`, and last as the
lexeme `l`, which ends at `pos'`. -/
structure LeadsInto (options : ScanOptions) (p : Progress) (pos : Pos) (front : List UInt8)
    (ts : List Taken) (rhs : List Lexeme) (l : Lexeme) (pos' : Pos) : Prop where
  steps : ∃ target, Progress.Steps p ts (.inExpression target 0 #[])
  scans : ∃ back, Cursor.Scans options ⟨.ofBytes (front ++ back), pos⟩
    (ts.map Prod.fst ++ (rhs ++ [l])) ⟨.ofBytes back, pos'⟩

/-- **A run ends at the first parenthesis that is too deep.** It is the last that is read, whatever
comes after it. -/
theorem run_of_leadsInto {options : ScanOptions} {p : Progress} {pos pos' : Pos}
    {front : List UInt8} {ts : List Taken} {rhs : List Lexeme} {l : Lexeme}
    (h : LeadsInto options p pos front ts rhs l pos')
    (hin : ∀ m ∈ rhs.filter (·.token.isSignificant), m.token.InExpression)
    (hshallow : IsShallow 0 ((rhs.filter (·.token.isSignificant)).map Lexeme.token))
    (hdeep : ¬ IsShallow 0 ((rhs.filter (·.token.isSignificant)).map Lexeme.token ++ [l.token]))
    {σ : Type} (o : Observer σ) (s : σ) (x : Source) :
    run o ⟨⟨options, ⟨.ofBytes front ++ x, pos⟩, none⟩, p⟩ s =
      ⟨.error (.nesting l.span),
        o.replay (Taken.events ts ++ rhs.filterMap (·.token.commentEvent?)) s,
        ⟨⟨options, ⟨x, pos'⟩, none⟩, .beforeStatement⟩⟩ := by
  obtain ⟨target, hsteps⟩ := h.steps
  obtain ⟨back, hscans⟩ := h.scans
  obtain ⟨hl, hd⟩ := eq_openParen_of_not_isShallow hshallow hdeep
  -- all that comes before the parenthesis is taken
  have htaken := hsteps.append (Progress.steps_of_isShallow target hin hshallow #[])
  rw [← List.append_assoc] at hscans
  obtain ⟨d, hbefore, hlast⟩ := (Cursor.scans_of_punct hl hscans x).exists_append
  have hfst : (ts ++ rhs.map fun m => (m, m.token.commentEvent?)).map Prod.fst =
      ts.map Prod.fst ++ rhs := by simp [Function.comp_def]
  have hevents : Taken.events (ts ++ rhs.map fun m => (m, m.token.commentEvent?)) =
      Taken.events ts ++ rhs.filterMap (·.token.commentEvent?) := by
    rw [Taken.events_append]
    simp [Taken.events, List.filterMap_map]
  rw [← hfst] at hbefore
  cases hlast with
  | cons hs hnil =>
    cases hnil
    rw [run_eq_course, course_of_steps_append hbefore htaken (by simp),
      course_eq options d (by simp)]
    simp only [hs, Progress.settle_openParen hl hd, List.append_nil, hevents]

end Session

/-- **The check while gathering and the check while reading agree.** At the first parenthesis that
is too deep the run ends, without a look at what follows, and no right-hand side that starts in this
way is a gate. Where no parenthesis is too deep none is refused for its depth when the expression is
read. So all right-hand sides of gates are gathered to their end. -/
theorem nesting_checks_agree {σ : Type} (o : Observer σ) (s : σ) (options : ScanOptions) :
    (∀ (before : List Lexeme) (l : Lexeme), IsShallow 0 (before.map Lexeme.token) →
      ¬ IsShallow 0 (before.map Lexeme.token ++ [l.token]) →
        (∀ after limit, ∃ e, Gate.ofLexemes (before ++ l :: after) limit = .error e) ∧
        ((∀ m ∈ before, m.token.InExpression) → ∀ p pos front ts rhs pos',
          rhs.filter (·.token.isSignificant) = before →
          Session.LeadsInto options p pos front ts rhs l pos' → ∀ x : Source,
            Session.run o ⟨⟨options, ⟨.ofBytes front ++ x, pos⟩, none⟩, p⟩ s =
              ⟨.error (.nesting l.span),
                o.replay (Taken.events ts ++ rhs.filterMap (·.token.commentEvent?)) s,
                ⟨⟨options, ⟨x, pos'⟩, none⟩, .beforeStatement⟩⟩)) ∧
    (∀ ls : List Lexeme, IsShallow 0 (ls.map Lexeme.token) → ∀ limit span,
      Gate.ofLexemes ls limit ≠ .error (.nesting span)) ∧
    ∀ (rhs : List Lexeme) (l : Lexeme) gate,
      Gate.ofLexemes (rhs.filter (·.token.isSignificant)) l.span = .ok gate →
      l.token = .punct .semicolon → ∀ target,
        Progress.Steps (.inExpression target 0 #[])
          (rhs.map (fun m => (m, m.token.commentEvent?)) ++ [(l, some (.assign target gate))])
          .beforeStatement := by
  refine ⟨fun before l hshallow hdeep => ⟨fun after limit => ?_, ?_⟩,
    fun ls h => Gate.ofLexemes_ne_nesting h, fun rhs l gate h hl target => ?_⟩
  · rcases hg : Gate.ofLexemes (before ++ l :: after) limit with e | gate
    · exact ⟨e, rfl⟩
    · refine absurd ?_ hdeep
      have hall := Gate.isShallow_of_ofLexemes hg
      rw [List.append_cons, List.map_append, List.map_append, isShallow_append] at hall
      exact hall.1
  · rintro hin p pos front ts rhs pos' rfl h
    exact Session.run_of_leadsInto h hin hshallow hdeep o s
  · have hsteps := Progress.steps_of_isShallow target (Gate.isFlat_of_ofLexemes h)
      (Gate.isShallow_of_ofLexemes h) #[]
    rw [Array.empty_append] at hsteps
    exact hsteps.append (.single (.gate hl h))

/-- The lexemes `assign y=(` take a run into a right-hand side, where a comment and a second
parenthesis follow. -/
theorem leadsInto_second_paren : Session.LeadsInto .permissive .beforeStatement ⟨1, 1⟩
    (Utf8.encode "assign y=(//c\n(")
    [(⟨.keyword .assign, ⟨⟨1, 1⟩, ⟨1, 7⟩⟩⟩, none), (⟨.identifier "y", ⟨⟨1, 8⟩, ⟨1, 9⟩⟩⟩, none),
      (⟨.punct .equals, ⟨⟨1, 9⟩, ⟨1, 10⟩⟩⟩, none)]
    [⟨.punct .openParen, ⟨⟨1, 10⟩, ⟨1, 11⟩⟩⟩, ⟨.comment "c", ⟨⟨1, 11⟩, ⟨2, 1⟩⟩⟩]
    ⟨.punct .openParen, ⟨⟨2, 1⟩, ⟨2, 2⟩⟩⟩ ⟨2, 2⟩ := by
  refine ⟨⟨"y", .cons (.assignment rfl) (.cons (.target rfl) (.single (.equals rfl)))⟩, [], ?_⟩
  have hassign : Cursor.scan .permissive ⟨.ofBytes (Utf8.encode "assign y=(//c\n(" ++ []), ⟨1, 1⟩⟩ =
      (.ok (some ⟨.keyword .assign, ⟨⟨1, 1⟩, ⟨1, 7⟩⟩⟩),
        ⟨.ofBytes (Utf8.encode " y=(//c\n("), ⟨1, 7⟩⟩) := by decide +kernel
  have htarget : Cursor.scan .permissive ⟨.ofBytes (Utf8.encode " y=(//c\n("), ⟨1, 7⟩⟩ =
      (.ok (some ⟨.identifier "y", ⟨⟨1, 8⟩, ⟨1, 9⟩⟩⟩),
        ⟨.ofBytes (Utf8.encode "=(//c\n("), ⟨1, 9⟩⟩) := by decide +kernel
  have hequals : Cursor.scan .permissive ⟨.ofBytes (Utf8.encode "=(//c\n("), ⟨1, 9⟩⟩ =
      (.ok (some ⟨.punct .equals, ⟨⟨1, 9⟩, ⟨1, 10⟩⟩⟩),
        ⟨.ofBytes (Utf8.encode "(//c\n("), ⟨1, 10⟩⟩) := by decide +kernel
  have hopen : Cursor.scan .permissive ⟨.ofBytes (Utf8.encode "(//c\n("), ⟨1, 10⟩⟩ =
      (.ok (some ⟨.punct .openParen, ⟨⟨1, 10⟩, ⟨1, 11⟩⟩⟩),
        ⟨.ofBytes (Utf8.encode "//c\n("), ⟨1, 11⟩⟩) := by decide +kernel
  have hcomment : Cursor.scan .permissive ⟨.ofBytes (Utf8.encode "//c\n("), ⟨1, 11⟩⟩ =
      (.ok (some ⟨.comment "c", ⟨⟨1, 11⟩, ⟨2, 1⟩⟩⟩), ⟨.ofBytes (Utf8.encode "("), ⟨2, 1⟩⟩) := by
    decide +kernel
  have hsecond : Cursor.scan .permissive ⟨.ofBytes (Utf8.encode "("), ⟨2, 1⟩⟩ =
      (.ok (some ⟨.punct .openParen, ⟨⟨2, 1⟩, ⟨2, 2⟩⟩⟩), ⟨.ofBytes [], ⟨2, 2⟩⟩) := by decide +kernel
  exact .cons hassign (.cons htarget (.cons hequals (.cons hopen (.cons hcomment
    (.cons hsecond (.nil _))))))

/-- One parenthesis is not refused for its depth. At the second one a run from a statement ends, and
it leaves the net after it. -/
theorem nesting_checks_agree_second_paren :
    let first : Lexeme := ⟨.punct .openParen, ⟨⟨1, 10⟩, ⟨1, 11⟩⟩⟩
    let second : Lexeme := ⟨.punct .openParen, ⟨⟨2, 1⟩, ⟨2, 2⟩⟩⟩
    IsShallow 0 [first.token] ∧ ¬ IsShallow 0 [first.token, second.token] ∧
      Gate.ofLexemes [first] second.span ≠ .error (.nesting first.span) ∧
      Session.run .recorder ⟨⟨.permissive,
          ⟨.ofBytes (Utf8.encode "assign y=(//c\n(") ++ .ofBytes (Utf8.encode "a"), ⟨1, 1⟩⟩, none⟩,
          .beforeStatement⟩ #[] =
        ⟨.error (.nesting second.span), #[.comment "c"],
          ⟨⟨.permissive, ⟨.ofBytes (Utf8.encode "a"), ⟨2, 2⟩⟩, none⟩, .beforeStatement⟩⟩ := by
  intro first second
  have hfirst : IsShallow 0 [first.token] := by decide
  have hsecond : ¬ IsShallow 0 [first.token, second.token] := by decide
  obtain ⟨hdeep, hshallow, -⟩ := nesting_checks_agree .recorder #[] .permissive
  have hin : ∀ m ∈ [first], m.token.InExpression := List.forall_mem_singleton.mpr (.inr (.inl rfl))
  exact ⟨hfirst, hsecond, hshallow [first] hfirst _ _,
    (hdeep [first] second hfirst hsecond).2 hin _ _ _ _ _ _ rfl leadsInto_second_paren _⟩

end Netlist
