import Mathlib.Data.List.Forall2
import Netlist.Proofs.RoundTrip
import Netlist.Proofs.Value

/-! # What assignments compute

The assignments of a module are found among its tokens (`assignments`), in a source and in the text
that is printed for its events. Main statement: both have the same assignments, and a right-hand
side has the same value in both once each net that is named like a constant has the value of that
constant (`values_of_read`). Printing writes such a net as the constant. -/

namespace Netlist

/-- The assignments among the tokens: the target and the right-hand side of each. -/
def assignments : List Token → List (String × List Token)
  | .keyword .assign :: t :: .punct .equals :: ts =>
    match t.name? with
    | some target => (target, ts.takeWhile (· ≠ .punct .semicolon)) :: assignments ts
    | none => assignments ts
  | _ :: ts => assignments ts
  | [] => []

/-- The assignments among the events: the target and the gate of each. -/
def assigned (events : List Event) : List (String × Gate) :=
  events.filterMap fun e =>
    match e with
    | .assign target gate => some (target, gate)
    | _ => none

/-- The tokens are those of the source up to its first `endmodule`, less the comments. None of the
results of reading on is an error, and an end of the input that is not the last is passed over. -/
def IsModuleTokens (options : ScanOptions) (source : Source) (ts : List Token) : Prop :=
  ∃ rs : List (Option Lexeme),
    (LexemeStream.ofSource options source).results rs.length = rs.map .ok ∧
      ts = (rs.reduceOption.map Lexeme.token).filter Token.isSignificant ∧
        ∃ body, ts = body ++ [.keyword .endmodule] ∧ .keyword .endmodule ∉ body

/-! ### Assignments of parts -/

theorem assignments_cons {t : Token} (h : t ≠ .keyword .assign) (ts : List Token) :
    assignments (t :: ts) = assignments ts := by
  rw [assignments]
  rintro _ _ rfl
  exact absurd rfl h

theorem assignments_append {ts : List Token} (h : .keyword .assign ∉ ts) (us : List Token) :
    assignments (ts ++ us) = assignments us := by
  induction ts with
  | nil => rfl
  | cons t ts ih =>
    rw [List.mem_cons, not_or] at h
    rw [List.cons_append, assignments_cons (Ne.symm h.1), ih h.2]

theorem assignments_assign {t : Token} {target : String} (ht : t.name? = some target)
    {rhs : List Token} (hassign : .keyword .assign ∉ rhs) (hsemicolon : .punct .semicolon ∉ rhs)
    (us : List Token) :
    assignments (.keyword .assign :: t :: .punct .equals :: (rhs ++ .punct .semicolon :: us)) =
      (target, rhs) :: assignments us := by
  have hrhs : (rhs ++ .punct .semicolon :: us).takeWhile (· ≠ .punct .semicolon) = rhs := by
    rw [List.takeWhile_append_of_pos fun t h => by
      simpa using fun he : t = .punct .semicolon => hsemicolon (he ▸ h)]
    simp
  rw [assignments]
  simp only [ht, hrhs]
  rw [assignments_append hassign, assignments_cons (by simp)]

/-- The right-hand side is read as the gate. -/
def Assigns (a : String × List Token) (g : String × Gate) : Prop :=
  a.1 = g.1 ∧ ∃ ls limit, ls.map Lexeme.token = a.2 ∧ Gate.ofLexemes ls limit = .ok g.2

theorem NameList.notMem_keyword {ls : List Lexeme} {names : List String} (h : NameList ls names)
    (k : Keyword) : .keyword k ∉ ls.map Lexeme.token := by
  induction h with
  | single hn => simpa using (Token.ne_keyword_of_name? hn k).symm
  | cons hn hc _ ih => simp [(Token.ne_keyword_of_name? hn k).symm, hc, ih]

theorem Gate.notMem_keyword_of_ofLexemes {ls : List Lexeme} {limit : Span} {gate : Gate}
    (h : ofLexemes ls limit = .ok gate) (k : Keyword) : .keyword k ∉ ls.map Lexeme.token := by
  intro hk
  obtain ⟨l, hl, ht⟩ := List.mem_map.mp hk
  have hflat := isFlat_of_ofLexemes h l hl
  simp [ht, Token.isFlat] at hflat

namespace Construct

/-- The tokens of the construct. -/
def tokens (c : Construct) : List Token := (c.before ++ [c.last]).map Lexeme.token

theorem map_token_taken (c : Construct) : c.taken.map (·.1.token) = c.tokens := by
  simp [taken, tokens]

/-- The assignments of the construct are the one of its event, if this is one. -/
def HasAssignments (c : Construct) : Prop :=
  ∃ as, (∀ us, assignments (c.tokens ++ us) = as ++ assignments us) ∧
    List.Forall₂ Assigns as (assigned [c.event])

theorem hasAssignments_of_notMem {c : Construct} (h : .keyword .assign ∉ c.tokens)
    (he : assigned [c.event] = []) : c.HasAssignments :=
  ⟨[], assignments_append h, by rw [he]; exact .nil⟩

theorem IsHeader.hasAssignments {c : Construct} (h : IsHeader c) : c.HasAssignments := by
  cases h with
  | intro hst hlist hc he =>
    refine hasAssignments_of_notMem ?_ rfl
    cases hst with
    | intro hm hn ho =>
      simp [tokens, hm, ho, hc, he, (Token.ne_keyword_of_name? hn .assign).symm,
        hlist.notMem_keyword .assign]

theorem IsStatement.hasAssignments {c : Construct} (h : IsStatement c) : c.HasAssignments := by
  cases h with
  | declaration direction hf hlist he =>
    have hd : Keyword.assign ≠ direction.keyword := by cases direction <;> decide
    refine hasAssignments_of_notMem ?_ rfl
    simp [tokens, hf, he, hd, hlist.notMem_keyword .assign]
  | @assignment start rhs last target gate hst hsemicolon hg he =>
    refine ⟨[(target, rhs.map Lexeme.token)], fun us => ?_, .cons ⟨rfl, rhs, _, rfl, hg⟩ .nil⟩
    have hsemicolon' : .punct .semicolon ∉ rhs.map Lexeme.token := by
      simpa [eq_comm] using hsemicolon
    cases hst with
    | intro ha hn hq =>
      have hassign := assignments_assign hn (Gate.notMem_keyword_of_ofLexemes hg .assign)
        hsemicolon' us
      simpa [tokens, ha, hq, he] using hassign

end Construct

/-! ### Assignments of modules -/

/-- The tokens that were taken, less the comments. -/
def Taken.tokens (ts : List Taken) : List Token :=
  ((ts.map Prod.fst).map Lexeme.token).filter Token.isSignificant

theorem Taken.tokens_eq (ts : List Taken) :
    Taken.tokens ts = (ts.filter (·.1.token.isSignificant)).map (·.1.token) := by
  rw [Taken.tokens, List.map_map]
  exact List.filter_map

theorem assigned_append (es fs : List Event) :
    assigned (es ++ fs) = assigned es ++ assigned fs := List.filterMap_append

theorem assigned_filter {ts : List Taken}
    (h : ∀ t ∈ ts, ∀ text, t.1.token = .comment text → t.2 = some (.comment text)) :
    assigned (Taken.events (ts.filter (·.1.token.isSignificant))) =
      assigned (Taken.events ts) := by
  induction ts with
  | nil => rfl
  | cons t ts ih =>
    obtain ⟨l, event⟩ := t
    obtain ⟨ht, hts⟩ := List.forall_mem_cons.mp h
    cases hs : l.token.isSignificant with
    | true =>
      rw [List.filter_cons_of_pos (by exact hs), Taken.events_cons, Taken.events_cons,
        assigned_append, assigned_append, ih hts]
    | false =>
      obtain ⟨text, hl⟩ := Token.eq_comment_of_isSignificant hs
      obtain rfl : event = some (.comment text) := ht text hl
      rw [List.filter_cons_of_neg (by simp [hs]), ih hts]
      rfl

theorem assignments_statements {statements : List Construct}
    (h : ∀ c ∈ statements, c.HasAssignments) (us : List Token) :
    ∃ as, assignments (statements.flatMap Construct.tokens ++ us) = as ++ assignments us ∧
      List.Forall₂ Assigns as (assigned (statements.map Construct.event)) := by
  induction statements with
  | nil => exact ⟨[], rfl, .nil⟩
  | cons c statements ih =>
    obtain ⟨⟨as, has, hf⟩, h⟩ := List.forall_mem_cons.mp h
    obtain ⟨bs, hbs, hg⟩ := ih h
    refine ⟨as ++ bs, ?_, ?_⟩
    · rw [List.flatMap_cons, List.append_assoc, has, hbs, List.append_assoc]
    · rw [List.map_cons, ← List.singleton_append, assigned_append]
      exact List.rel_append hf hg

theorem IsModule.filter_eq {ts : List Taken} (h : IsModule ts) :
    ∃ (constructs : List Construct) (last : Lexeme), (∀ c ∈ constructs, c.HasAssignments) ∧
      last.token = .keyword .endmodule ∧ ts.filter (·.1.token.isSignificant) =
        constructs.flatMap Construct.taken ++ [(last, some .endmodule)] := by
  obtain ⟨-, header, statements, body, last, rfl, hlast, hheader, hstatements, hf⟩ := h
  refine ⟨header :: statements, last, List.forall_mem_cons.mpr ⟨hheader.hasAssignments,
    fun c hc => (hstatements c hc).hasAssignments⟩, hlast, ?_⟩
  rw [List.filter_append, hf]
  simp [hlast, Token.isSignificant]

theorem IsModule.forall₂_assigns {ts : List Taken} (h : IsModule ts) :
    List.Forall₂ Assigns (assignments (Taken.tokens ts)) (assigned (Taken.events ts)) := by
  obtain ⟨constructs, last, hc, hlast, hf⟩ := h.filter_eq
  obtain ⟨as, has, hforall⟩ := assignments_statements hc [.keyword .endmodule]
  have htokens : Taken.tokens ts =
      constructs.flatMap Construct.tokens ++ [.keyword .endmodule] := by
    rw [Taken.tokens_eq, hf]
    simp only [List.map_append, List.map_flatMap, Construct.map_token_taken, List.map_cons,
      List.map_nil, hlast]
  have hevents : assigned (Taken.events ts) = assigned (constructs.map Construct.event) := by
    rw [← assigned_filter h.comments, hf, Taken.events_append, Construct.events_flatMap_taken,
      assigned_append]
    exact List.append_nil _
  rw [htokens, hevents, has]
  simpa [assignments] using hforall

theorem isModuleTokens_of_course {options : ScanOptions} {source : Source}
    (h : (Session.course options (.ofSource source) .beforeModule).result = .ok ()) :
    IsModuleTokens options source
      (Taken.tokens (Session.course options (.ofSource source) .beforeModule).taken) := by
  obtain ⟨rs, hrs, hm⟩ := Session.results_of_course h
  obtain ⟨body, last, ht, hlast, hs⟩ := Session.steps_of_course (by simp) h
  refine ⟨rs, hrs, by rw [hm, Taken.tokens], Taken.tokens body, ?_, fun hmem => ?_⟩
  · rw [ht]
    simp [Taken.tokens, hlast, Token.isSignificant]
  · obtain ⟨l, hl, he⟩ := List.mem_map.mp (List.mem_filter.mp hmem).1
    obtain ⟨t, htb, rfl⟩ := List.mem_map.mp hl
    exact hs.ne_endmodule (by simp) t htb he

/-! ### Printed assignments -/

namespace Gate

theorem exists_ofLexemes_tokens {gate : Gate} (h : gate.WellFormed) :
    ∃ ls limit, ls.map Lexeme.token = gate.tokens ∧ ofLexemes ls limit = .ok gate := by
  have hls : (gate.tokens.map fun t => (⟨t, .empty .start⟩ : Lexeme)).map Lexeme.token =
      gate.tokens := by simp [Function.comp_def]
  exact ⟨_, .empty .start, hls, ofLexemes_tokens h hls _⟩

theorem mem_tokens {gate : Gate} {t : Token} (h : t ∈ gate.tokens) :
    (∃ p, t = .punct p) ∨ ∃ s : Signal, t = s.token := by
  have signal {s : Signal} (h : t ∈ s.tokens) :
      (∃ p, t = .punct p) ∨ ∃ s : Signal, t = s.token := by
    unfold Signal.tokens at h
    split_ifs at h
    · rcases List.mem_cons.mp h with rfl | h
      · exact .inl ⟨_, rfl⟩
      · exact .inr ⟨s, List.mem_singleton.mp h⟩
    · exact .inr ⟨s, List.mem_singleton.mp h⟩
  have pair {op : BinOp} {a b : Signal} (h : t ∈ pairTokens op a b) :
      (∃ p, t = .punct p) ∨ ∃ s : Signal, t = s.token := by
    rcases List.mem_append.mp h with h | h
    · exact signal h
    · rcases List.mem_cons.mp h with rfl | h
      · exact .inl ⟨_, rfl⟩
      · exact signal h
  have term {a b : Signal} (h : t ∈ termTokens a b) :
      (∃ p, t = .punct p) ∨ ∃ s : Signal, t = s.token := by
    simp only [termTokens, List.mem_cons, List.mem_append, List.not_mem_nil, or_false] at h
    rcases h with rfl | h | rfl
    · exact .inl ⟨_, rfl⟩
    · exact pair h
    · exact .inl ⟨_, rfl⟩
  cases gate with
  | copy a => exact signal h
  | binary op a b => exact pair h
  | majority a b c =>
    simp only [tokens, List.mem_cons, List.mem_append] at h
    rcases h with h | rfl | h | rfl | h
    · exact term h
    · exact .inl ⟨_, rfl⟩
    · exact term h
    · exact .inl ⟨_, rfl⟩
    · exact term h

/-- Printing leaves no net that is named like a constant. -/
theorem name?_ne_of_mem_tokens {gate : Gate} {t : Token} (h : t ∈ gate.tokens) (x : Bool) :
    t.name? ≠ some (constantName x) := by
  rcases mem_tokens h with ⟨p, rfl⟩ | ⟨s, rfl⟩
  · simp [Token.name?]
  · unfold Signal.token
    split_ifs with hc
    · simp [Token.name?]
    · rw [Token.name?_ofName, Ne, Option.some.injEq]
      rintro hx
      refine hc ?_
      cases x <;> simp [Signal.isConstant, hx]

theorem value_tokens {gate : Gate} (h : gate.WellFormed) (v : String → Bool) :
    Netlist.value v gate.tokens = some (gate.value (pin v)) := by
  obtain ⟨ls, limit, hls, hg⟩ := exists_ofLexemes_tokens h
  obtain ⟨x, hx, hv⟩ := value_of_ofLexemes (pin v) hg
  rw [hls, value_pin fun t ht x => name?_ne_of_mem_tokens ht x] at hx
  rw [hx, hv (pin_constantName v)]

end Gate

theorem mem_nameTokens {names : List String} {t : Token} (h : t ∈ nameTokens names) :
    t = .punct .comma ∨ ∃ name, t = .ofName name := by
  induction names with
  | nil => cases h
  | cons name names ih =>
    cases names with
    | nil => exact .inr ⟨name, List.mem_singleton.mp h⟩
    | cons next names =>
      simp only [nameTokens, List.mem_cons] at h ih
      rcases h with rfl | rfl | h
      · exact .inr ⟨_, rfl⟩
      · exact .inl rfl
      · exact ih h

theorem Token.ofName_ne_keyword (name : String) (k : Keyword) : ofName name ≠ .keyword k :=
  ne_keyword_of_name? (name?_ofName name) k

theorem notMem_nameTokens (names : List String) (k : Keyword) :
    .keyword k ∉ nameTokens names := by
  intro h
  rcases mem_nameTokens h with h | ⟨name, h⟩
  · cases h
  · exact Token.ofName_ne_keyword name k h.symm

theorem assignments_tokens {e : Event} (h : e.WellFormed) (us : List Token) :
    assignments (e.tokens.filter Token.isSignificant ++ us) =
      (assigned [e]).map (fun g => (g.1, g.2.tokens)) ++ assignments us := by
  have notMem (he : .keyword .assign ∉ e.tokens) :
      assignments (e.tokens.filter Token.isSignificant ++ us) = assignments us :=
    assignments_append (fun hm => he (List.mem_filter.mp hm).1) us
  cases e with
  | header name ports =>
    refine notMem ?_
    simp [Event.tokens, (Token.ofName_ne_keyword name .assign).symm,
      notMem_nameTokens ports .assign]
  | declare direction names =>
    have hd : Keyword.assign ≠ direction.keyword := by cases direction <;> decide
    refine notMem ?_
    simp [Event.tokens, hd, notMem_nameTokens names .assign]
  | endmodule => exact notMem (by simp [Event.tokens])
  | comment text => exact notMem (by simp [Event.tokens])
  | assign target gate =>
    obtain ⟨ls, limit, hls, hg⟩ := Gate.exists_ofLexemes_tokens h.2
    have hsig : ∀ t ∈ gate.tokens, t.isSignificant = true := fun t ht => by
      rcases Gate.mem_tokens ht with ⟨p, rfl⟩ | ⟨s, rfl⟩
      · rfl
      · have hs := Signal.signalName?_token s
        cases hst : s.token with
        | comment => simp [hst, Token.signalName?, Token.name?] at hs
        | _ => rfl
    have hassign : .keyword .assign ∉ gate.tokens := by
      rw [← hls]
      exact Gate.notMem_keyword_of_ofLexemes hg .assign
    have hsemicolon : .punct .semicolon ∉ gate.tokens := by
      rw [← hls, List.mem_map]
      rintro ⟨l, hl, ht⟩
      exact Gate.ne_semicolon_of_ofLexemes hg l hl ht
    have hfilter : (Event.assign target gate).tokens.filter Token.isSignificant =
        (Event.assign target gate).tokens := by
      have hname := Token.isSignificant_ofName target
      rw [List.filter_eq_self]
      simp only [Event.tokens, List.forall_mem_cons, List.forall_mem_append]
      exact ⟨rfl, hname, rfl, hsig, rfl, by simp⟩
    have ha := assignments_assign (Token.name?_ofName target) hassign hsemicolon us
    rw [hfilter]
    simpa [Event.tokens, assigned] using ha

theorem assignments_flatMap_tokens {events : List Event} (h : ∀ e ∈ events, e.WellFormed) :
    assignments ((events.flatMap Event.tokens).filter Token.isSignificant) =
      (assigned events).map fun g => (g.1, g.2.tokens) := by
  induction events with
  | nil => rfl
  | cons e events ih =>
    obtain ⟨he, hes⟩ := List.forall_mem_cons.mp h
    have hcons : assigned (e :: events) = assigned [e] ++ assigned events :=
      assigned_append [e] events
    rw [List.flatMap_cons, List.filter_append, assignments_tokens he, ih hes, hcons,
      List.map_append]

/-! ### Values -/

theorem wellFormed_of_mem_assigned {events : List Event} (h : ∀ e ∈ events, e.WellFormed)
    {g : String × Gate} (hg : g ∈ assigned events) : g.2.WellFormed := by
  obtain ⟨e, he, hs⟩ := List.mem_filterMap.mp hg
  have hw := h e he
  cases e <;> cases hs
  exact hw.2

/-- The targets are the same, and both right-hand sides have values. That of the second is the value
of the first once nets named like constants are pinned. -/
def SameWhenPinned (a b : String × List Token) : Prop :=
  a.1 = b.1 ∧ ∀ v, (value v a.2).isSome = true ∧ (value v b.2).isSome = true ∧
    value v b.2 = value (pin v) a.2

theorem sameWhenPinned {a : String × List Token} {g : String × Gate} (h : Assigns a g)
    (hw : g.2.WellFormed) : SameWhenPinned a (g.1, g.2.tokens) := by
  obtain ⟨hname, ls, limit, hls, hg⟩ := h
  refine ⟨hname, fun v => ?_⟩
  obtain ⟨x, hx, -⟩ := value_of_ofLexemes v hg
  obtain ⟨y, hy, hv⟩ := value_of_ofLexemes (pin v) hg
  rw [hls] at hx hy
  have hprinted := Gate.value_tokens hw v
  refine ⟨by rw [hx]; rfl, by rw [hprinted]; rfl, ?_⟩
  rw [hprinted, hy, hv (pin_constantName v)]

theorem forall₂_sameWhenPinned {as : List (String × List Token)} {gs : List (String × Gate)}
    (h : List.Forall₂ Assigns as gs) (hw : ∀ g ∈ gs, g.2.WellFormed) :
    List.Forall₂ SameWhenPinned as (gs.map fun g => (g.1, g.2.tokens)) := by
  induction h with
  | nil => exact .nil
  | cons hag _ ih =>
    obtain ⟨hg, hgs⟩ := List.forall_mem_cons.mp hw
    exact .cons (sameWhenPinned hag hg) (ih hgs)

theorem forall₂_same_iff {as bs : List (String × List Token)}
    (h : List.Forall₂ SameWhenPinned as bs) :
    List.Forall₂ (fun a b => ∀ v, value v a.2 = value v b.2) as bs ↔
      ∀ a ∈ as, ∀ v, value v a.2 = value (pin v) a.2 := by
  induction h with
  | nil => simp
  | @cons a b as bs hab _ ih =>
    rw [List.forall₂_cons, List.forall_mem_cons, ih]
    exact and_congr_left' (forall_congr' fun v => by rw [(hab.2 v).2.2])

variable {ω : Type} {sink : Sink ω}

/-- **What was read is printed with the same assignments**, and the values of their right-hand sides
are the same once the nets named like constants have the values of these. So the values are the same
for all values of the nets exactly if no right-hand side depends on a net that is named like a
constant. -/
theorem values_of_read {options : ScanOptions} {source : Source} {events : List Event}
    (h : read options source .recorder #[] = (.ok (), events.toArray)) (r : sink.Reliable)
    (s : ω) : ∃ text ts us, Prints r s events text ∧ IsModuleTokens options source ts ∧
      IsModuleTokens .strict (.ofBytes (Utf8.encode text)) us ∧
      List.Forall₂ SameWhenPinned (assignments ts) (assignments us) ∧
      (List.Forall₂ (fun a b => ∀ v, value v a.2 = value v b.2) (assignments ts)
          (assignments us) ↔
        ∀ a ∈ assignments ts, ∀ v, value v a.2 = value (pin v) a.2) := by
  obtain ⟨hm, hw⟩ := wellFormed_of_read h
  rw [read_recorder, Prod.mk.injEq] at h
  obtain ⟨hr, he⟩ := h
  obtain ⟨ts, d, hc, htokens, -⟩ := course_printed .strict hm hw
  have hprinted : (Session.course .strict (.ofSource (.ofBytes (Utf8.encode (printed events))))
      .beforeModule).result = .ok () := by rw [hc]
  have hus := isModuleTokens_of_course hprinted
  rw [hc, Taken.tokens, htokens] at hus
  have hsource := (isModule_of_course hr).forall₂_assigns
  rw [List.toArray_inj he] at hsource
  have hsame := forall₂_sameWhenPinned hsource fun g hg => wellFormed_of_mem_assigned hw hg
  rw [← assignments_flatMap_tokens hw] at hsame
  exact ⟨_, _, _, prints_iff.mpr rfl, isModuleTokens_of_course hr, hus, hsame,
    forall₂_same_iff hsame⟩

/-- A constant stays one, and a net with another name stays a net. -/
theorem values_of_constant :
    read .strict (.ofBytes (Utf8.encode "module m(a,y);assign y=a&1'b1;endmodule")) .recorder #[] =
        (.ok (), [Event.header "m" ["a", "y"],
          .assign "y" (.binary .and ⟨"a", false⟩ ⟨"1'b1", false⟩), .endmodule].toArray) ∧
      ∃ text ts us, Prints Sink.reliable_memory #[] [Event.header "m" ["a", "y"],
          .assign "y" (.binary .and ⟨"a", false⟩ ⟨"1'b1", false⟩), .endmodule] text ∧
        IsModuleTokens .strict
          (.ofBytes (Utf8.encode "module m(a,y);assign y=a&1'b1;endmodule")) ts ∧
        IsModuleTokens .strict (.ofBytes (Utf8.encode text)) us ∧
        List.Forall₂ SameWhenPinned (assignments ts) (assignments us) := by
  have h : read .strict (.ofBytes (Utf8.encode "module m(a,y);assign y=a&1'b1;endmodule"))
      .recorder #[] = (.ok (), [Event.header "m" ["a", "y"],
        .assign "y" (.binary .and ⟨"a", false⟩ ⟨"1'b1", false⟩), .endmodule].toArray) := by
    decide +kernel
  obtain ⟨text, ts, us, hp, hts, hus, hsame, -⟩ := values_of_read h Sink.reliable_memory #[]
  exact ⟨h, text, ts, us, hp, hts, hus, hsame⟩

/-- A net that is named like a constant is printed as the constant, which has another value. -/
theorem values_ne_of_constantName : ∃ (events : List Event) (text : String) (ts us : List Token),
    read .strict (.ofBytes (Utf8.encode
        "module m ( \\1'b0 , y ) ; assign y = \\1'b0 ; endmodule")) .recorder #[] =
          (.ok (), events.toArray) ∧
      Prints Sink.reliable_memory #[] events text ∧
      IsModuleTokens .strict (.ofBytes (Utf8.encode
        "module m ( \\1'b0 , y ) ; assign y = \\1'b0 ; endmodule")) ts ∧
      IsModuleTokens .strict (.ofBytes (Utf8.encode text)) us ∧
      ¬ List.Forall₂ (fun a b => ∀ v, value v a.2 = value v b.2) (assignments ts)
        (assignments us) := by
  refine ⟨[.header "m" ["1'b0", "y"], .assign "y" (.copy ⟨"1'b0", false⟩), .endmodule], _, _, _,
    by decide +kernel, prints_iff.mpr rfl, isModuleTokens_of_course (by decide +kernel),
    isModuleTokens_of_course (by decide +kernel), fun h => ?_⟩
  -- the right-hand side is the net in the source and the constant in the text
  have hs : assignments (Taken.tokens (Session.course .strict (.ofSource (.ofBytes (Utf8.encode
      "module m ( \\1'b0 , y ) ; assign y = \\1'b0 ; endmodule"))) .beforeModule).taken) =
        [("y", [.escaped "1'b0"])] := by decide +kernel
  have hp : assignments (Taken.tokens (Session.course .strict (.ofSource (.ofBytes (Utf8.encode
      (printed [.header "m" ["1'b0", "y"], .assign "y" (.copy ⟨"1'b0", false⟩), .endmodule]))))
        .beforeModule).taken) = [("y", [.constant false])] := by decide +kernel
  rw [hs, hp, List.forall₂_cons] at h
  exact absurd (h.1 fun _ => true) (by decide)

end Netlist
