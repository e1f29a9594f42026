import Netlist.Proofs.Layout
import Netlist.Proofs.Nesting

/-! # Places of errors

Where the error of a run points to. The lexemes of a source of bytes alone are scanned in the order
in which they stand (`Cursor.Scans.pairwise`), and a right-hand side is gathered from the last of
those that were scanned (`Progress.gathered`). So an error about lexemes points to some of them in a
row (`ReadError.IsAbout`), an error of the scanner behind all of them, and the end of the input to
where the bytes end (`ReadError.Stands`). The coordinates of all these places are in the same order
where no counter has wrapped around. Main statement: `Session.place_of_error`. -/

namespace Netlist

/-! ### Stretches of lexemes -/

/-- The span goes from the start of the first of some lexemes in a row to the limit of the last. -/
def IsStretch (ls : List Lexeme) (s : Span) : Prop :=
  ∃ part first last, part <:+: ls ∧ part.head? = some first ∧ part.getLast? = some last ∧
    s = ⟨first.span.start, last.span.limit⟩

section Stretch

variable {ls ms : List Lexeme} {l : Lexeme} {s : Span}

theorem IsStretch.mono (h : IsStretch ls s) (hls : ls <:+: ms) : IsStretch ms s :=
  let ⟨part, first, last, hpart, hs⟩ := h
  ⟨part, first, last, hpart.trans hls, hs⟩

theorem isStretch_of_mem (h : l ∈ ls) : IsStretch ls l.span := by
  obtain ⟨before, after, rfl⟩ := List.append_of_mem h
  exact ⟨[l], l, l, ⟨before, after, by simp⟩, rfl, rfl, rfl⟩

theorem IsStretch.kept (h : IsStretch ls s) (hls : ∀ l ∈ ls, l.span.Kept) : s.Kept := by
  obtain ⟨part, first, last, hpart, hfirst, hlast, rfl⟩ := h
  exact ⟨(hls first (hpart.subset (List.mem_of_head? hfirst))).1,
    (hls last (hpart.subset (List.mem_of_getLast? hlast))).2⟩

/-- The stretch of all lexemes, or where there are none that of one behind them. -/
theorem isStretch_ofLexemes (ls : List Lexeme) (l : Lexeme) :
    IsStretch (ls ++ [l]) (Span.ofLexemes ls l.span) := by
  rcases List.eq_nil_or_concat' ls with rfl | ⟨init, last, rfl⟩
  · exact isStretch_of_mem (List.mem_singleton_self l)
  · obtain ⟨first, hfirst⟩ : ∃ first, (init ++ [last]).head? = some first := by
      cases init <;> exact ⟨_, rfl⟩
    refine ⟨init ++ [last], first, last, (List.prefix_append _ _).isInfix, hfirst, by simp, ?_⟩
    simp [Span.ofLexemes, hfirst]

end Stretch

/-! ### The order of lexemes -/

namespace Cursor

variable {options : ScanOptions} {c d : Cursor} {ls ms : List Lexeme} {l : Lexeme} {s : Span}

theorem Scans.isPlain (h : Scans options c ls d) (hc : c.IsPlain) : d.IsPlain :=
  (h.yields.reaches.exists_bytes hc).1

theorem Scans.span (h : Scans options c ls d) (hc : c.IsPlain) (hl : l ∈ ls) :
    c.pos ≤ l.span.start ∧ l.span.start < l.span.limit ∧ l.span.limit ≤ d.pos :=
  h.yields.span hc (List.mem_map_of_mem hl)

/-- **Lexemes are scanned in the order in which they stand.** -/
theorem Scans.pairwise (h : Scans options c ls d) (hc : c.IsPlain) :
    ls.Pairwise fun l m => l.span.limit ≤ m.span.start := by
  induction h with
  | nil => exact .nil
  | @cons c d e l ls hs hrest ih =>
    have hfirst := (Scans.cons hs (.nil d)).span hc (List.mem_singleton_self l)
    have hplain := hc.scan hs
    exact .cons (fun m hm => hfirst.2.2.trans (hrest.span hplain hm).1) (ih hplain)

theorem Scans.stretch (h : Scans options c ls d) (hc : c.IsPlain) (hm : ms.Sublist ls)
    (hs : IsStretch ms s) : s.start ≤ s.limit ∧ s.limit ≤ d.pos := by
  obtain ⟨part, first, last, hpart, hfirst, hlast, rfl⟩ := hs
  have hsub : part.Sublist ls := hpart.sublist.trans hm
  obtain ⟨-, hlt, -⟩ := h.span hc (hsub.subset (List.mem_of_head? hfirst))
  obtain ⟨-, hlt', hle⟩ := h.span hc (hsub.subset (List.mem_of_getLast? hlast))
  refine ⟨?_, hle⟩
  obtain ⟨rest, rfl⟩ := List.head?_eq_some_iff.mp hfirst
  cases rest with
  | nil =>
    obtain rfl : first = last := by simpa using hlast
    exact hlt.le
  | cons m rest =>
    rw [List.getLast?_cons_cons] at hlast
    have horder := (List.pairwise_cons.mp ((h.pairwise hc).sublist hsub)).1 last
      (List.mem_of_getLast? hlast)
    exact hlt.le.trans (horder.trans hlt'.le)

end Cursor

/-! ### Errors about lexemes -/

/-- The error is about some of the lexemes in a row, and neither about bytes that form none nor
about the end of the input. -/
structure ReadError.IsAbout (e : ReadError) (ls : List Lexeme) : Prop where
  not_lexical : e.cause.kind ≠ .lexical
  not_end : ∀ expected, e.cause ≠ .grammar (.endOfInput expected)
  stretch : IsStretch ls e.span

section IsAbout

variable {e : ReadError} {ls ms : List Lexeme} {l : Lexeme}

theorem ReadError.IsAbout.mono (h : e.IsAbout ls) (hls : ls <:+: ms) : e.IsAbout ms :=
  ⟨h.not_lexical, h.not_end, h.stretch.mono hls⟩

/-- A right-hand side is refused somewhere in it, as a whole, or at the lexeme behind it. -/
theorem Gate.isAbout_of_ofLexemes (h : ofLexemes ls l.span = .error e) : e.IsAbout (ls ++ [l]) := by
  rcases ofLexemes_eq_error_iff.mp h with hread | ⟨_, p, -, -, rfl⟩
  · cases Expr.isRefusal_of_ofLexemes hread with
    | @grammar g span hg hspan =>
      refine ⟨nofun, fun expected hc => hg expected (Cause.grammar.inj hc), ?_⟩
      rcases hspan with rfl | ⟨m, hm, rfl⟩
      · exact isStretch_of_mem (List.mem_append_right ls (List.mem_singleton_self l))
      · exact isStretch_of_mem (List.mem_append_left _ hm)
    | nesting hm => exact ⟨nofun, nofun, isStretch_of_mem (List.mem_append_left _ hm)⟩
  · exact ⟨nofun, nofun, isStretch_ofLexemes ls l⟩

end IsAbout

namespace Progress

/-- The lexemes of the right-hand side under way. -/
def gathered : Progress → List Lexeme
  | inExpression _ _ lexemes => lexemes.toList
  | _ => []

variable {p q next : Progress} {t : Token} {l : Lexeme} {event : Option Event} {e : ReadError}
  {ls : List Lexeme}

/-- **A step gathers from the lexemes that were met last.** -/
theorem Step.gathered_suffix (h : Step p l event q)
    (hp : p.gathered <:+ ls.filter (·.token.isSignificant)) :
    q.gathered <:+ (ls ++ [l]).filter (·.token.isSignificant) := by
  rw [List.filter_append]
  have hpush {lexemes : Array Lexeme} (hl : l.token.isSignificant = true)
      (hp : lexemes.toList <:+ ls.filter (·.token.isSignificant)) :
      (lexemes.push l).toList <:+
        ls.filter (·.token.isSignificant) ++ [l].filter (·.token.isSignificant) := by
    obtain ⟨before, hbefore⟩ := hp
    rw [← hbefore, List.filter_cons_of_pos (by exact hl), Array.toList_push]
    exact ⟨before, by simp⟩
  cases h with
  | comment hl =>
    rw [List.filter_cons_of_neg (by simp [hl, Token.isSignificant]), List.filter_nil,
      List.append_nil]
    exact hp
  | openParen hl | closeParen hl => exact hpush (by rw [hl]; rfl) hp
  | flat hl => exact hpush (isSignificant_of_isFlat hl) hp
  | _ => exact List.nil_suffix

/-! ### Lexemes that are refused -/

theorem isAbout_of_refuse (h : p.refuse l = .reject e) (ls : List Lexeme) :
    e.IsAbout (ls ++ [l]) := by
  cases h
  exact ⟨nofun, nofun, isStretch_of_mem (List.mem_append_right ls (List.mem_singleton_self l))⟩

theorem refuse_of_want (h : p.want t l next event = .reject e) : p.refuse l = .reject e := by
  unfold want at h
  split_ifs at h
  exact h

theorem refuse_of_wantName {next : String → Progress} (h : p.wantName l next = .reject e) :
    p.refuse l = .reject e := by
  unfold wantName at h
  split at h
  · cases h
  · exact h

theorem refuse_of_startStatement (h : startStatement l = .reject e) :
    beforeStatement.refuse l = .reject e := by
  unfold startStatement at h
  split at h <;> first | exact h | cases h

theorem isAbout_of_continueExpression {target : String} {depth : Nat} {lexemes : Array Lexeme}
    (h : continueExpression target depth lexemes l = .reject e) :
    e.IsAbout (lexemes.toList ++ [l]) := by
  unfold continueExpression at h
  split at h
  · split at h
    · cases h
    · rename_i hgate
      cases h
      exact Gate.isAbout_of_ofLexemes hgate
  · split_ifs at h
    cases h
    exact ⟨nofun, nofun, isStretch_of_mem (List.mem_append_right _ (List.mem_singleton_self l))⟩
  all_goals first | exact isAbout_of_refuse h _ | cases h

theorem isAbout_of_move (h : p.move l = .reject e) :
    l.token.isSignificant = true ∧ e.IsAbout (p.gathered ++ [l]) := by
  have hl : l.token.isSignificant = true := by
    cases ht : l.token <;> first | rfl | simp [move, ht] at h
  rw [move_of_isSignificant hl] at h
  refine ⟨hl, ?_⟩
  cases p with
  | inExpression => exact isAbout_of_continueExpression h
  | beforeStatement => exact isAbout_of_refuse (refuse_of_startStatement h) _
  | beforeName | beforePort | beforeDeclared | beforeTarget =>
    exact isAbout_of_refuse (refuse_of_wantName h) _
  | afterPort | afterDeclared =>
    unfold moveSignificant at h
    split_ifs at h
  | finished => exact isAbout_of_refuse h _
  | _ => exact isAbout_of_refuse (refuse_of_want h) _

theorem isAbout_of_settle (h : p.settle l = (.error e, q)) :
    l.token.isSignificant = true ∧ e.IsAbout (p.gathered ++ [l]) := by
  fun_induction Progress.settle p l with
  | case1 => cases h
  | case2 p next hm ih =>
    have hnone : next.gathered = p.gathered := by
      rcases move_eq_leave hm with ⟨_, _, rfl, rfl⟩ | ⟨_, _, rfl, rfl⟩ <;> rfl
    exact hnone ▸ ih h
  | case3 p e' hm =>
    cases h
    exact isAbout_of_move hm

end Progress

/-! ### Errors of runs -/

/-- Where the error stands, if the lexemes `ls` were scanned up to the cursor `c` before, and the
run stopped at the cursor `d`. -/
def ReadError.Stands (e : ReadError) (options : ScanOptions) (ls : List Lexeme) (c d : Cursor) :
    Prop :=
  match e.cause with
  | .lexical _ => c.scan options = (.error e, d) ∧ ∀ l ∈ ls, l.span.limit ≤ e.span.start
  | .grammar (.endOfInput _) =>
    c.scan options = (.ok none, d) ∧ d.rest = [] ∧ e.span = .empty d.pos
  | _ => c = d ∧ IsStretch (ls.filter (·.token.isSignificant)) e.span

namespace ReadError.Stands

variable {options : ScanOptions} {start c d : Cursor} {ls : List Lexeme} {e : ReadError}

theorem reaches (h : e.Stands options ls c d) : c.Reaches d := by
  unfold Stands at h
  split at h
  · exact Cursor.reaches_of_scan h.1
  · exact Cursor.reaches_of_scan h.1
  · exact h.1 ▸ .refl c

theorem span (h : e.Stands options ls c d) (hscans : start.Scans options ls c)
    (hstart : start.IsPlain) : e.span.start ≤ e.span.limit ∧ e.span.limit ≤ d.pos := by
  unfold Stands at h
  split at h
  · obtain ⟨-, hpasses⟩ := Cursor.within_scan options c e (congrArg Prod.fst h.1)
    rw [h.1] at hpasses
    exact hpasses.le.2
  · rw [h.2.2]
    exact ⟨le_refl _, le_refl _⟩
  · obtain ⟨rfl, hstretch⟩ := h
    exact hscans.stretch hstart List.filter_sublist hstretch

theorem kept {bytes : List UInt8} (h : e.Stands options ls c d)
    (hscans : Cursor.Scans options (.ofSource (.ofBytes bytes)) ls c)
    (hsize : bytes.length + 1 < UInt32.size) : e.span.Kept := by
  have hc := hscans.yields.reaches
  have hd := (hc.trans h.reaches).kept hsize
  unfold Stands at h
  split at h
  · exact Cursor.kept_of_scan_error hsize hc h.1
  · rw [h.2.2]
    exact ⟨hd, hd⟩
  · exact h.2.kept fun l hl => hscans.kept hsize l (List.mem_of_mem_filter hl)

theorem limit_le (h : e.Stands options ls c d) (hkind : e.cause.kind = .lexical) :
    ∀ l ∈ ls, l.span.limit ≤ e.span.start := by
  obtain ⟨cause, span⟩ := e
  cases cause with
  | lexical => exact h.2
  | grammar => cases hkind
  | pattern => cases hkind

end ReadError.Stands

namespace Session

variable {options : ScanOptions} {start c d : Cursor} {seen ls : List Lexeme} {e : ReadError}

theorem stands_of_isAbout (h : e.IsAbout (ls.filter (·.token.isSignificant))) (c : Cursor) :
    e.Stands options ls c c := by
  obtain ⟨cause, span⟩ := e
  obtain ⟨hkind, hend, hstretch⟩ := h
  cases cause with
  | lexical => exact absurd rfl hkind
  | grammar g =>
    cases g with
    | endOfInput expected => exact absurd rfl (hend expected)
    | _ => exact ⟨rfl, hstretch⟩
  | pattern => exact ⟨rfl, hstretch⟩

theorem stands_of_scan (hseen : start.Scans options ls c) (hc : start.IsPlain)
    (hs : c.scan options = (.error e, d)) : e.Stands options ls c d := by
  obtain ⟨hkind, hpasses⟩ := Cursor.within_scan options c e (congrArg Prod.fst hs)
  have hstart := hpasses.le.1
  obtain ⟨cause, span⟩ := e
  cases cause with
  | lexical => exact ⟨hs, fun l hl => (hseen.span hc hl).2.2.trans hstart⟩
  | grammar => cases hkind
  | pattern => cases hkind

theorem stands_of_atEnd {p : Progress} (hc : c.IsPlain) (hs : c.scan options = (.ok none, d))
    (hp : p.atEnd d.pos = .error e) : e.Stands options ls c d := by
  unfold Progress.atEnd at hp
  split at hp <;> cases hp
  exact ⟨hs, Cursor.rest_eq_nil_of_scan hc hs, rfl⟩

/-- The error of a course stands where it should, if what has been gathered was scanned last. -/
theorem stands_of_course {p : Progress} (hc : start.IsPlain) (hseen : start.Scans options seen c)
    (hp : p.gathered <:+ seen.filter (·.token.isSignificant))
    (h : (course options c p).result = .error e) :
    ∃ ls last, start.Scans options ls last ∧
      e.Stands options ls last (course options c p).cursor := by
  fun_induction course options c p generalizing seen with
  | case1 => cases h
  | case2 c p _ e' d hs =>
    cases h
    exact ⟨seen, c, hseen, stands_of_scan hseen hc hs⟩
  | case3 c p _ d hs q hq ih =>
    -- the end is met again, and is an error then
    have hd := Cursor.rest_eq_nil_of_scan (hseen.isPlain hc) hs
    obtain ⟨hne, hend⟩ := Progress.of_atEnd hq
    obtain ⟨e', he⟩ := hend d.pos
    rw [course_eq options d hne, Cursor.scan_of_rest_eq_nil options hd] at h ⊢
    simp only [he] at h ⊢
    cases h
    exact ⟨seen, c, hseen, stands_of_atEnd (hseen.isPlain hc) hs he⟩
  | case4 c p _ d hs e' hq =>
    cases h
    exact ⟨seen, c, hseen, stands_of_atEnd (hseen.isPlain hc) hs hq⟩
  | case5 c p _ l d hs event q hq ih =>
    have hnext := hseen.append (.cons hs (.nil d))
    exact ih hnext ((Progress.step_of_settle hq).gathered_suffix hp) h
  | case6 c p _ l d hs e' q hq =>
    cases h
    obtain ⟨hl, habout⟩ := Progress.isAbout_of_settle hq
    refine ⟨seen ++ [l], d, hseen.append (.cons hs (.nil d)), stands_of_isAbout (habout.mono ?_) d⟩
    rw [List.filter_append, List.filter_cons_of_pos (by exact hl), List.filter_nil]
    exact (List.suffix_append_self_iff.mpr hp).isInfix

/-- **Errors point to text that was read.** Where a run over bytes fails, the error stands where it
should: an error about lexemes at lexemes that were scanned in the run and are no comments, an error
of the scanner behind all lexemes, and the end of the input behind all bytes. In fewer than
`2 ^ 32 - 1` bytes the counters are in that order too, and the span of the error ends no later than
at the position that the run has come to. -/
theorem place_of_error {σ : Type} (options : ScanOptions) (bytes : List UInt8) (o : Observer σ)
    (s : σ) (h : ((ofSource options (.ofBytes bytes)).run o s).result = .error e) :
    ∃ ls c d, Cursor.Scans options (.ofSource (.ofBytes bytes)) ls c ∧
      ((ofSource options (.ofBytes bytes)).run o s).session.stream = ⟨options, d, none⟩ ∧
      e.Stands options ls c d ∧
      (bytes.length + 1 < UInt32.size →
        e.span.start.coords ≤ e.span.limit.coords ∧ e.span.limit.coords ≤ d.pos.coords ∧
          (e.cause.kind = .lexical → ∀ l ∈ ls, l.span.limit.coords ≤ e.span.start.coords)) := by
  rw [ofSource, ofStream, LexemeStream.ofSource, run_eq_course] at h ⊢
  have hc := Cursor.isPlain_ofBytes bytes
  have hnone : Progress.beforeModule.gathered <:+
      ([] : List Lexeme).filter (·.token.isSignificant) := List.nil_suffix
  obtain ⟨ls, c, hscans, hstands⟩ := stands_of_course hc (.nil _) hnone h
  refine ⟨ls, c, _, hscans, rfl, hstands, fun hsize => ?_⟩
  generalize (course options (.ofSource (.ofBytes bytes)) .beforeModule).cursor = d at hstands ⊢
  -- nothing has wrapped around, so the coordinates are ordered as the places are
  have hkept := hstands.kept hscans hsize
  have hd := (hscans.yields.reaches.trans hstands.reaches).kept hsize
  obtain ⟨hspan, hlimit⟩ := hstands.span hscans hc
  refine ⟨(hkept.1.coords_le_iff hkept.2).mpr hspan, (hkept.2.coords_le_iff hd).mpr hlimit,
    fun hkind l hl => ?_⟩
  exact ((hscans.kept hsize l hl).2.coords_le_iff hkept.1).mpr (hstands.limit_le hkind l hl)

/-- An expression of three operands is refused from the first of them to the last. The comment
before it and the semicolon are no part of the place. -/
theorem place_of_error_of_comment :
    let bytes := Utf8.encode "module m(y);assign y=//1\na&b//2\n|c;"
    let outcome := (ofSource .permissive (.ofBytes bytes)).run .recorder #[]
    let e : ReadError := ⟨.pattern .mixedTriple, ⟨⟨2, 1⟩, ⟨3, 3⟩⟩⟩
    outcome.result = .error e ∧
      ∃ ls d, Cursor.Scans .permissive (.ofSource (.ofBytes bytes)) ls d ∧
        outcome.session.stream = ⟨.permissive, d, none⟩ ∧ e.span.limit.coords ≤ d.pos.coords ∧
        IsStretch (ls.filter (·.token.isSignificant)) e.span := by
  intro bytes outcome e
  have hresult : outcome.result = .error e := by decide +kernel
  obtain ⟨ls, _, d, hscans, hstream, ⟨rfl, hstretch⟩, hcoords⟩ :=
    place_of_error .permissive bytes .recorder #[] hresult
  exact ⟨hresult, ls, _, hscans, hstream, (hcoords (by decide)).2.1, hstretch⟩

/-- A dollar sign behind a keyword and spaces is refused where it stands, with the keyword scanned
before it. -/
theorem run_of_spaces (n : Nat) :
    let bytes := Utf8.encode "module" ++ (List.replicate n Ascii.space ++ [0x24])
    (∃ c, Cursor.Scans .strict (.ofSource (.ofBytes bytes))
      [⟨.keyword .module, ⟨⟨1, 1⟩, ⟨1, 7⟩⟩⟩] c) ∧
      ((ofSource .strict (.ofBytes bytes)).run .recorder #[]).result =
        .error ⟨.lexical (.unexpectedByte 0x24), .empty ⟨1, 7 + n⟩⟩ := by
  intro bytes
  have hread : (Token.keyword .module).ReadFrom (Utf8.encode "module") []
      (List.replicate n Ascii.space ++ [0x24]) := by
    refine ⟨trivial, rfl, rfl, ?_⟩
    cases n <;> exact stops_cons_iff.mpr rfl
  have hmodule : Cursor.scan .strict (.ofSource (.ofBytes bytes)) =
      (.ok (some ⟨.keyword .module, ⟨⟨1, 1⟩, ⟨1, 7⟩⟩⟩),
        ⟨.ofBytes (List.replicate n Ascii.space ++ [0x24]), ⟨1, 7⟩⟩) :=
    Cursor.scan_of_readFrom .strict hread .start
  have hdollar : Cursor.scan .strict
      ⟨.ofBytes (List.replicate n Ascii.space ++ [0x24]), ⟨1, 7⟩⟩ =
        (.error ⟨.lexical (.unexpectedByte 0x24), .empty ⟨1, 7 + n⟩⟩,
          ⟨.ofBytes [0x24], ⟨1, 7 + n⟩⟩) := by
    rw [Cursor.scan_eq, Cursor.piece_of_spaces _ _ rfl]
    rfl
  have hscans := Cursor.Scans.cons hmodule (.nil _)
  have hsteps : Progress.Steps .beforeModule [(⟨.keyword .module, ⟨⟨1, 1⟩, ⟨1, 7⟩⟩⟩, none)]
      .beforeName := .single (.module rfl)
  refine ⟨⟨_, hscans⟩, ?_⟩
  rw [ofSource, ofStream, LexemeStream.ofSource, run_eq_course,
    course_of_steps_append hscans hsteps (by simp), course_eq _ _ (by simp), hdollar]

/-- Where the column wraps around between them, the error is shown before the keyword that it comes
after. So it is where a position is set while the keyword is ahead. -/
theorem exists_error_before_limit :
    let bytes := Utf8.encode "module" ++ (List.replicate (UInt32.size - 1) Ascii.space ++ [0x24])
    let ahead := (LexemeStream.ofSource .strict (.ofBytes (Utf8.encode "module $"))).peek.2
    (∃ l c e, Cursor.Scans .strict (.ofSource (.ofBytes bytes)) [l] c ∧
        ((ofSource .strict (.ofBytes bytes)).run .recorder #[]).result = .error e ∧
        e.cause.kind = .lexical ∧ e.span.start.coords < l.span.limit.coords) ∧
      ahead.ahead = some ⟨.keyword .module, ⟨⟨1, 1⟩, ⟨1, 7⟩⟩⟩ ∧
      ((ofStream (ahead.setPos .start)).run .recorder #[]).result =
        .error ⟨.lexical (.unexpectedByte 0x24), .empty ⟨1, 2⟩⟩ := by
  obtain ⟨⟨c, hscans⟩, hresult⟩ := run_of_spaces (UInt32.size - 1)
  refine ⟨⟨_, c, _, hscans, hresult, rfl, ?_⟩, ?_, ?_⟩
  · decide
  · decide +kernel
  · decide +kernel

end Session

end Netlist
