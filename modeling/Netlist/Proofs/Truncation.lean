import Netlist.Proofs.Events
import Netlist.Proofs.Lead

/-! # Sources that were cut short

A cut changes at most the last lexeme before it: a scan that leaves something behind is the same
when more comes after (`scan_extend`, `scan_of_extend`). A mark is not changed at all, and a keyword
only becomes a longer name. Each construct ends with a mark, so all that reading reports before the
cut but comments and the end of the module it also reports when it goes on behind the cut. Main
statement: `run_truncated`. -/

namespace Netlist

/-- No keyword is the start of another. -/
theorem Keyword.eq_of_starts {k k' : Keyword} (h : k.text.toList <+: k'.text.toList) : k = k' := by
  revert h
  cases k <;> cases k' <;> decide

/-- The event reports the header, a declaration or a gate. -/
def Event.isConstruct : Event → Bool
  | header _ _ | declare _ _ | assign _ _ => true
  | _ => false

namespace Cursor

/-- The cursor with more bytes at the end of its source. -/
def extend (t : List UInt8) (c : Cursor) : Cursor := { c with rest := c.rest ++ .ofBytes t }

variable {options : ScanOptions} {c d f : Cursor} {t : List UInt8} {l : Lexeme}

theorem size_extend : (c.extend t).size = c.size + t.length := by
  simp [size, extend, Source.ofBytes]

theorem IsPlain.extend (h : c.IsPlain) : (c.extend t).IsPlain := by
  obtain ⟨bytes, h⟩ := h
  exact ⟨bytes ++ t, by rw [Cursor.extend, h, Source.ofBytes_append]⟩

/-! ### Scans before the cut -/

theorem alike_append {y : Source} (h : y ≠ []) (t : Source) : y.Alike (y ++ t) := by
  cases y with
  | nil => exact absurd rfl h
  | cons i y => exact .cons i y (y ++ t)

theorem alike_of_append {y : Source} (h : y ≠ []) (t : Source) : (y ++ t).Alike y := by
  cases y with
  | nil => exact absurd rfl h
  | cons i y => exact .cons i (y ++ t) y

theorem scan_extend {r : Except ReadError (Option Lexeme)} (h : c.scan options = (r, d))
    (hd : d.rest ≠ []) : (c.extend t).scan options = (r, d.extend t) := by
  obtain ⟨u, hu⟩ := (reaches_of_scan h).suffix
  have hc : c = ⟨u ++ d.rest, c.pos⟩ := by rw [hu]
  rw [hc] at h ⊢
  rw [extend, List.append_assoc]
  exact scan_local h (alike_append hd _)

theorem scan_of_extend {r : Except ReadError (Option Lexeme)}
    (h : (c.extend t).scan options = (r, d.extend t)) (hd : d.rest ≠ []) :
    c.scan options = (r, d) := by
  obtain ⟨u, hu⟩ := (reaches_of_scan h).suffix
  simp only [extend, ← List.append_assoc, List.append_cancel_right_eq] at hu
  rw [extend, ← hu, List.append_assoc] at h
  have hc : c = ⟨u ++ d.rest, c.pos⟩ := by rw [hu]
  rw [hc]
  exact scan_local h (alike_of_append hd _)

theorem scan_extend_punct (hc : c.IsPlain) {p : Punct} (hl : l.token = .punct p)
    (h : c.scan options = (.ok (some l), d)) :
    (c.extend t).scan options = (.ok (some l), d.extend t) := by
  obtain ⟨m, span⟩ := l
  obtain rfl : m = .punct p := hl
  obtain ⟨skipped, lex, tail, rest, hrest, hread, rfl, rfl, hscan⟩ := exists_lead_of_scan hc h
  obtain rfl : lex = [p.byte] := hread.spelledBy
  obtain rfl : tail = [] := hread.endsBefore
  have hext : c.extend t = ⟨.ofBytes skipped ++ .ofBytes (p.byte :: (rest ++ t)), c.pos⟩ := by
    rw [extend, hrest, ← Source.ofBytes_append, ← Source.ofBytes_append]
    simp only [List.append_assoc, List.nil_append, List.cons_append]
  have hread' : (Token.punct p).ReadFrom [p.byte] [] (rest ++ t) := ⟨trivial, rfl, rfl⟩
  rw [hext, hscan (.ofBytes (p.byte :: (rest ++ t))) (.cons _ _ _)]
  rw [extend, ← Source.ofBytes_append]
  exact scan_of_readFrom options hread' _

/-! ### Words at the cut -/

/-- The bytes are those of a plain name or a keyword. -/
def IsWord (word : List UInt8) : Prop :=
  ∃ b rest, word = b :: rest ∧ Ascii.isNameStart b = true ∧
    ∀ x ∈ word, Ascii.isNamePart x = true

theorem text_of_wordToken {word : List UInt8} {k : Keyword} (h : wordToken word = .keyword k) :
    Ascii.text word = k.text := by
  unfold wordToken at h
  split at h <;> cases h
  rename_i hk
  exact (Keyword.text_eq_of_ofText? hk).symm

/-- A keyword that goes on is a name. -/
theorem wordToken_append {word part : List UInt8} {k : Keyword} (h : wordToken word = .keyword k)
    (hp : part ≠ []) : ∃ name, wordToken (word ++ part) = .identifier name := by
  rcases hk : Keyword.ofText? (Ascii.text (word ++ part)) with _ | k'
  · exact ⟨_, by rw [wordToken, hk]⟩
  · have ht' : (Ascii.text word).toList ++ (Ascii.text part).toList = k'.text.toList := by
      rw [Keyword.text_eq_of_ofText? hk]
      simp [Ascii.text]
    rw [text_of_wordToken h] at ht'
    obtain rfl := Keyword.eq_of_starts ⟨_, ht'⟩
    exact absurd (List.append_right_eq_self.mp ht') (by simpa [Ascii.text] using hp)

theorem scan_word {word more : List UInt8} (hw : IsWord word)
    (hm : ∀ b ∈ more.head?, Ascii.isNamePart b = false) (pos : Pos) :
    scan options ⟨.ofBytes (word ++ more), pos⟩ =
      (.ok (some ⟨wordToken word, ⟨pos, pos.advanceBy word⟩⟩),
        ⟨.ofBytes more, pos.advanceBy word⟩) := by
  obtain ⟨b, rest, rfl, hb, hpart⟩ := hw
  have hscan := scan_of_readFrom options (readFrom_wordToken hb hpart hm) pos
  rwa [List.nil_append, List.append_nil] at hscan

/-- **What leads to a keyword**, and the word that it is. The same word is found there with
anything else behind it. -/
theorem exists_word_of_scan (hc : c.IsPlain) {k : Keyword} (hl : l.token = .keyword k)
    (h : c.scan options = (.ok (some l), d)) :
    ∃ skipped word more pos, c.rest = .ofBytes (skipped ++ (word ++ more)) ∧ IsWord word ∧
      (∀ b ∈ more.head?, Ascii.isNamePart b = false) ∧
      l = ⟨wordToken word, ⟨pos, pos.advanceBy word⟩⟩ ∧
      d = ⟨.ofBytes more, pos.advanceBy word⟩ ∧
      ∀ more', scan options ⟨.ofBytes (skipped ++ (word ++ more')), c.pos⟩ =
        scan options ⟨.ofBytes (word ++ more'), pos⟩ := by
  obtain ⟨m, span⟩ := l
  obtain rfl : m = .keyword k := hl
  obtain ⟨skipped, lex, tail, more, hrest, hread, rfl, rfl, hscan⟩ := exists_lead_of_scan hc h
  obtain ⟨rfl, hmore⟩ := hread.endsBefore
  obtain rfl : lex = Utf8.encode k.text := hread.spelledBy
  obtain ⟨b, part, he, hb, hpart, -⟩ := encode_of_isSimpleName (isSimpleName_text_keyword k)
  have hword := wordToken_text_keyword k
  simp only [he, List.append_nil, List.nil_append, List.cons_append] at hrest hword hscan ⊢
  refine ⟨skipped, b :: part, more, c.pos.advanceBy skipped, hrest, ⟨b, part, rfl, hb, hpart⟩,
    hmore, by rw [hword], rfl, fun more' => ?_⟩
  rw [Source.ofBytes_append]
  exact hscan _ (.cons _ _ _)

/-- Behind the cut a keyword is the same or goes on as a longer name. -/
theorem scan_extend_keyword (hc : c.IsPlain) {k : Keyword} (hl : l.token = .keyword k)
    (h : c.scan options = (.ok (some l), d)) :
    (c.extend t).scan options = (.ok (some l), d.extend t) ∨
      ∃ m e name, (c.extend t).scan options = (.ok (some m), e) ∧ m.token = .identifier name := by
  obtain ⟨skipped, word, more, pos, hrest, hword, hmore, rfl, rfl, hscan⟩ :=
    exists_word_of_scan hc hl h
  by_cases hnil : more = []
  · subst hnil
    have hext : c.extend t = ⟨.ofBytes (skipped ++ (word ++ t)), c.pos⟩ := by
      rw [extend, hrest, ← Source.ofBytes_append, List.append_nil, List.append_assoc]
    -- the bytes behind the cut that go on in the word
    obtain ⟨part, rest, rfl, hpart, hrest⟩ : ∃ part rest, t = part ++ rest ∧
        (∀ x ∈ part, Ascii.isNamePart x = true) ∧
        ∀ b ∈ rest.head?, Ascii.isNamePart b = false := Source.exists_run _ t
    have hword' : IsWord (word ++ part) := by
      obtain ⟨b, rest, rfl, hb, hall⟩ := hword
      exact ⟨b, rest ++ part, rfl, hb, List.forall_mem_append.mpr ⟨hall, hpart⟩⟩
    rw [hext, hscan, ← List.append_assoc, scan_word hword' hrest]
    by_cases hp : part = []
    · subst hp
      left
      simp [extend]
    · obtain ⟨name, hname⟩ := wordToken_append hl hp
      exact .inr ⟨_, _, name, rfl, hname⟩
  · exact .inl (scan_extend h (by simpa [Source.ofBytes] using hnil))

theorem scan_of_extend_keyword (hc : c.IsPlain) {k : Keyword} (hl : l.token = .keyword k)
    (h : (c.extend t).scan options = (.ok (some l), d.extend t)) :
    c.scan options = (.ok (some l), d) := by
  obtain ⟨skipped, word, more, pos, hrest, hword, hmore, rfl, hd, hscan⟩ :=
    exists_word_of_scan hc.extend hl h
  obtain ⟨bytes, hbytes⟩ := hc
  obtain ⟨rest, hd'⟩ : ∃ rest, d = ⟨.ofBytes rest, pos.advanceBy word⟩ ∧ more = rest ++ t := by
    obtain ⟨hr, hp⟩ := Cursor.mk.inj hd
    obtain ⟨rest, t', rfl, hrest', ht⟩ := List.map_eq_append_iff.mp hr.symm
    obtain rfl := Source.ofBytes_injective ht
    exact ⟨rest, by rw [Source.ofBytes, hrest', ← hp], rfl⟩
  obtain ⟨rfl, rfl⟩ := hd'
  have hbytes' : bytes = skipped ++ (word ++ rest) := by
    rw [extend, hbytes, ← Source.ofBytes_append] at hrest
    have h : bytes ++ t = skipped ++ (word ++ rest) ++ t := by
      rw [Source.ofBytes_injective hrest, List.append_assoc, List.append_assoc]
    exact List.append_cancel_right h
  have hc : c = ⟨.ofBytes (skipped ++ (word ++ rest)), (c.extend t).pos⟩ := by
    rw [← hbytes', ← hbytes]; rfl
  have hend : ∀ b ∈ rest.head?, Ascii.isNamePart b = false := by
    cases rest with
    | nil => exact fun b hb => nomatch hb
    | cons x rest => exact hmore
  rw [hc, hscan, scan_word hword hend]

theorem exists_eq_extend (h : Reaches (c.extend t) d) (ht : t.length ≤ d.size) :
    ∃ e : Cursor, d = e.extend t := by
  have hsuffix : Source.ofBytes t <:+ d.rest :=
    List.suffix_of_suffix_length_le (List.suffix_append _ _) h.suffix
      (by simpa [Source.ofBytes, size] using ht)
  obtain ⟨rest, hrest⟩ := hsuffix
  exact ⟨⟨rest, d.pos⟩, by rw [extend, hrest]⟩

/-! ### Scans in a row before the cut -/

theorem Scans.size_add_length_le {ls : List Lexeme} (h : Scans options c ls d) :
    d.size + ls.length ≤ c.size := by
  induction h with
  | nil => exact Nat.le_refl _
  | cons hs _ ih =>
    rw [List.length_cons]
    rcases size_scan hs with h | h
    · omega
    · cases h.1

theorem scans_of_extend (hc : c.IsPlain) {ls : List Lexeme} {k : Keyword}
    (hl : l.token = .keyword k) (h : Scans options (c.extend t) (ls ++ [l]) f)
    (hf : t.length ≤ f.size) : ∃ d, f = d.extend t ∧ Scans options c (ls ++ [l]) d := by
  induction ls generalizing c with
  | nil =>
    cases h with
    | cons hs hnil =>
      cases hnil
      obtain ⟨d, rfl⟩ := exists_eq_extend (reaches_of_scan hs) hf
      exact ⟨d, rfl, .cons (scan_of_extend_keyword hc hl hs) (.nil d)⟩
  | cons m ls ih =>
    cases h with
    | @cons _ e _ _ _ hs hrest =>
      have hlt := hrest.size_add_length_le
      simp only [List.append_eq, List.length_append, List.length_singleton] at hlt
      obtain ⟨e, rfl⟩ := exists_eq_extend (reaches_of_scan hs) (by omega)
      have he : e.rest ≠ [] := fun he => by
        have hsize : e.size = 0 := List.length_eq_zero_iff.mpr he
        rw [size_extend] at hlt
        omega
      have hs := scan_of_extend hs he
      obtain ⟨d, hd, hscans⟩ := ih (hc.scan hs) hrest
      exact ⟨d, hd, .cons hs hscans⟩

/-- The letters of a keyword are the last bytes that scanning through it takes. -/
theorem Scans.exists_taken {ls : List Lexeme} {k : Keyword}
    (h : Scans options c (ls ++ [l]) f) (hc : c.IsPlain) (hl : l.token = .keyword k) :
    ∃ taken left, c.rest = .ofBytes (taken ++ left) ∧ f.rest = .ofBytes left ∧
      Utf8.encode k.text <:+ taken := by
  induction ls generalizing c with
  | nil =>
    cases h with
    | cons hs hnil =>
      cases hnil
      obtain ⟨skipped, word, more, pos, hrest, hword, -, rfl, rfl, -⟩ :=
        exists_word_of_scan hc hl hs
      refine ⟨skipped ++ word, more, by rw [hrest, List.append_assoc], rfl, skipped, ?_⟩
      have hlt : ∀ b ∈ word, b.toNat < 0x80 := fun b hb => by
        obtain ⟨_, _, -, -, hpart⟩ := hword
        have := Ascii.isNamePart_iff.mp (hpart b hb)
        omega
      rw [← text_of_wordToken hl, Ascii.encode_text hlt]
  | cons m ls ih =>
    cases h with
    | cons hs hrest =>
      obtain ⟨hplain, bytes, hbytes, -⟩ := (reaches_of_scan hs).exists_bytes hc
      obtain ⟨taken, left, htaken, hleft, hword⟩ := ih hrest hplain
      refine ⟨bytes ++ taken, left, ?_, hleft, hword.trans (List.suffix_append _ _)⟩
      rw [hbytes, htaken, ← Source.ofBytes_append, List.append_assoc]

end Cursor

/-! ### Courses before the cut -/

namespace Progress

theorem Step.eq_semicolon {p q : Progress} {l : Lexeme} {event : Option Event}
    (h : Step p l event q) (he : event.any Event.isConstruct = true) :
    l.token = .punct .semicolon := by
  cases h <;> first | assumption | simp [Event.isConstruct] at he

end Progress

namespace Session

variable {options : ScanOptions} {c : Cursor} {p : Progress}

theorem course_of_rest_eq_nil (options : ScanOptions) (hc : c.rest = []) (hp : p ≠ .finished) :
    ∃ e d q, course options c p = ⟨[], .error e, d, q⟩ := by
  rw [course_eq options c hp, Cursor.scan_of_rest_eq_nil options hc]
  dsimp only
  split
  · rename_i q hq
    obtain ⟨hne, hend⟩ := Progress.of_atEnd hq
    obtain ⟨e, he⟩ := hend c.pos
    rw [course_eq options c hne, Cursor.scan_of_rest_eq_nil options hc]
    simp only [he]
    exact ⟨_, _, _, rfl⟩
  · exact ⟨_, _, _, rfl⟩

theorem taken_of_rest_eq_nil (options : ScanOptions) (hc : c.rest = []) (p : Progress) :
    (course options c p).taken = [] := by
  by_cases hp : p = .finished
  · rw [hp, course_finished]
  · obtain ⟨e, d, q, h⟩ := course_of_rest_eq_nil options hc hp
    rw [h]

/-- **The constructs that are reported before the cut** are reported with more behind it as well. -/
theorem constructs_of_extend (hc : c.IsPlain) (t : List UInt8) :
    (Taken.events (course options c p).taken).filter Event.isConstruct <+:
      (Taken.events (course options (c.extend t) p).taken).filter Event.isConstruct := by
  fun_induction course options c p with
  | case1 c => exact List.nil_prefix
  | case2 c p hp e d hs => exact List.nil_prefix
  | case3 c p hp d hs q hq ih =>
    rw [taken_of_rest_eq_nil options (Cursor.rest_eq_nil_of_scan hc hs)]
    exact List.nil_prefix
  | case4 c p hp d hs e hq => exact List.nil_prefix
  | case5 c p hp l d hs event q hq ih =>
    by_cases hext : (c.extend t).scan options = (.ok (some l), d.extend t)
    · rw [course_eq options (c.extend t) hp]
      simp only [hext, hq, Course.after, Taken.events_cons, List.filter_append]
      exact List.prefix_append_right_inj _ |>.mpr (ih (hc.scan hs))
    · -- the lexeme is the last one before the cut, and completes no construct
      have hd : d.rest = [] := by
        by_contra hd
        exact hext (Cursor.scan_extend hs hd)
      have hevent : ∀ e ∈ event.toList, e.isConstruct = false := fun e he => by
        rw [Bool.eq_false_iff]
        intro hconstruct
        have hsemi := (Progress.step_of_settle hq).eq_semicolon
          ((Option.any_eq_true _ _).mpr ⟨e, by simpa using he, hconstruct⟩)
        exact hext (Cursor.scan_extend_punct hc hsemi hs)
      simp only [Course.after, Taken.events_cons, taken_of_rest_eq_nil options hd,
        Taken.events_nil, List.append_nil]
      rw [List.filter_eq_nil_iff.mpr fun e he => by simp [hevent e he]]
      exact List.nil_prefix
  | case6 c p hp l d hs e q hq => exact List.nil_prefix

theorem length_le_of_course (hc : c.IsPlain) {t : List UInt8}
    (h : (course options c p).result = .ok ())
    (h' : (course options (c.extend t) p).result = .ok ()) :
    t.length ≤ (course options (c.extend t) p).cursor.size := by
  fun_induction course options c p with
  | case1 c =>
    rw [course_finished, Cursor.size_extend]
    exact Nat.le_add_left _ _
  | case2 => cases h
  | case3 c p hp d hs q hq ih =>
    obtain ⟨e, d', q', hcourse⟩ := course_of_rest_eq_nil options
      (Cursor.rest_eq_nil_of_scan hc hs) (Progress.of_atEnd hq).1
    rw [hcourse] at h
    cases h
  | case4 => cases h
  | case5 c p hp l d hs event q hq ih =>
    rw [course_eq options (c.extend t) hp] at h' ⊢
    by_cases hext : (c.extend t).scan options = (.ok (some l), d.extend t)
    · simp only [hext, hq] at h' ⊢
      exact ih (hc.scan hs) h h'
    · have hd : d.rest = [] := by
        by_contra hd
        exact hext (Cursor.scan_extend hs hd)
      -- the lexeme is the last one, so it is `endmodule`, and behind the cut it is a name
      obtain rfl : q = .finished := by
        by_contra hne
        obtain ⟨e, d', q', hcourse⟩ := course_of_rest_eq_nil options hd hne
        rw [Course.after, hcourse] at h
        cases h
      obtain ⟨rfl, -, hl⟩ := (Progress.step_of_settle hq).eq_endmodule hp
      obtain ⟨m, e, name, hm, hname⟩ := (Cursor.scan_extend_keyword hc hl hs).resolve_left hext
      have hrefuse : Progress.beforeStatement.settle m =
          (.error ⟨.grammar (.unexpected .statement m.token), m.span⟩, .beforeStatement) := by
        rw [Progress.settle_eq]
        simp [Progress.move, Progress.moveSignificant, Progress.startStatement, hname,
          Progress.refuse, Progress.expected, Progress.restart]
      simp only [hm, hrefuse] at h'
      cases h'
  | case6 => cases h

theorem run_ofSource (options : ScanOptions) (source : Source) :
    (ofSource options source).run .recorder #[] =
      ⟨(course options (.ofSource source) .beforeModule).result,
        (Taken.events (course options (.ofSource source) .beforeModule).taken).toArray,
        ⟨⟨options, (course options (.ofSource source) .beforeModule).cursor, none⟩,
          (course options (.ofSource source) .beforeModule).progress⟩⟩ := by
  rw [ofSource, ofStream, LexemeStream.ofSource, run_eq_course, Observer.replay_recorder,
    Array.empty_append]

/-- **A source that was cut short** gives no construct that the whole source does not give first. If
the whole source can be read, which takes its bytes through the last letter of `endmodule`, then the
part before the cut can be read if and only if it has all these bytes, with the same events and up
to the same position. -/
theorem run_truncated (options : ScanOptions) (s t : List UInt8) :
    let part := (ofSource options (.ofBytes s)).run .recorder #[]
    let whole := (ofSource options (.ofBytes (s ++ t))).run .recorder #[]
    part.state.toList.filter Event.isConstruct <+: whole.state.toList.filter Event.isConstruct ∧
      (whole.result = .ok () → ∃ taken left, s ++ t = taken ++ left ∧
        whole.session.stream.cursor.rest = .ofBytes left ∧ Utf8.encode "endmodule" <:+ taken ∧
        if s.length < taken.length then ∃ e, part.result = .error e
        else part.result = .ok () ∧ part.state = whole.state ∧
          part.session.stream.pos = whole.session.stream.pos) := by
  intro part whole
  have hplain := Cursor.isPlain_ofBytes s
  have hext : Cursor.ofSource (.ofBytes (s ++ t)) = (Cursor.ofSource (.ofBytes s)).extend t := by
    rw [Cursor.extend, Cursor.ofSource, Source.ofBytes_append]
    rfl
  have hpart : part = _ := run_ofSource options (.ofBytes s)
  have hwhole : whole = _ := run_ofSource options (.ofBytes (s ++ t))
  rw [hext] at hwhole
  rw [hpart, hwhole]
  refine ⟨constructs_of_extend hplain t, fun hok => ?_⟩
  obtain ⟨ts, l, htaken, hl, hsteps⟩ := steps_of_course (by simp) hok
  have hscans := scans_of_course hplain.extend hok
  rw [htaken, List.map_append, List.map_singleton] at hscans
  obtain ⟨taken, left, hbytes, hleft, hword⟩ := hscans.exists_taken hplain.extend hl
  rw [← hext] at hbytes
  have hbytes := Source.ofBytes_injective hbytes
  refine ⟨taken, left, hbytes, hleft, hword, ?_⟩
  have hlength := congrArg List.length hbytes
  rw [List.length_append, List.length_append] at hlength
  have hsize : (course options ((Cursor.ofSource (.ofBytes s)).extend t) .beforeModule).cursor.size
      = left.length := by
    rw [Cursor.size, hleft, Source.ofBytes, List.length_map]
  split_ifs with hlt
  · rcases hr : (course options (.ofSource (.ofBytes s)) .beforeModule).result with e | _
    · exact ⟨e, rfl⟩
    · have := length_le_of_course hplain hr hok
      omega
  · obtain ⟨d, hd, hscans⟩ := Cursor.scans_of_extend hplain hl hscans (by omega)
    have hmap : (ts ++ [(l, some Event.endmodule)]).map Prod.fst = ts.map Prod.fst ++ [l] := by
      rw [List.map_append, List.map_singleton]
    rw [course_of_steps (hmap ▸ hscans) hl hsteps, htaken, LexemeStream.pos, LexemeStream.pos, hd]
    exact ⟨rfl, rfl, rfl⟩

end Session

end Netlist
