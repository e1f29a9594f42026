import Netlist.Proofs.Locality

/-! # What leads to a lexeme

A scan skips blanks and noise, and then a lexeme is read where it is spelled. In a source of bytes
alone the same bytes are skipped if something else follows them, as long as it starts alike. Main
statement: `exists_lead_of_scan`. -/

namespace Netlist

namespace Source

theorem run_ofBytes_append {p : UInt8 → Bool} {bytes : List UInt8}
    (h : ∀ b ∈ bytes, p b = true) (x : Source) :
    (ofBytes bytes ++ x).run p = { x.run p with bytes := bytes ++ (x.run p).bytes } := by
  induction bytes with
  | nil => rfl
  | cons b bytes ih =>
    obtain ⟨hb, h⟩ := List.forall_mem_cons.mp h
    simp only [ofBytes_cons, List.cons_append, run, hb, if_true, ih h]

end Source

namespace Cursor

variable {options : ScanOptions} {b : UInt8} {c d e : Cursor} {l : Lexeme}

/-- A scan goes on from one cursor to the other: it skips noise and then blanks. -/
inductive Skips (options : ScanOptions) : Cursor → Cursor → Prop
  | blanks (c : Cursor) : Skips options c c.skipBlanks
  | noise {c d e : Cursor} :
      c.piece options = (.ok .noise, d) → Skips options d e → Skips options c e

theorem exists_skips_of_scan (h : c.scan options = (.ok (some l), d)) :
    ∃ e b more, Skips options c e ∧ e.rest = .byte b :: more ∧
      e.scanFrom options b = (.ok (.lexeme l), d) := by
  fun_induction scan options c with
  | case1 c l d' hp =>
    cases h
    unfold piece at hp
    split at hp
    · cases hp
    · rename_i b e he
      obtain ⟨rfl, more, hm⟩ := eq_of_look he
      exact ⟨_, b, more, .blanks c, hm, hp⟩
  | case2 c d' hp ih =>
    obtain ⟨e, b, more, hs, hm, he⟩ := ih h
    exact ⟨e, b, more, .noise hp hs, hm, he⟩
  | case3 => cases h
  | case4 => cases h

theorem scan_append_blanks (options : ScanOptions) {blanks : List UInt8}
    (h : ∀ b ∈ blanks, Ascii.isBlank b = true) (x : Source) (pos : Pos) :
    scan options ⟨.ofBytes blanks ++ x, pos⟩ = scan options ⟨x, pos.advanceBy blanks⟩ := by
  have hs : skipBlanks ⟨.ofBytes blanks ++ x, pos⟩ = skipBlanks ⟨x, pos.advanceBy blanks⟩ := by
    simp only [skipBlanks, past, Source.run_ofBytes_append h, Pos.advanceBy_append]
  rw [scan_eq, scan_eq options ⟨x, _⟩, piece, piece, hs]

theorem scan_of_readFrom (options : ScanOptions) {t : Token} {lex tail rest : List UInt8}
    (h : t.ReadFrom lex tail rest) (pos : Pos) :
    scan options ⟨.ofBytes (lex ++ (tail ++ rest)), pos⟩ =
      (.ok (some ⟨t, ⟨pos, pos.advanceBy lex⟩⟩),
        ⟨.ofBytes rest, pos.advanceBy (lex ++ tail)⟩) := by
  have hp := piece_of_readFrom options (List.forall_mem_nil _) h pos
  rw [List.nil_append] at hp
  rw [Cursor.scan_eq, hp]
  rfl

theorem Skips.scan_eq (h : Skips options c e) (hc : c.IsPlain) {more : Source}
    (he : e.rest = .byte b :: more) :
    ∃ skipped, c.rest = .ofBytes skipped ++ e.rest ∧ e.pos = c.pos.advanceBy skipped ∧
      ∀ x, e.rest.Alike x →
        scan options ⟨.ofBytes skipped ++ x, c.pos⟩ = scan options ⟨x, e.pos⟩ := by
  induction h with
  | blanks c =>
    obtain ⟨bytes, hbytes⟩ := hc
    refine ⟨(c.rest.run Ascii.isBlank).bytes, ?_, rfl, fun x _ =>
      scan_append_blanks options (fun b hb => Source.mem_run hb) x c.pos⟩
    simp only [skipBlanks, past, hbytes, Source.run_ofBytes]
    rw [← Source.ofBytes_append, List.takeWhile_append_dropWhile]
  | @noise c d e hp _ ih =>
    obtain ⟨hd, taken, hct, hpos⟩ := (reaches_of_piece hp).exists_bytes hc
    obtain ⟨skipped, hds, hepos, hscan⟩ := ih hd he
    refine ⟨taken ++ skipped, ?_, by rw [hepos, hpos, Pos.advanceBy_append], fun x hx => ?_⟩
    · rw [hct, hds, Source.ofBytes_append, List.append_assoc]
    · -- the noise is read in the same way before `x`
      have hpar : Parallel e.rest x c ⟨.ofBytes (taken ++ skipped) ++ x, c.pos⟩ := by
        refine ⟨.ofBytes (taken ++ skipped), c.pos, ?_, rfl⟩
        rw [Source.ofBytes_append, List.append_assoc, ← hds, ← hct]
      obtain ⟨hr, u, pos, hu, hx'⟩ := piece_parallel options hpar hx
        (by rw [hp, hds]; exact List.suffix_append _ _)
      rw [hp] at hr hu
      dsimp only at hu
      subst hu
      have hpx : piece options ⟨.ofBytes (taken ++ skipped) ++ x, c.pos⟩ =
          (.ok .noise, ⟨u ++ x, pos⟩) := Prod.ext hr hx'
      rw [Cursor.scan_eq, hpx, List.append_cancel_right hds]
      exact hscan x hx

/-- **What leads to a lexeme** in a source of bytes alone: bytes that are skipped before whatever
starts alike, and then the lexeme where it is spelled and ends. -/
theorem exists_lead_of_scan (hc : c.IsPlain) (h : c.scan options = (.ok (some l), d)) :
    ∃ skipped lex tail rest, c.rest = .ofBytes (skipped ++ (lex ++ (tail ++ rest))) ∧
      l.token.ReadFrom lex tail rest ∧
      l.span = ⟨c.pos.advanceBy skipped, (c.pos.advanceBy skipped).advanceBy lex⟩ ∧
      d = ⟨.ofBytes rest, (c.pos.advanceBy skipped).advanceBy (lex ++ tail)⟩ ∧
      ∀ x, Source.Alike (.ofBytes (lex ++ (tail ++ rest))) x →
        scan options ⟨.ofBytes skipped ++ x, c.pos⟩ =
          scan options ⟨x, c.pos.advanceBy skipped⟩ := by
  obtain ⟨e, b, rest, hs, hrest, hfrom⟩ := exists_skips_of_scan h
  obtain ⟨skipped, hskip, hpos, hscan⟩ := hs.scan_eq hc hrest
  obtain ⟨bytes, hbytes⟩ := hc
  -- what follows the first byte are bytes of the source
  obtain ⟨more, rfl⟩ : ∃ more, rest = Source.ofBytes more := by
    rw [hbytes, hrest] at hskip
    obtain ⟨_, more, -, -, hm⟩ := List.map_eq_append_iff.mp hskip
    obtain ⟨_, more, -, -, hm⟩ := List.map_eq_cons_iff.mp hm
    exact ⟨more, hm.symm⟩
  have he : e = ⟨.ofBytes (b :: more), c.pos.advanceBy skipped⟩ := by
    rw [← hpos, Source.ofBytes_cons, ← hrest]
  subst he
  obtain ⟨lex, tail, rest, hmore, hread, hspan, hd⟩ := exists_readFrom_of_scanFrom hfrom
  rw [hmore] at hskip hscan
  exact ⟨skipped, lex, tail, rest, by rw [Source.ofBytes_append]; exact hskip, hread, hspan, hd,
    hscan⟩

end Cursor

end Netlist
