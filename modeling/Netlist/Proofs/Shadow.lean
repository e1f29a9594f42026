import Netlist.Proofs.Blanking
import Netlist.Proofs.Lead

/-! # Comments and blanks

Where a source has a comment its shadow has blanks, so scanning the shadow gives the same results
from the same positions, but no comments (`Shadows`). Main statement: a source whose comments were
blanked is its shadow (`Yields.shadows_blank`). -/

namespace Netlist

/-- What one scan gives. -/
abbrev ScanResult := Except ReadError (Option Lexeme)

/-- The text and the stretch of the comment that was scanned. -/
def commentOf? : ScanResult → Option (String × Span)
  | .ok (some ⟨.comment text, span⟩) => some (text, span)
  | _ => none

/-- The texts and the stretches of the comments that were scanned. -/
def comments (rs : List ScanResult) : List (String × Span) := rs.filterMap commentOf?

theorem commentOf?_eq_some {r : ScanResult} {text : String} {span : Span}
    (h : commentOf? r = some (text, span)) : r = .ok (some ⟨.comment text, span⟩) := by
  unfold commentOf? at h
  split at h <;> cases h
  rfl

theorem commentOf?_eq_none_iff {l : Lexeme} :
    commentOf? (.ok (some l)) = none ↔ l.token.isSignificant = true := by
  obtain ⟨t, span⟩ := l
  cases t <;> simp [commentOf?, Token.isSignificant]

namespace Cursor

variable {options : ScanOptions} {c d e : Cursor} {r : ScanResult} {rs rs' : List ScanResult}

/-- Scanning on from one cursor gives the results one after the other and then stands at the
other cursor. -/
inductive Yields (options : ScanOptions) : Cursor → List ScanResult → Cursor → Prop
  | nil (c : Cursor) : Yields options c [] c
  | cons {c d e : Cursor} {r : ScanResult} {rs : List ScanResult} :
      c.scan options = (r, d) → Yields options d rs e → Yields options c (r :: rs) e

theorem Yields.append (h : Yields options c rs d) (h' : Yields options d rs' e) :
    Yields options c (rs ++ rs') e := by
  induction h with
  | nil => exact h'
  | cons hs _ ih => exact .cons hs (ih h')

/-! ### Comments in a source of bytes alone -/

theorem exists_comment_of_scan {bytes : List UInt8} {pos : Pos} {text : String} {span : Span}
    (h : scan options ⟨.ofBytes bytes, pos⟩ = (.ok (some ⟨.comment text, span⟩), d)) :
    ∃ skipped body rest, bytes = skipped ++ (Ascii.slash :: body ++ rest) ∧
      span.start = pos.advanceBy skipped ∧
      span.limit = span.start.advanceBy (Ascii.slash :: body) ∧
      d = ⟨.ofBytes rest, span.limit⟩ ∧
      ∀ x, Source.Alike (.ofBytes (Ascii.slash :: body ++ rest)) x →
        scan options ⟨.ofBytes skipped ++ x, pos⟩ = scan options ⟨x, span.start⟩ := by
  obtain ⟨skipped, lex, tail, rest, hbytes, hread, rfl, rfl, hscan⟩ :=
    exists_lead_of_scan ⟨bytes, rfl⟩ h
  obtain ⟨line, ending, rfl, -⟩ := hread.spelledBy
  obtain ⟨rfl, -⟩ := hread.endsBefore
  refine ⟨skipped, Ascii.slash :: (line ++ ending), rest, Source.ofBytes_injective hbytes, rfl, rfl,
    ?_, hscan⟩
  rw [List.append_nil]

/-- Comments that are still to come start here or later, and where one starts there is a slash. -/
theorem Yields.comment_start (h : Yields options c rs d) (hc : c.IsPlain) :
    ∀ x ∈ comments rs, c.pos ≤ x.2.start ∧
      (x.2.start = c.pos → ∃ more, c.rest = .byte Ascii.slash :: more) := by
  induction h with
  | nil => exact List.forall_mem_nil _
  | @cons c d e r rs hs _ ih =>
    obtain ⟨hd, taken, htaken, hpos⟩ := (reaches_of_scan hs).exists_bytes hc
    have rest : ∀ x ∈ comments rs, c.pos ≤ x.2.start ∧
        (x.2.start = c.pos → ∃ more, c.rest = .byte Ascii.slash :: more) := fun x hx => by
      obtain ⟨hle, hslash⟩ := ih hd x hx
      rw [hpos] at hle
      refine ⟨(Pos.le_advanceBy _ _).trans hle, fun heq => ?_⟩
      -- nothing was taken before the comment
      obtain rfl : taken = [] := by
        by_contra hne
        exact absurd (heq ▸ hle) (not_le.mpr (Pos.lt_advanceBy _ hne))
      rw [htaken]
      exact hslash (heq.trans hpos.symm)
    rcases hcomment : commentOf? r with _ | ⟨text, span⟩
    · rw [comments, List.filterMap_cons_none hcomment]
      exact rest
    · rw [comments, List.filterMap_cons_some hcomment]
      refine List.forall_mem_cons.mpr ⟨?_, rest⟩
      obtain ⟨bytes, hbytes⟩ := hc
      obtain ⟨_, pos⟩ := c
      subst hbytes
      rw [commentOf?_eq_some hcomment] at hs
      obtain ⟨skipped, body, more, rfl, hstart, -⟩ := exists_comment_of_scan hs
      refine ⟨hstart ▸ Pos.le_advanceBy _ _, fun heq => ?_⟩
      obtain rfl : skipped = [] := by
        by_contra hne
        exact absurd (hstart.symm.trans heq) (Pos.lt_advanceBy pos hne).ne'
      exact ⟨_, rfl⟩

/-! ### The shadow of a source -/

/-- The shadow of a cursor gives the same results from the same positions, but has a blank space
where the cursor has comments. -/
inductive Shadows (options : ScanOptions) : List ScanResult → Cursor → Cursor → Prop
  | nil {c c' : Cursor} : c'.pos = c.pos → Shadows options [] c c'
  | comment {c d c' d' : Cursor} {r : ScanResult} {rs : List ScanResult} {x : String × Span} :
      c.scan options = (r, d) → commentOf? r = some x → c'.pos = c.pos →
        c'.scan options = d'.scan options → Shadows options rs d d' →
        Shadows options (r :: rs) c c'
  | other {c d c' d' : Cursor} {r : ScanResult} {rs : List ScanResult} :
      c.scan options = (r, d) → commentOf? r = none → c'.pos = c.pos →
        c'.scan options = (r, d') → Shadows options rs d d' → Shadows options (r :: rs) c c'

theorem Shadows.pos_eq (h : Shadows options rs c d) : d.pos = c.pos := by
  cases h <;> assumption

theorem Shadows.of_comment {c' : Cursor} {x : String × Span} (h : Shadows options (r :: rs) c c')
    (hs : c.scan options = (r, d)) (hr : commentOf? r = some x) :
    ∃ d', c'.scan options = d'.scan options ∧ Shadows options rs d d' := by
  cases h with
  | comment hs' _ _ hskip hd =>
    cases hs.symm.trans hs'
    exact ⟨_, hskip, hd⟩
  | other _ hr' => cases hr.symm.trans hr'

theorem Shadows.of_no_comment {c' : Cursor} (h : Shadows options (r :: rs) c c')
    (hs : c.scan options = (r, d)) (hr : commentOf? r = none) :
    ∃ d', c'.scan options = (r, d') ∧ Shadows options rs d d' := by
  cases h with
  | comment _ hr' => cases hr.symm.trans hr'
  | other hs' _ _ hscan hd =>
    cases hs.symm.trans hs'
    exact ⟨_, hscan, hd⟩

/-- Blanking the comments changes the first byte only from a slash to a space. -/
theorem Yields.alike_blank {bytes : List UInt8} {pos : Pos}
    (h : Yields options ⟨.ofBytes bytes, pos⟩ rs d) :
    Source.Alike (.ofBytes bytes)
      (.ofBytes (blank ((comments rs).map Prod.snd) pos bytes)) := by
  cases bytes with
  | nil => exact .nil
  | cons b bytes =>
    rw [blank]
    split_ifs with hb
    · obtain ⟨-, s, hs, hle, -⟩ := hb
      obtain ⟨x, hx, rfl⟩ := List.mem_map.mp hs
      obtain ⟨hle', hslash⟩ := h.comment_start ⟨b :: bytes, rfl⟩ x hx
      obtain ⟨more, hmore⟩ := hslash (le_antisymm hle hle')
      obtain ⟨⟨⟩, -⟩ := List.cons.inj hmore
      exact .slash _ _
    · exact .cons _ _ _

theorem scan_blank_comment {skipped body more : List UInt8} {pos : Pos} {span : Span}
    {later : List Span} (hstart : span.start = pos.advanceBy skipped)
    (hlimit : span.limit = span.start.advanceBy (Ascii.slash :: body))
    (hlater : ∀ s ∈ later, span.limit ≤ s.start)
    (hscan : ∀ x, Source.Alike (.ofBytes (Ascii.slash :: body ++ more)) x →
      scan options ⟨.ofBytes skipped ++ x, pos⟩ = scan options ⟨x, span.start⟩) :
    scan options ⟨.ofBytes (blank (span :: later) pos
        (skipped ++ (Ascii.slash :: body ++ more))), pos⟩ =
      scan options ⟨.ofBytes (blank later span.limit more), span.limit⟩ := by
  have hlt : span.start < span.limit := hlimit ▸ Pos.lt_advanceBy _ (List.cons_ne_nil _ _)
  have hskipped : blank (span :: later) pos skipped = skipped :=
    blank_eq_self fun q _ hq => by
      rw [← hstart] at hq
      refine List.forall_mem_cons.mpr ⟨fun h => ?_, fun s hs h => ?_⟩
      · exact absurd h.1 (not_le.mpr hq)
      · exact absurd ((hlater s hs).trans h.1) (not_le.mpr (hq.trans hlt))
  have hmore : blank (span :: later) span.limit more = blank later span.limit more :=
    blank_congr fun q hq _ => by
      have hq : ¬ span.Covers q := fun h => absurd h.2 (not_lt.mpr hq)
      simp [hq]
  have hmem : span ∈ span :: later := List.mem_cons_self
  have hbody := isBlank_of_mem_blank hmem (le_refl _) hlimit.ge
  rw [blank_append, blank_append, hskipped, ← hstart, ← hlimit, hmore, Source.ofBytes_append, hscan,
    Source.ofBytes_append, scan_append_blanks options hbody, advanceBy_blank, ← hlimit]
  rw [List.cons_append, blank, if_pos ⟨by decide, span, hmem, le_refl _, hlt⟩]
  exact .slash _ _

/-- **A source whose comments were blanked is its shadow.** -/
theorem Yields.shadows_blank (h : Yields options c rs d) {bytes : List UInt8}
    (hc : c.rest = .ofBytes bytes) :
    Shadows options rs c ⟨.ofBytes (blank ((comments rs).map Prod.snd) c.pos bytes), c.pos⟩ := by
  induction h generalizing bytes with
  | nil => exact .nil rfl
  | @cons c d e r rs hs hrest ih =>
    obtain ⟨_, pos⟩ := c
    subst hc
    obtain ⟨taken, more, rfl, rfl⟩ := (reaches_of_scan hs).exists_eq_append
    have hstarts := hrest.comment_start ⟨more, rfl⟩
    have halike := hrest.alike_blank
    rcases hcomment : commentOf? r with _ | ⟨text, span⟩
    · rw [comments, List.filterMap_cons_none hcomment, ← comments]
      refine .other hs hcomment rfl ?_ (ih rfl)
      -- the comments come later
      have hsame : blank ((comments rs).map Prod.snd) pos taken = taken :=
        blank_eq_self fun q _ hq s hm hcovers => by
          obtain ⟨x, hx, rfl⟩ := List.mem_map.mp hm
          exact absurd ((hstarts x hx).1.trans hcovers.1) (not_le.mpr hq)
      rw [Source.ofBytes_append] at hs
      rw [blank_append, hsame, Source.ofBytes_append]
      exact scan_local hs halike
    · rw [comments, List.filterMap_cons_some hcomment, ← comments]
      refine .comment hs hcomment rfl ?_ (ih rfl)
      rw [commentOf?_eq_some hcomment] at hs
      obtain ⟨skipped, body, rest, hbytes, hstart, hlimit, hd, hscan⟩ := exists_comment_of_scan hs
      obtain ⟨hrest, hpos'⟩ := Cursor.mk.inj hd
      obtain rfl := Source.ofBytes_injective hrest
      rw [hbytes]
      have hlater : ∀ s ∈ (comments rs).map Prod.snd, span.limit ≤ s.start := fun s hm => by
        obtain ⟨x, hx, rfl⟩ := List.mem_map.mp hm
        exact hpos' ▸ (hstarts x hx).1
      rw [List.map_cons, scan_blank_comment hstart hlimit hlater hscan, hpos']

end Cursor

end Netlist
