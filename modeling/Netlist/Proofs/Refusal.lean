import Netlist.Proofs.Blanking
import Netlist.Proofs.Reaches

/-! # Errors of scans

Scanning fails with lexical errors only, and the stretch of text that such an error points to was
passed on the way from where the scan began to where it stopped, wherever the source pauses or fails
(`Cursor.lexical_scan`, `Cursor.within_scan`). -/

namespace Netlist

namespace Cursor

variable {options : ScanOptions} {c d start : Cursor} {α : Type}

theorem Reaches.pos_le (h : Reaches c d) : c.pos ≤ d.pos := by
  induction h with
  | refl => exact le_refl _
  | @byte b _ pos _ _ ih => exact (pos.lt_advance b).le.trans ih
  | pause _ ih => exact ih
  | fault => exact le_refl _

/-- An error is lexical. -/
def Lexical {α : Type} (r : Scanned α) : Prop := ∀ e, r.1 = .error e → e.cause.kind = .lexical

/-- Reading passes the stretch on its way from the one cursor to the other. -/
def Passes (c d : Cursor) (s : Span) : Prop :=
  ∃ a b, c.Reaches a ∧ a.Reaches b ∧ b.Reaches d ∧ s = ⟨a.pos, b.pos⟩

theorem Passes.le {s : Span} (h : Passes c d s) :
    c.pos ≤ s.start ∧ s.start ≤ s.limit ∧ s.limit ≤ d.pos := by
  obtain ⟨a, b, hca, hab, hbd, rfl⟩ := h
  exact ⟨hca.pos_le, hab.pos_le, hbd.pos_le⟩

/-- An error is lexical, and its stretch is passed on the way from the cursor. -/
def Within (start : Cursor) (r : Scanned α) : Prop :=
  ∀ e, r.1 = .error e → e.cause.kind = .lexical ∧ start.Passes r.2 e.span

theorem Within.mono {r : Scanned α} (h : Within c r) (hr : start.Reaches c) : Within start r :=
  fun e he =>
    let ⟨hkind, a, b, hca, hspan⟩ := h e he
    ⟨hkind, a, b, hr.trans hca, hspan⟩

/-! ### Scanners -/

theorem within_ok (start : Cursor) (x : α) (c : Cursor) :
    Within start ((.ok x, c) : Scanned α) := by
  rintro _ ⟨⟩

theorem within_fail (h : start.Reaches c) (e : LexicalError) :
    Within start (c.fail start.pos e : Scanned α) := by
  rintro _ ⟨⟩
  exact ⟨rfl, start, c, .refl _, h, .refl _, rfl⟩

theorem within_judgeConstant (h : start.Reaches c) (base : Nat) (digits : List UInt8) :
    Within start (c.judgeConstant start.pos base digits) := by
  unfold judgeConstant
  split
  · exact within_ok _ _ _
  · exact within_ok _ _ _
  · exact within_fail h _

theorem within_scanSized (h : start.Reaches c) (width : String) :
    Within start (c.scanSized start.pos width) := by
  have hpop := h.trans c.pop_reaches
  unfold scanSized
  dsimp only
  split
  · exact within_fail hpop _
  · split_ifs
    · exact within_fail hpop _
    · exact within_judgeConstant (hpop.trans (past_reaches _ _)) _ _

theorem within_scanConstant (c : Cursor) : Within c c.scanConstant := by
  have h := (c.past_reaches Ascii.isDigit).trans (look_reaches _)
  unfold scanConstant
  dsimp only
  split_ifs
  · exact within_scanSized (h.trans (skip_reaches _)) _
  · exact within_judgeConstant h _ _

theorem within_scanEscaped (c : Cursor) : Within c c.scanEscaped := by
  have h := c.skip_reaches.trans (c.skip.past_reaches fun b => !endsEscape b)
  unfold scanEscaped
  dsimp only
  split
  · exact within_fail h _
  · split
    · exact within_ok _ _ _
    · -- the blank that ends the name does not belong to it
      rintro _ ⟨⟩
      refine ⟨rfl, c, _, .refl _, h, ?_, rfl⟩
      dsimp only
      split_ifs
      · exact .refl _
      · exact skip_reaches _

theorem within_scanSlash (options : ScanOptions) (c : Cursor) : Within c (c.scanSlash options) := by
  have h := c.skip_reaches.trans (look_reaches _)
  have hstar := h.trans (skip_reaches _)
  unfold scanSlash
  dsimp only
  split_ifs
  · exact within_ok _ _ _
  · exact within_ok _ _ _
  · exact within_fail (hstar.trans (blockTail_reaches _ _ _)) _
  · exact within_fail h _
  · exact within_fail h _

theorem within_scanDirective (options : ScanOptions) (c : Cursor) :
    Within c (c.scanDirective options) := by
  have h := c.skip_reaches.trans (past_reaches _ Ascii.isNameStart)
  unfold scanDirective
  dsimp only
  split_ifs
  · exact within_ok _ _ _
  · exact within_fail h _
  · exact within_fail (.refl _) _

theorem within_scanFrom (options : ScanOptions) (b : UInt8) (c : Cursor) :
    Within c (c.scanFrom options b) := by
  unfold scanFrom
  split_ifs
  · exact within_scanDirective _ _
  · exact within_scanSlash _ _
  · exact within_scanEscaped _
  · exact within_ok _ _ _
  · exact within_scanConstant _
  · split
    · exact within_ok _ _ _
    · exact within_fail (.refl _) _

theorem within_piece (options : ScanOptions) (c : Cursor) : Within c (c.piece options) := by
  have h := c.skipBlanks_reaches.trans (look_reaches _)
  unfold piece
  split <;> rename_i d hd <;> rw [hd] at h
  · exact within_ok _ _ _
  · exact (within_scanFrom _ _ _).mono h

/-! ### Scans -/

/-- **An error of a scan** points to text between the start of the scan and where it stopped. -/
theorem within_scan (options : ScanOptions) (c : Cursor) : Within c (c.scan options) := by
  fun_induction scan options c with
  | case1 => exact within_ok _ _ _
  | case2 c d hp ih => exact ih.mono (reaches_of_piece hp)
  | case3 => exact within_ok _ _ _
  | case4 c e d hp =>
    have h := within_piece options c
    rw [hp] at h
    exact fun e' he => h e' (by simpa using he)

/-- **Only lexical errors come of a scan.** -/
theorem lexical_scan (options : ScanOptions) (c : Cursor) : Lexical (c.scan options) :=
  fun e he => (within_scan options c e he).1

/-! ### Counters -/

section Kept

variable {bytes : List UInt8} (hsize : bytes.length + 1 < UInt32.size)
include hsize

theorem Reaches.kept (h : Reaches (.ofSource (.ofBytes bytes)) d) : d.pos.Kept := by
  obtain ⟨taken, rest, rfl, rfl⟩ := h.exists_eq_append
  rw [List.length_append] at hsize
  exact Pos.kept_advanceBy_start (by omega)

theorem Passes.kept {s : Span} (h : Passes (.ofSource (.ofBytes bytes)) d s) : s.Kept := by
  obtain ⟨a, b, ha, hab, -, rfl⟩ := h
  exact ⟨ha.kept hsize, (ha.trans hab).kept hsize⟩

theorem kept_of_scan_error (hc : Reaches (.ofSource (.ofBytes bytes)) c) {e : ReadError}
    (h : c.scan options = (.error e, d)) : e.span.Kept := by
  obtain ⟨-, hpasses⟩ := (within_scan options c).mono hc e (congrArg Prod.fst h)
  exact hpasses.kept hsize

end Kept

end Cursor

end Netlist
