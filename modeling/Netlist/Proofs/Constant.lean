import Netlist.Lexeme.Piece
import Netlist.Proofs.Bytes

/-! # Scanning constants

The spellings of a bit (`IsBit`) are told by the value that their digits have as a number of any
size: reading with 64 bits gives up only where that value is too large for a bit
(`Numeral.word?_eq_some_iff`). A constant is read up to the first byte that cannot go on in it
(`Cursor.scanConstant_of_isBit`), and nothing else is read as one
(`Cursor.exists_isBit_of_scanConstant`). -/

namespace Netlist

/-! ### Numbers of any size -/

namespace Numeral

variable {base m n : Nat} {digits : List UInt8}

theorem le_of_foldlM_value (hb : 0 < base)
    (h : digits.foldlM (fun n b => (digitBelow? base b).map (n * base + ·)) m = some n) :
    m ≤ n := by
  induction digits generalizing m with
  | nil => exact Nat.le_of_eq (by simpa using h)
  | cons b digits ih =>
    rw [List.foldlM_cons, Option.bind_eq_bind, Option.bind_eq_some_iff] at h
    obtain ⟨k, hk, h⟩ := h
    obtain ⟨d, -, rfl⟩ := Option.map_eq_some_iff.mp hk
    calc m ≤ m * base := Nat.le_mul_of_pos_right m hb
      _ ≤ m * base + d := Nat.le_add_right _ _
      _ ≤ n := ih h

theorem fit?_eq_some_iff : fit? m = some n ↔ m = n ∧ n < UInt64.size := by
  unfold fit?
  split_ifs with h
  · simp only [Option.some.injEq]
    exact ⟨fun he => ⟨he, he ▸ h⟩, fun he => he.1⟩
  · exact iff_of_false (by simp) fun he => h (he.1 ▸ he.2)

/-- From a number that fits, reading goes on with 64 bits as long as the value fits. -/
theorem foldlM_word_eq_some_iff (hb : 0 < base) (hm : m < UInt64.size) :
    digits.foldlM (fun n b => do fit? (n * base + (← digitBelow? base b))) m = some n ↔
      digits.foldlM (fun n b => (digitBelow? base b).map (n * base + ·)) m = some n ∧
        n < UInt64.size := by
  induction digits generalizing m with
  | nil =>
    simp only [List.foldlM_nil, Option.pure_def, Option.some.injEq]
    exact ⟨fun h => ⟨h, h ▸ hm⟩, fun h => h.1⟩
  | cons b digits ih =>
    simp only [List.foldlM_cons, Option.bind_eq_bind, Option.bind_eq_some_iff,
      Option.map_eq_some_iff, fit?_eq_some_iff]
    constructor
    · rintro ⟨k, ⟨d, hd, rfl, hk⟩, h⟩
      have hv := (ih hk).mp h
      exact ⟨⟨_, ⟨d, hd, rfl⟩, hv.1⟩, hv.2⟩
    · rintro ⟨⟨k, ⟨d, hd, rfl⟩, h⟩, hn⟩
      have hk := (le_of_foldlM_value hb h).trans_lt hn
      exact ⟨_, ⟨d, hd, rfl, hk⟩, (ih hk).mpr ⟨h, hn⟩⟩

/-- **Reading with 64 bits** gives the value if this fits, and gives up otherwise. -/
theorem word?_eq_some_iff (hb : 0 < base) :
    word? base digits = some n ↔ value? base digits = some n ∧ n < UInt64.size := by
  cases digits with
  | nil => simp [word?, value?]
  | cons b digits => exact foldlM_word_eq_some_iff hb (by decide)

end Numeral

/-! ### The spellings of a bit -/

/-- The bytes spell the bit: as a decimal number, or as the width one with a base and digits, among
which there may be underscores. -/
inductive IsBit (value : Bool) : List UInt8 → Prop
  | decimal {digits : List UInt8} : (∀ b ∈ digits, Ascii.isDigit b = true) →
      Numeral.value? 10 digits = some value.toNat → IsBit value digits
  | sized {letter : UInt8} {base : Nat} {digits : List UInt8} :
      Cursor.base? letter = some base → (∀ b ∈ digits, Cursor.isSizedPart b = true) →
      Numeral.value? base (digits.filter (· != Ascii.underscore)) = some value.toNat →
      IsBit value (0x31 :: Ascii.apostrophe :: letter :: digits)

/-- The byte would go on in the constant: in its digits, or with a base. -/
def continuesConstant (lex : List UInt8) (b : UInt8) : Bool :=
  if Ascii.apostrophe ∈ lex then Cursor.isSizedPart b
  else Ascii.isDigit b || b == Ascii.apostrophe

namespace Cursor

variable {c d : Cursor} {start pos : Pos} {base : Nat} {digits bytes lex rest : List UInt8}
  {value : Bool} {l : Lexeme}

theorem pos_of_base? {letter : UInt8} (h : base? letter = some base) : 0 < base := by
  unfold base? at h
  split at h <;> first | (cases h; decide) | cases h

theorem word?_eq_some_toNat_iff (hb : 0 < base) : Numeral.word? base digits = some value.toNat ↔
    Numeral.value? base digits = some value.toNat := by
  rw [Numeral.word?_eq_some_iff hb, and_iff_left_iff_imp]
  exact fun _ => Nat.lt_of_lt_of_le value.toNat_lt (by decide)

theorem judgeConstant_of_value? (hb : 0 < base)
    (h : Numeral.value? base digits = some value.toNat) :
    c.judgeConstant start base digits = c.accept start (.constant value) := by
  rw [judgeConstant, (word?_eq_some_toNat_iff hb).mpr h]
  cases value <;> rfl

theorem value?_of_judgeConstant (hb : 0 < base)
    (h : c.judgeConstant start base digits = (.ok (.lexeme l), d)) :
    ∃ value : Bool, Numeral.value? base digits = some value.toNat ∧
      l = ⟨.constant value, ⟨start, c.pos⟩⟩ ∧ d = c := by
  unfold judgeConstant at h
  split at h
  · rename_i hw
    cases h
    exact ⟨false, (word?_eq_some_toNat_iff hb).mp hw, rfl, rfl⟩
  · rename_i hw
    cases h
    exact ⟨true, (word?_eq_some_toNat_iff hb).mp hw, rfl, rfl⟩
  · simp [fail] at h

/-- The width before the apostrophe is the digit one. -/
theorem eq_one_of_text (h : ∀ b ∈ digits, Ascii.isDigit b = true) (ht : Ascii.text digits = "1") :
    digits = [0x31] := by
  have hlt : ∀ b ∈ digits, b.toNat < 0x80 := fun b hb => by
    have := h b hb
    simp only [Ascii.isDigit, Bool.and_eq_true, decide_eq_true_eq, UInt8.le_iff_toNat_le,
      UInt8.reduceToNat] at this
    omega
  rw [← Ascii.encode_text hlt, ht]
  rfl

theorem apostrophe_notMem (h : ∀ b ∈ digits, Ascii.isDigit b = true) :
    Ascii.apostrophe ∉ digits := fun hm => absurd (h _ hm) (by decide)

/-- **A constant is read** up to the first byte that cannot go on in it. -/
theorem scanConstant_of_isBit (h : IsBit value lex) (hs : Stops (continuesConstant lex) rest)
    (pos : Pos) :
    scanConstant ⟨.ofBytes (lex ++ rest), pos⟩ =
      accept ⟨.ofBytes rest, pos.advanceBy lex⟩ pos (.constant value) := by
  cases h with
  | decimal hd hv =>
    have hs : ∀ b ∈ rest.head?, Ascii.isDigit b = false ∧ (b == Ascii.apostrophe) = false := by
      intro b hb
      have := hs b hb
      rwa [continuesConstant, if_neg (apostrophe_notMem hd), Bool.or_eq_false_iff] at this
    have hnext : (rest.head? == some Ascii.apostrophe) = false := by
      cases rest with
      | nil => rfl
      | cons b rest => exact (hs b rfl).2
    simp only [scanConstant, Source.run_append hd fun b hb => (hs b hb).1, past, look_ofBytes,
      hnext, Bool.false_eq_true, if_false]
    exact judgeConstant_of_value? (by decide) hv
  | @sized letter base digits hb hd hv =>
    have hs : Stops isSizedPart rest := fun b hr => by
      have := hs b hr
      rwa [continuesConstant, if_pos (by simp)] at this
    have hwidth : Source.run Ascii.isDigit (.ofBytes
        ([0x31] ++ Ascii.apostrophe :: letter :: (digits ++ rest))) =
        ⟨[0x31], some Ascii.apostrophe,
          .ofBytes (Ascii.apostrophe :: letter :: (digits ++ rest))⟩ :=
      Source.run_append (List.forall_mem_singleton.mpr (by decide)) (stops_cons_iff.mpr (by decide))
    have hone : Ascii.text [0x31] = "1" := by decide
    have hbytes : 0x31 :: Ascii.apostrophe :: letter :: digits ++ rest =
        [0x31] ++ Ascii.apostrophe :: letter :: (digits ++ rest) := rfl
    rw [hbytes]
    simp only [scanConstant, hwidth, past, look_ofBytes, List.head?_cons, beq_self_eq_true, if_true,
      skip_ofBytes_cons, scanSized, pop_ofBytes_cons, Option.bind_some, hb, hone, bne_self_eq_false,
      Bool.false_eq_true, if_false, Source.run_append hd hs]
    exact judgeConstant_of_value? (pos_of_base? hb) hv

/-- **What is read as a constant** is the spelling of a bit, up to the first byte that cannot go on
in it. -/
theorem exists_isBit_of_scanConstant
    (h : scanConstant ⟨.ofBytes bytes, pos⟩ = (.ok (.lexeme l), d)) :
    ∃ value lex rest, bytes = lex ++ rest ∧ IsBit value lex ∧ Stops (continuesConstant lex) rest ∧
      l = ⟨.constant value, ⟨pos, pos.advanceBy lex⟩⟩ ∧
      d = ⟨.ofBytes rest, pos.advanceBy lex⟩ := by
  obtain ⟨width, more, rfl, hw, hs⟩ := Source.exists_run Ascii.isDigit bytes
  simp only [scanConstant, Source.run_append hw hs, past, look_ofBytes] at h
  split_ifs at h with hnext
  · -- a sized constant
    obtain ⟨more, rfl⟩ := List.head?_eq_some_iff.mp (beq_iff_eq.mp hnext)
    rw [skip_ofBytes_cons] at h
    cases more with
    | nil => simp [scanSized, pop, look, fail] at h
    | cons letter more =>
      simp only [scanSized, pop_ofBytes_cons, Option.bind_some] at h
      cases hb : base? letter with
      | none => simp [hb, fail] at h
      | some base =>
        obtain ⟨digits, rest, rfl, hd, hs⟩ := Source.exists_run isSizedPart more
        simp only [hb, Source.run_append hd hs, past] at h
        split_ifs at h with hone
        · simp [fail] at h
        · obtain ⟨value, hv, rfl, rfl⟩ := value?_of_judgeConstant (pos_of_base? hb) h
          obtain rfl := eq_one_of_text hw (by simpa using hone)
          refine ⟨value, _, rest, rfl, .sized hb hd hv, fun b hr => ?_, rfl, rfl⟩
          rw [continuesConstant, if_pos (by simp)]
          exact hs b hr
  · -- a decimal number
    obtain ⟨value, hv, rfl, rfl⟩ := value?_of_judgeConstant (by decide) h
    refine ⟨value, width, more, rfl, .decimal hw hv, fun b hr => ?_, rfl, rfl⟩
    rw [continuesConstant, if_neg (apostrophe_notMem hw), hs b hr, Bool.false_or,
      beq_eq_false_iff_ne]
    rintro rfl
    exact hnext (by rw [Option.mem_def.mp hr]; rfl)

end Cursor

end Netlist
