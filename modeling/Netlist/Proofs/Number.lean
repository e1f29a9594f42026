import Mathlib.Data.Nat.Digits.Defs
import Netlist.Proofs.Skipped

/-! # Numbers

Where a scan meets a digit it reads a number, and gives a constant exactly if the number denotes a
bit (`Numeral.DenotesBit`): as a decimal number of any length, or with the width one and a base. The
value is that of the digits as a natural number of any size (`Numeral.HasValue`), though it is
computed with 64 bits. Main statement: `Cursor.scan_number`. -/

namespace Netlist

namespace Numeral

variable {base m n : Nat} {digits : List UInt8}

/-- The bytes are digits of the base, at least one, and `n` is the number that they denote. -/
def HasValue (base : Nat) (digits : List UInt8) (n : Nat) : Prop :=
  ∃ values : List Nat, digits.map digit? = values.map some ∧ values ≠ [] ∧
    (∀ v ∈ values, v < base) ∧ Nat.ofDigits base values.reverse = n

theorem digitBelow?_eq_some_iff {b : UInt8} {v : Nat} :
    digitBelow? base b = some v ↔ digit? b = some v ∧ v < base := by
  simp [digitBelow?, Option.filter_eq_some_iff]

/-- Reading on from `m` puts the digits behind it. -/
theorem foldlM_value_eq_some_iff :
    digits.foldlM (fun n b => (digitBelow? base b).map (n * base + ·)) m = some n ↔
      ∃ values : List Nat, digits.map digit? = values.map some ∧ (∀ v ∈ values, v < base) ∧
        values.foldl (fun n v => n * base + v) m = n := by
  induction digits generalizing m with
  | nil =>
    rw [List.foldlM_nil, Option.pure_def, Option.some.injEq]
    refine ⟨fun h => ⟨[], rfl, List.forall_mem_nil _, h⟩, fun ⟨values, hv, _, h⟩ => ?_⟩
    obtain rfl := List.map_eq_nil_iff.mp hv.symm
    exact h
  | cons b digits ih =>
    rw [List.foldlM_cons, Option.bind_eq_bind, Option.bind_eq_some_iff]
    constructor
    · rintro ⟨k, hk, h⟩
      obtain ⟨v, hv, rfl⟩ := Option.map_eq_some_iff.mp hk
      obtain ⟨hdigit, hlt⟩ := digitBelow?_eq_some_iff.mp hv
      obtain ⟨values, hvalues, hall, hfold⟩ := ih.mp h
      refine ⟨v :: values, ?_, List.forall_mem_cons.mpr ⟨hlt, hall⟩, hfold⟩
      rw [List.map_cons, List.map_cons, hdigit, hvalues]
    · rintro ⟨values, hvalues, hall, hfold⟩
      obtain ⟨v, values, rfl, hdigit, hvalues⟩ := List.map_eq_cons_iff.mp hvalues.symm
      obtain ⟨hlt, hall⟩ := List.forall_mem_cons.mp hall
      refine ⟨m * base + v, ?_, ih.mpr ⟨values, hvalues.symm, hall, hfold⟩⟩
      rw [digitBelow?_eq_some_iff.mpr ⟨hdigit.symm, hlt⟩]
      rfl

theorem foldl_eq_ofDigits (base : Nat) (values : List Nat) :
    values.foldl (fun n v => n * base + v) 0 = Nat.ofDigits base values.reverse := by
  rw [Nat.ofDigits_eq_foldr, List.foldr_reverse]
  congr 1
  funext n v
  rw [Nat.cast_id, Nat.add_comm, Nat.mul_comm]

theorem value?_eq_some_iff_hasValue : value? base digits = some n ↔ HasValue base digits n := by
  cases digits with
  | nil =>
    refine iff_of_false (by simp [value?]) fun ⟨values, hvalues, hne, _⟩ => hne ?_
    exact List.map_eq_nil_iff.mp hvalues.symm
  | cons b digits =>
    rw [value?, foldlM_value_eq_some_iff]
    · simp only [foldl_eq_ofDigits]
      refine exists_congr fun values => and_congr_right fun hvalues => ?_
      have hne : values ≠ [] := by rintro rfl; cases hvalues
      exact (and_iff_right hne).symm
    · exact List.cons_ne_nil b digits

/-- The letters that name a base, each with its base. -/
def baseLetters : List (UInt8 × Nat) :=
  [(0x62, 2), (0x42, 2), (0x6F, 8), (0x4F, 8), (0x64, 10), (0x44, 10), (0x68, 16), (0x48, 16)]

/-- The digits `number` before the bytes `rest` denote the bit: by themselves, or as the width of
what an apostrophe and a base letter begin. -/
def DenotesBit (number rest : List UInt8) (value : Bool) : Prop :=
  if rest.head? = some Ascii.apostrophe then
    number = [0x31] ∧ ∃ letter base more, rest = Ascii.apostrophe :: letter :: more ∧
      baseLetters.lookup letter = some base ∧
      HasValue base ((more.takeWhile Cursor.isSizedPart).filter (· != Ascii.underscore)) value.toNat
  else HasValue 10 number value.toNat

end Numeral

namespace Cursor

open Numeral

variable {options : ScanOptions} {b : UInt8} {number rest bytes gap lex : List UInt8} {pos : Pos}
  {value : Bool}

theorem base?_eq_lookup (b : UInt8) : base? b = baseLetters.lookup b := by
  have h : ∀ n < 256, base? (UInt8.ofNat n) = baseLetters.lookup (UInt8.ofNat n) := by
    decide +kernel
  simpa using h b.toNat b.toNat_lt

/-! ### Numbers that denote a bit -/

theorem exists_isBit_of_denotesBit (hn : ∀ x ∈ number, Ascii.isDigit x = true)
    (hs : Stops Ascii.isDigit rest) (h : DenotesBit number rest value) :
    ∃ lex more, number ++ rest = lex ++ more ∧ IsBit value lex ∧
      Stops (continuesConstant lex) more := by
  unfold DenotesBit at h
  split_ifs at h with hnext
  · obtain ⟨rfl, letter, base, more, rfl, hletter, hvalue⟩ := h
    have hbase : base? letter = some base := (base?_eq_lookup letter).trans hletter
    refine ⟨0x31 :: Ascii.apostrophe :: letter :: more.takeWhile isSizedPart,
      more.dropWhile isSizedPart, ?_, ?_, ?_⟩
    · simp [List.takeWhile_append_dropWhile]
    · exact .sized hbase (fun x hx => List.mem_takeWhile_imp hx)
        (value?_eq_some_iff_hasValue.mpr hvalue)
    · intro x hx
      rw [continuesConstant, if_pos (by simp)]
      exact stops_dropWhile isSizedPart more x hx
  · refine ⟨number, rest, rfl, .decimal hn (value?_eq_some_iff_hasValue.mpr h), fun x hx => ?_⟩
    rw [continuesConstant, if_neg (apostrophe_notMem hn), hs x hx, Bool.false_or,
      beq_eq_false_iff_ne]
    rintro rfl
    exact hnext hx

theorem denotesBit_of_isBit (h : IsBit value lex) (hs : Stops (continuesConstant lex) rest) :
    DenotesBit ((lex ++ rest).takeWhile Ascii.isDigit) ((lex ++ rest).dropWhile Ascii.isDigit)
      value := by
  cases h with
  | decimal hd hv =>
    have hends : ∀ x ∈ rest.head?, Ascii.isDigit x = false ∧ (x == Ascii.apostrophe) = false := by
      intro x hx
      have := hs x hx
      rwa [continuesConstant, if_neg (apostrophe_notMem hd), Bool.or_eq_false_iff] at this
    have hdigit : Stops Ascii.isDigit rest := fun x hx => (hends x hx).1
    have hnext : rest.head? ≠ some Ascii.apostrophe := fun hx =>
      absurd (hends _ hx).2 (by decide)
    rw [hdigit.takeWhile_append hd, hdigit.dropWhile_append hd, DenotesBit, if_neg hnext]
    exact value?_eq_some_iff_hasValue.mp hv
  | @sized letter base digits hb hd hv =>
    have hsized : Stops isSizedPart rest := fun x hx => by
      have := hs x hx
      rwa [continuesConstant, if_pos (by simp)] at this
    refine (if_pos rfl).mpr ⟨rfl, letter, base, digits ++ rest, rfl, ?_, ?_⟩
    · rw [← base?_eq_lookup, hb]
    · rw [hsized.takeWhile_append hd]
      exact value?_eq_some_iff_hasValue.mp hv

/-! ### Scans that meet a digit -/

theorem scan_of_isDigit (hgap : Gap options gap) (hb : Ascii.isDigit b = true)
    (bytes : List UInt8) (pos : Pos) :
    (∃ value lex rest span, b :: bytes = lex ++ rest ∧ IsBit value lex ∧
      Stops (continuesConstant lex) rest ∧
      (scan options ⟨.ofBytes (gap ++ b :: bytes), pos⟩).1 =
        .ok (some ⟨.constant value, span⟩)) ∨
    ∃ e span, (scan options ⟨.ofBytes (gap ++ b :: bytes), pos⟩).1 =
      .error ⟨.lexical e, span⟩ := by
  have hpiece : piece options ⟨.ofBytes (b :: bytes), pos.advanceBy gap⟩ =
      scanConstant ⟨.ofBytes (b :: bytes), pos.advanceBy gap⟩ := by
    rw [Source.ofBytes_cons, piece_of_byte options (isBlank_eq_false_of_isDigit hb),
      scanFrom_of_isDigit options hb]
  rw [Source.ofBytes_append, scan_gap_append hgap, scan_eq, hpiece]
  rcases hc : scanConstant ⟨.ofBytes (b :: bytes), pos.advanceBy gap⟩ with ⟨⟨cause, span⟩ | p, d⟩
  · obtain ⟨hkind, -⟩ := within_scanConstant _ ⟨cause, span⟩ (congrArg Prod.fst hc)
    cases cause with
    | lexical e => exact .inr ⟨e, span, rfl⟩
    | grammar => cases hkind
    | pattern => cases hkind
  · cases p with
    | lexeme l =>
      obtain ⟨value, lex, rest, he, hbit, hs, rfl, -⟩ := exists_isBit_of_scanConstant hc
      exact .inl ⟨value, lex, rest, _, he, hbit, hs, rfl⟩
    | noise =>
      rw [← scanFrom_of_isDigit options hb] at hc
      refine absurd (congrArg Prod.fst hc) (scanFrom_ne_noise ?_ ?_) <;>
        · rintro rfl
          exact absurd hb (by decide)
    | finish =>
      rw [← scanFrom_of_isDigit options hb] at hc
      exact absurd (congrArg Prod.fst hc) (scanFrom_ne_finish _ _ _)

/-- **A number is judged by its value**, however many digits it has. Where a scan meets a digit, it
gives a constant exactly if the digits denote that bit, and a lexical error if they denote none. -/
theorem scan_number (hgap : Gap options gap) (hb : Ascii.isDigit b = true) (bytes : List UInt8)
    (pos : Pos) :
    let number := (b :: bytes).takeWhile Ascii.isDigit
    let rest := (b :: bytes).dropWhile Ascii.isDigit
    let result := (scan options ⟨.ofBytes (gap ++ b :: bytes), pos⟩).1
    (∀ value, (∃ span, result = .ok (some ⟨.constant value, span⟩)) ↔
      DenotesBit number rest value) ∧
    ((∀ value, ¬ DenotesBit number rest value) → ∃ e span, result = .error ⟨.lexical e, span⟩) := by
  intro number rest result
  have hscan := scan_of_isDigit hgap hb bytes pos
  have hread {value lex rest} (he : b :: bytes = lex ++ rest) (hbit : IsBit value lex)
      (hs : Stops (continuesConstant lex) rest) :
      ∃ span, result = .ok (some ⟨.constant value, span⟩) := by
    have hgives := scan_gap_readFrom hgap (t := .constant value) ⟨trivial, hbit, rfl, hs⟩ pos
    rw [List.nil_append, ← he] at hgives
    exact ⟨_, congrArg Prod.fst hgives⟩
  refine ⟨fun value => ⟨?_, fun h => ?_⟩, fun hnone => ?_⟩
  · rintro ⟨span, h⟩
    rcases hscan with ⟨value', lex, more, _, he, hbit, hs, h'⟩ | ⟨e, _, h'⟩
    · cases h.symm.trans h'
      have hdenotes := denotesBit_of_isBit hbit hs
      rwa [← he] at hdenotes
    · cases h.symm.trans h'
  · obtain ⟨lex, more, he, hbit, hs⟩ := exists_isBit_of_denotesBit
      (fun x hx => List.mem_takeWhile_imp hx) (stops_dropWhile _ _) h
    exact hread (List.takeWhile_append_dropWhile.symm.trans he) hbit hs
  · rcases hscan with ⟨value, lex, more, _, he, hbit, hs, h'⟩ | herror
    · have hdenotes := denotesBit_of_isBit hbit hs
      rw [← he] at hdenotes
      exact absurd hdenotes (hnone value)
    · exact herror

/-- The digit one behind more zeros than 64 bits hold denotes a bit, and `2 ^ 64 + 1` does not. -/
theorem scan_number_of_padded :
    let gap := [0x2F, 0x2A, 0x30, 0x2A, 0x2F, 0x20]
    let zeros := List.replicate 20 0x30
    let sized := 0x27 :: 0x68 :: 0x5F :: (zeros ++ Utf8.encode "1_;")
    let wide := Utf8.encode "8446744073709551617;"
    Gap .permissive gap ∧ Ascii.isDigit 0x31 = true ∧
      (∃ span, (scan .permissive ⟨.ofBytes (gap ++ 0x31 :: sized), .start⟩).1 =
        .ok (some ⟨.constant true, span⟩)) ∧
      ∃ e span, (scan .permissive ⟨.ofBytes (gap ++ 0x31 :: wide), .start⟩).1 =
        .error ⟨.lexical e, span⟩ := by
  intro gap zeros sized wide
  have hgap : Gap .permissive gap := by
    have hinside : ¬ [Ascii.star, Ascii.slash] <:+: [0x30] ++ [Ascii.star] := by decide
    exact .noise (.block rfl hinside) (.blank rfl .nil)
  have hdigit : Ascii.isDigit 0x31 = true := rfl
  have hone : DenotesBit ((0x31 :: sized).takeWhile Ascii.isDigit)
      ((0x31 :: sized).dropWhile Ascii.isDigit) true := by
    refine (if_pos rfl).mpr ⟨rfl, 0x68, 16, _, rfl, rfl, value?_eq_some_iff_hasValue.mp ?_⟩
    decide
  have hwide : ∀ value, ¬ DenotesBit ((0x31 :: wide).takeWhile Ascii.isDigit)
      ((0x31 :: wide).dropWhile Ascii.isDigit) value := by
    intro value h
    have hvalue : Numeral.value? 10 (Utf8.encode "18446744073709551617") = some value.toNat :=
      value?_eq_some_iff_hasValue.mpr h
    revert hvalue
    cases value <;> decide
  exact ⟨hgap, hdigit, ((scan_number hgap hdigit sized .start).1 true).mpr hone,
    (scan_number hgap hdigit wide .start).2 hwide⟩

end Cursor

end Netlist
