import Mathlib.Data.List.Basic
import Mathlib.Data.List.TakeWhile
import Mathlib.Tactic.SplitIfs
import Netlist.Text

/-! # UTF-8: decoding inverts encoding

A lead byte and the bytes that continue it are the encoding of the character they assemble to
(`continues_of_encodeChar`, `encodeChar_of_continues`). So cutting an encoded text into pieces gives
its characters (`pieces_encode`), strict reading accepts exactly the encoded texts
(`decode?_eq_some_iff`), and every character that lenient reading finds stands encoded among the
bytes (`exists_of_mem_pieces`). -/

namespace Netlist.Utf8

/-! ### Lead bytes and continuations as numbers -/

theorem toNat_ofNat_of_lt {n : Nat} (h : n < 256) : (UInt8.ofNat n).toNat = n := by
  rw [UInt8.toNat_ofNat']
  exact Nat.mod_eq_of_lt h

theorem isLater_iff {b : UInt8} : isLater b = true ↔ 0x80 ≤ b.toNat ∧ b.toNat < 0xC0 := by
  simp [isLater, UInt8.le_iff_toNat_le, UInt8.lt_iff_toNat_lt]

theorem isSecond_iff {a b : UInt8} : isSecond a b = true ↔
    (0x80 ≤ b.toNat ∧ b.toNat < 0xC0) ∧ (a.toNat = 0xE0 → 0xA0 ≤ b.toNat) ∧
      (a.toNat = 0xED → b.toNat < 0xA0) ∧ (a.toNat = 0xF0 → 0x90 ≤ b.toNat) ∧
      (a.toNat = 0xF4 → b.toNat < 0x90) := by
  unfold isSecond
  simp only [beq_iff_eq, ← UInt8.toNat_inj, UInt8.reduceToNat]
  split
  · simp [UInt8.le_iff_toNat_le, UInt8.lt_iff_toNat_lt]; omega
  · split
    · simp [UInt8.le_iff_toNat_le, UInt8.lt_iff_toNat_lt]; omega
    · split
      · simp [UInt8.le_iff_toNat_le, UInt8.lt_iff_toNat_lt]; omega
      · split
        · simp [UInt8.le_iff_toNat_le, UInt8.lt_iff_toNat_lt]; omega
        · simp [UInt8.le_iff_toNat_le, UInt8.lt_iff_toNat_lt]; omega

theorem tailCount?_iff {a : UInt8} {n : Nat} : tailCount? a = some n ↔
    (n = 0 ∧ a.toNat < 0x80) ∨ (n = 1 ∧ 0xC2 ≤ a.toNat ∧ a.toNat < 0xE0) ∨
      (n = 2 ∧ 0xE0 ≤ a.toNat ∧ a.toNat < 0xF0) ∨ (n = 3 ∧ 0xF0 ≤ a.toNat ∧ a.toNat < 0xF5) := by
  unfold tailCount?
  simp only [UInt8.lt_iff_toNat_lt, UInt8.reduceToNat]
  split_ifs <;> simp <;> omega

/-- The bytes after a lead byte are of the kinds that continue a character. -/
def Continues (a : UInt8) : List UInt8 → Prop
  | [] => True
  | b :: more => isSecond a b ∧ ∀ x ∈ more, isLater x

theorem tail_append {a : UInt8} {t : List UInt8} (h : Continues a t) (rest : List UInt8) :
    tail a t.length (t ++ rest) = t := by
  unfold tail
  rw [List.take_left]
  cases t with
  | nil => rfl
  | cons b more =>
    dsimp only
    rw [if_pos h.1, List.takeWhile_eq_self_iff.mpr h.2]

/-- If the continuation is as long as the lead byte asks, it is what comes next. -/
theorem take_eq_of_length_tail {a : UInt8} {n : Nat} {rest : List UInt8}
    (h : (tail a n rest).length = n) : rest.take n = tail a n rest ∧ Continues a (rest.take n) := by
  unfold tail at h ⊢
  split at h
  · rename_i he
    rw [he]
    exact ⟨rfl, trivial⟩
  · rename_i b more he
    split at h
    · rename_i hb
      have hl : (b :: more.takeWhile isLater).length = (b :: more).length := by
        refine Nat.le_antisymm ?_ ?_
        · exact Nat.succ_le_succ (List.takeWhile_prefix _).length_le
        · rw [h, ← he]; exact List.length_take_le _ _
      have hw : more.takeWhile isLater = more :=
        (List.takeWhile_prefix _).eq_of_length (Nat.succ.inj hl)
      rw [he]
      simp only [hb, if_true, hw]
      exact ⟨trivial, hb, List.takeWhile_eq_self_iff.mp hw⟩
    · have hn : n = 0 := h.symm
      rw [hn, List.take_zero] at he
      exact absurd he (by simp)

/-! ### Characters -/

theorem toNat_charOfNat {n : Nat} (h : n.isValidChar) : (Char.ofNat n).toNat = n := by
  rw [Char.ofNat, dif_pos h]
  rfl

theorem toNat_valid (c : Char) : c.toNat.isValidChar := c.valid

theorem ofNat_eq_iff {b : UInt8} {n : Nat} (h : n < 256) : UInt8.ofNat n = b ↔ b.toNat = n := by
  rw [← UInt8.toNat_inj, toNat_ofNat_of_lt h]
  exact eq_comm

theorem encodeChar_eq (c : Char) : String.utf8EncodeChar c =
    if c.toNat ≤ 0x7F then [UInt8.ofNat c.toNat]
    else if c.toNat ≤ 0x7FF then
      [UInt8.ofNat (c.toNat / 64 % 32 + 0xC0), UInt8.ofNat (c.toNat % 64 + 0x80)]
    else if c.toNat ≤ 0xFFFF then
      [UInt8.ofNat (c.toNat / 4096 % 16 + 0xE0), UInt8.ofNat (c.toNat / 64 % 64 + 0x80),
        UInt8.ofNat (c.toNat % 64 + 0x80)]
    else
      [UInt8.ofNat (c.toNat / 262144 % 8 + 0xF0), UInt8.ofNat (c.toNat / 4096 % 64 + 0x80),
        UInt8.ofNat (c.toNat / 64 % 64 + 0x80), UInt8.ofNat (c.toNat % 64 + 0x80)] := rfl

theorem assemble_eq {a : UInt8} {t : List UInt8} {c : Char} {n : Nat}
    (h : assemble a t = Char.ofNat n) (hn : n = c.toNat) : assemble a t = c := by
  rw [h, hn, Char.ofNat_toNat]

theorem continues_of_encodeChar {c : Char} {a : UInt8} {t : List UInt8}
    (h : String.utf8EncodeChar c = a :: t) :
    tailCount? a = some t.length ∧ Continues a t ∧ assemble a t = c := by
  have hc := toNat_valid c
  simp only [Nat.isValidChar] at hc
  rw [encodeChar_eq] at h
  split_ifs at h with h1 h2 h3
  · rw [List.cons.injEq, ofNat_eq_iff (by omega)] at h
    obtain ⟨ha, rfl⟩ := h
    exact ⟨tailCount?_iff.mpr (.inl ⟨rfl, by omega⟩), trivial, assemble_eq rfl ha⟩
  · rw [List.cons.injEq, ofNat_eq_iff (by omega)] at h
    obtain ⟨ha, rfl⟩ := h
    have hb := toNat_ofNat_of_lt (show c.toNat % 64 + 0x80 < 256 by omega)
    refine ⟨tailCount?_iff.mpr (.inr (.inl ⟨rfl, by omega⟩)), ⟨?_, by simp⟩, assemble_eq rfl ?_⟩
    · rw [isSecond_iff, hb, ha]; omega
    · simp only [List.length_cons, List.length_nil, List.foldl_cons, List.foldl_nil, ha, hb]
      omega
  · rw [List.cons.injEq, ofNat_eq_iff (by omega)] at h
    obtain ⟨ha, rfl⟩ := h
    have hb := toNat_ofNat_of_lt (show c.toNat / 64 % 64 + 0x80 < 256 by omega)
    have hx := toNat_ofNat_of_lt (show c.toNat % 64 + 0x80 < 256 by omega)
    refine ⟨tailCount?_iff.mpr (.inr (.inr (.inl ⟨rfl, by omega⟩))), ⟨?_, ?_⟩, assemble_eq rfl ?_⟩
    · rw [isSecond_iff, hb, ha]; omega
    · simp only [List.mem_singleton, forall_eq]
      rw [isLater_iff, hx]; omega
    · simp only [List.length_cons, List.length_nil, List.foldl_cons, List.foldl_nil, ha, hb, hx]
      omega
  · rw [List.cons.injEq, ofNat_eq_iff (by omega)] at h
    obtain ⟨ha, rfl⟩ := h
    have hb := toNat_ofNat_of_lt (show c.toNat / 4096 % 64 + 0x80 < 256 by omega)
    have hx := toNat_ofNat_of_lt (show c.toNat / 64 % 64 + 0x80 < 256 by omega)
    have hy := toNat_ofNat_of_lt (show c.toNat % 64 + 0x80 < 256 by omega)
    refine ⟨tailCount?_iff.mpr (.inr (.inr (.inr ⟨rfl, by omega⟩))), ⟨?_, ?_⟩, assemble_eq rfl ?_⟩
    · rw [isSecond_iff, hb, ha]; omega
    · simp only [List.mem_cons, List.not_mem_nil, or_false, forall_eq_or_imp, forall_eq]
      rw [isLater_iff, isLater_iff, hx, hy]; omega
    · simp only [List.length_cons, List.length_nil, List.foldl_cons, List.foldl_nil, ha, hb, hx,
        hy]
      omega

theorem encodeChar_of_continues {a : UInt8} {t : List UInt8} (hn : tailCount? a = some t.length)
    (ht : Continues a t) : String.utf8EncodeChar (assemble a t) = a :: t := by
  rcases tailCount?_iff.mp hn with ⟨hl, ha⟩ | ⟨hl, ha⟩ | ⟨hl, ha⟩ | ⟨hl, ha⟩
  · obtain rfl := List.eq_nil_of_length_eq_zero hl
    have hv : (assemble a []).toNat = a.toNat :=
      toNat_charOfNat (n := a.toNat) (.inl (by omega))
    rw [encodeChar_eq, hv, if_pos (by omega), (ofNat_eq_iff (by omega)).mpr rfl]
  · obtain ⟨b, rfl⟩ := List.length_eq_one_iff.mp hl
    have hb := isSecond_iff.mp ht.1
    have hv : (assemble a [b]).toNat = a.toNat % 32 * 64 + b.toNat % 64 :=
      toNat_charOfNat (n := a.toNat % 32 * 64 + b.toNat % 64) (.inl (by omega))
    rw [encodeChar_eq, hv, if_neg (by omega), if_pos (by omega),
      (ofNat_eq_iff (b := a) (by omega)).mpr (by omega),
      (ofNat_eq_iff (b := b) (by omega)).mpr (by omega)]
  · obtain ⟨b, x, rfl⟩ := List.length_eq_two.mp hl
    have hb := isSecond_iff.mp ht.1
    have hx := isLater_iff.mp (ht.2 x (by simp))
    have hv : (assemble a [b, x]).toNat =
        (a.toNat % 16 * 64 + b.toNat % 64) * 64 + x.toNat % 64 :=
      toNat_charOfNat (n := (a.toNat % 16 * 64 + b.toNat % 64) * 64 + x.toNat % 64)
        (by simp only [Nat.isValidChar]; omega)
    rw [encodeChar_eq, hv, if_neg (by omega), if_neg (by omega), if_pos (by omega),
      (ofNat_eq_iff (b := a) (by omega)).mpr (by omega),
      (ofNat_eq_iff (b := b) (by omega)).mpr (by omega),
      (ofNat_eq_iff (b := x) (by omega)).mpr (by omega)]
  · obtain ⟨b, x, y, rfl⟩ := List.length_eq_three.mp hl
    have hb := isSecond_iff.mp ht.1
    have hx := isLater_iff.mp (ht.2 x (by simp))
    have hy := isLater_iff.mp (ht.2 y (by simp))
    have hv : (assemble a [b, x, y]).toNat =
        ((a.toNat % 8 * 64 + b.toNat % 64) * 64 + x.toNat % 64) * 64 + y.toNat % 64 :=
      toNat_charOfNat (n := ((a.toNat % 8 * 64 + b.toNat % 64) * 64 + x.toNat % 64) * 64 +
        y.toNat % 64) (by simp only [Nat.isValidChar]; omega)
    rw [encodeChar_eq, hv, if_neg (by omega), if_neg (by omega), if_neg (by omega),
      (ofNat_eq_iff (b := a) (by omega)).mpr (by omega),
      (ofNat_eq_iff (b := b) (by omega)).mpr (by omega),
      (ofNat_eq_iff (b := x) (by omega)).mpr (by omega),
      (ofNat_eq_iff (b := y) (by omega)).mpr (by omega)]

/-! ### Pieces -/

theorem encodeChar_of_piece {a : UInt8} {rest : List UInt8} {c : Char}
    (h : (piece a rest).1 = some c) :
    String.utf8EncodeChar c = a :: rest.take (piece a rest).2 := by
  unfold piece at h ⊢
  split at h
  · simp at h
  · rename_i n hn
    dsimp only at h
    split at h
    · rename_i hl
      obtain ⟨he, hc⟩ := take_eq_of_length_tail hl
      dsimp only
      rw [hl, ← Option.some.inj h, ← he]
      refine encodeChar_of_continues ?_ hc
      rw [he, hl]
      exact hn
    · simp at h

theorem piece_of_encodeChar {c : Char} {a : UInt8} {t : List UInt8}
    (h : String.utf8EncodeChar c = a :: t) (rest : List UInt8) :
    piece a (t ++ rest) = (some c, t.length) := by
  obtain ⟨hn, ht, hc⟩ := continues_of_encodeChar h
  unfold piece
  rw [hn]
  simp only [tail_append ht, if_true, hc]

theorem pieces_encodeChar (c : Char) (rest : List UInt8) :
    pieces (String.utf8EncodeChar c ++ rest) = some c :: pieces rest := by
  obtain ⟨a, t, h⟩ := List.exists_cons_of_ne_nil (String.utf8EncodeChar_ne_nil (c := c))
  rw [h, List.cons_append, pieces, piece_of_encodeChar h]
  simp

theorem encode_append (s t : String) : encode (s ++ t) = encode s ++ encode t := by
  simp [encode]

theorem encode_ofList (cs : List Char) :
    encode (String.ofList cs) = cs.flatMap String.utf8EncodeChar := by
  simp [encode]

/-- **An encoded text is cut into its characters.** -/
theorem pieces_encode (s : String) : pieces (encode s) = s.toList.map some := by
  unfold encode
  induction s.toList with
  | nil => simp [pieces]
  | cons c cs ih => rw [List.flatMap_cons, pieces_encodeChar, ih, List.map_cons]

theorem decode?_encode (s : String) : decode? (encode s) = some s := by
  unfold decode?
  rw [pieces_encode]
  have h : (s.toList.map some).mapM id = some s.toList := by
    induction s.toList with
    | nil => rfl
    | cons c cs ih => simp [ih]
  rw [h, Option.map_some, String.ofList_toList]

theorem decodeLossy_encode (s : String) : decodeLossy (encode s) = s := by
  unfold decodeLossy
  rw [pieces_encode, List.map_map]
  simp [Function.comp_def]

theorem eq_encode_of_decode? {bytes : List UInt8} {s : String} (h : decode? bytes = some s) :
    bytes = encode s := by
  obtain ⟨cs, hcs, rfl⟩ := Option.map_eq_some_iff.mp h
  rw [encode_ofList]
  clear h
  induction bytes using pieces.induct generalizing cs with
  | case1 =>
    simp only [pieces, List.mapM_nil, Option.pure_def, Option.some.injEq] at hcs
    simp [← hcs]
  | case2 a rest ih =>
    rw [pieces, List.mapM_cons] at hcs
    simp only [id_eq, Option.bind_eq_bind, Option.bind_eq_some_iff, Option.pure_def,
      Option.some.injEq] at hcs
    obtain ⟨c, hc, cs, hcs, rfl⟩ := hcs
    rw [List.flatMap_cons, ← ih cs hcs, encodeChar_of_piece hc, List.cons_append,
      List.take_append_drop]

/-- **Strict reading accepts exactly the encoded texts.** -/
theorem decode?_eq_some_iff {bytes : List UInt8} {s : String} :
    decode? bytes = some s ↔ bytes = encode s :=
  ⟨eq_encode_of_decode?, fun h => h ▸ decode?_encode s⟩

theorem exists_of_mem_pieces {bytes : List UInt8} {c : Char} (h : some c ∈ pieces bytes) :
    ∃ before after, bytes = before ++ String.utf8EncodeChar c ++ after := by
  induction bytes using pieces.induct with
  | case1 => simp [pieces] at h
  | case2 a rest ih =>
    rw [pieces, List.mem_cons] at h
    rcases h with h | h
    · refine ⟨[], rest.drop (piece a rest).2, ?_⟩
      rw [encodeChar_of_piece h.symm, List.nil_append, List.cons_append, List.take_append_drop]
    · obtain ⟨before, after, he⟩ := ih h
      refine ⟨a :: rest.take (piece a rest).2 ++ before, after, ?_⟩
      simp only [List.append_assoc] at he ⊢
      rw [← he, List.cons_append, List.take_append_drop]

end Netlist.Utf8
