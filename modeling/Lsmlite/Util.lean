import Lsmlite.Lib.Bytes

/-!
# Constants and varints

Throughout, `none` is a panic: an index or slice out of range, a failed `expect`, and, as in a
dev build, an arithmetic overflow or a failed `debug_assert`. A run that does not panic here
computes the same in a release build.
-/

namespace Lsmlite
open Bytes

abbrev Blob := List UInt8

abbrev lsmliteSstableHeader : Blob := [108, 115, 109, 108, 105, 116, 101]
abbrev v0Header : Nat := 0
abbrev headerSize : Nat := 9

abbrev dataLogHeader : UInt8 := 0
abbrev tombstoneLogHeader : UInt8 := 1

abbrev footerSize : Nat := 24
abbrev recordReadBufferSize : Nat := 4096

abbrev defaultWalBufferSize : Nat := 64000
abbrev defaultWalBufferFlushTime : Nat := 400

/-- `Vec::with_capacity(size)` with its length set; no caller reads what is in it. -/
def makeBlobBuffer (size : Nat) : Option Blob :=
  if size < 2 ^ 63 then some (List.replicate size 0) else none

/-! ## Allocations -/

abbrev isizeMax : Nat := 2 ^ 63 - 1

/-- A `Vec` of `size` bytes can be made: past `isize::MAX` its length panics, and past `memory`, the
most the process gets in one piece, it is aborted. -/
abbrev Allocates (memory size : Nat) : Prop := size ≤ memory ∧ size ≤ isizeMax

def allocate (memory size : Nat) : Option Unit := guard (Allocates memory size)

theorem allocates_isizeMax {size : Nat} : Allocates isizeMax size ↔ size < 2 ^ 63 := by
  simp only [Allocates, isizeMax]
  omega

/-! ## Varints -/

/-- The loop of `encode_varint`. The first argument counts the slots left in the 10-byte
buffer; with none left, `buffer[idx]` is out of range. -/
def encodeVarintLoop : Nat → Nat → Blob → Nat → Option (Blob × Nat)
  | 0, _, _, _ => none
  | slots + 1, value, buffer, idx =>
    let byte := UInt8.ofNat (value &&& 0x7F)
    let rest := value >>> 7
    if rest ≠ 0 then encodeVarintLoop slots rest (buffer.set idx (byte ||| 0x80)) (idx + 1)
    else some (buffer.set idx byte, idx + 1)

def encodeVarint (value : Nat) : Option (Blob × Nat) :=
  encodeVarintLoop 10 value (List.replicate 10 0) 0

/-- The loop of `decode_varint`. The first argument counts the shifts below 64 bits left: the
eleventh byte would be shifted by 70. -/
def decodeVarintLoop (buffer : Blob) (start : Nat) : Nat → Nat → Nat → Option (Nat × Nat)
  | 0, _, _ => none
  | shifts + 1, varint, offset => do
    let byte ← buffer[offset]?
    let varint := varint ||| (((byte &&& 0x7F).toNat <<< (7 * (offset - start))) % 2 ^ 64)
    if byte &&& 0x80 = 0 then some (varint, offset + 1 - start)
    else decodeVarintLoop buffer start shifts varint (offset + 1)

def decodeVarint (buffer : Blob) (offset : Nat) : Option (Nat × Nat) :=
  decodeVarintLoop buffer offset 10 0 offset

/-- The loop of `varint_size_from_len`, ten rounds at most. -/
def varintSizeLoop : Nat → Nat → Nat → Nat → Nat
  | 0, _, size, _ => size
  | rounds + 1, len, size, upperBound =>
    if upperBound ≤ len then varintSizeLoop rounds len (size + 1) (upperBound <<< 7 % 2 ^ 64)
    else size

def varintSizeFromLen (len : Nat) : Nat := varintSizeLoop 10 len 1 (1 <<< 7)

/-! ## What the varint functions compute -/

theorem low7_byte (n : Nat) : UInt8.ofNat (n &&& 0x7F) = UInt8.ofNat (n % 128) := by
  rw [show (0x7F : Nat) = 2 ^ 7 - 1 from rfl, Nat.and_two_pow_sub_one_eq_mod]

theorem continued_byte (n : Nat) :
    UInt8.ofNat (n &&& 0x7F) ||| 0x80 = UInt8.ofNat (n % 128 + 128) := by
  have h : n % 128 < 2 ^ 7 := Nat.mod_lt _ (by decide)
  rw [low7_byte]
  apply UInt8.toNat_inj.mp
  rw [UInt8.toNat_or, UInt8.toNat_ofNat', UInt8.toNat_ofNat', show (0x80 : UInt8).toNat = 2 ^ 7 * 1
    from rfl, Nat.mod_eq_of_lt (by omega), Nat.or_comm, ← Nat.two_pow_add_eq_or_of_lt h]
  omega

theorem encodeVarintLoop_eq (n slots : Nat) (filled rest : Blob) (hs : (leb n).length ≤ slots)
    (hr : rest.length = slots) :
    encodeVarintLoop slots n (filled ++ rest) filled.length =
      some (filled ++ leb n ++ rest.drop (leb n).length, filled.length + (leb n).length) := by
  induction slots generalizing n filled rest with
  | zero => have := leb_length_pos n; omega
  | succ slots ih =>
    obtain ⟨x, xs, rfl⟩ := List.exists_cons_of_length_eq_add_one hr
    have hset (b : UInt8) : (filled ++ x :: xs).set filled.length b = (filled ++ [b]) ++ xs := by
      simp
    rw [encodeVarintLoop]
    by_cases h : n < 128
    · have hz : n >>> 7 = 0 := by rw [Nat.shiftRight_eq_div_pow]; omega
      simp only [hz, ne_eq, not_true_eq_false, ↓reduceIte, hset, low7_byte, Nat.mod_eq_of_lt h,
        leb_small h, List.length_singleton, List.drop_succ_cons, List.drop_zero]
    · have hnz : n >>> 7 ≠ 0 := by rw [Nat.shiftRight_eq_div_pow]; omega
      have hd : n >>> 7 = n / 128 := Nat.shiftRight_eq_div_pow n 7
      rw [leb_large (by omega)] at hs ⊢
      simp only [hnz, ne_eq, not_false_eq_true, ↓reduceIte, hset, continued_byte]
      have := ih (n / 128) (filled ++ [UInt8.ofNat (n % 128 + 128)]) xs
        (by simpa using hs) (by simpa using hr)
      rw [List.length_append, List.length_singleton, ← hd] at this
      rw [this, hd]
      simp only [List.append_assoc, List.cons_append, List.nil_append, List.length_cons,
        List.drop_succ_cons]
      congr 2; omega

theorem encodeVarint_eq {n : Nat} (h : n < 2 ^ 64) :
    encodeVarint n =
      some (leb n ++ List.replicate (10 - (leb n).length) 0, (leb n).length) := by
  have := encodeVarintLoop_eq n 10 [] (List.replicate 10 0) (leb_length_le_ten h) (by simp)
  simpa only [encodeVarint, List.nil_append, List.drop_replicate, List.length_nil,
    Nat.zero_add] using this

theorem encodeVarintLoop_none (n slots : Nat) (buffer : Blob) (idx : Nat)
    (h : slots < (leb n).length) : encodeVarintLoop slots n buffer idx = none := by
  induction slots generalizing n buffer idx with
  | zero => rfl
  | succ slots ih =>
    by_cases hn : n < 128
    · rw [leb_small hn, List.length_singleton] at h; omega
    · have hd : n >>> 7 = n / 128 := Nat.shiftRight_eq_div_pow n 7
      have hnz : n >>> 7 ≠ 0 := by omega
      rw [leb_large (by omega), List.length_cons] at h
      rw [encodeVarintLoop]
      simp only [hnz, ne_eq, not_false_eq_true, ↓reduceIte]
      exact ih _ _ _ (by rw [hd]; omega)

/-- Whatever `encode_varint` returns is the encoding and its length. -/
theorem encodeVarint_some {n len : Nat} {buffer : Blob} (h : encodeVarint n = some (buffer, len)) :
    len = (leb n).length ∧ slice buffer 0 len = some (leb n) := by
  by_cases hl : (leb n).length ≤ 10
  · have := encodeVarintLoop_eq n 10 [] (List.replicate 10 0) hl (by simp)
    rw [List.nil_append, List.length_nil, ← encodeVarint, h] at this
    cases this
    exact ⟨by simp, by simp [slice]⟩
  · rw [encodeVarint, encodeVarintLoop_none n 10 _ _ (by omega)] at h
    cases h

theorem payload_byte (b : UInt8) : (b &&& 0x7F).toNat = b.toNat % 128 := by
  rw [UInt8.toNat_and, show (0x7F : UInt8).toNat = 2 ^ 7 - 1 from rfl,
    Nat.and_two_pow_sub_one_eq_mod]

theorem continuation_bit (b : UInt8) : b &&& 0x80 = 0 ↔ b.toNat < 128 := by
  have table : ∀ i : Fin 256, (UInt8.ofNat i.val &&& 0x80 = 0 ↔ i.val < 128) := by decide +kernel
  simpa using table ⟨b.toNat, b.toNat_lt⟩

theorem decodeVarintLoop_eq (pre suf : Blob) (n shifts i acc : Nat) (offset : Nat)
    (hoff : offset = pre.length) (hi : i ≤ offset) (hs : (leb n).length ≤ shifts)
    (hten : i + shifts = 10) (hacc : acc < 2 ^ (7 * i)) (hn : n * 2 ^ (7 * i) < 2 ^ 64) :
    decodeVarintLoop (pre ++ (leb n ++ suf)) (offset - i) shifts acc offset =
      some (acc + n * 2 ^ (7 * i), i + (leb n).length) := by
  induction shifts generalizing pre n i acc offset with
  | zero => have := leb_length_pos n; omega
  | succ shifts ih =>
    subst hoff
    have hpos : pre.length - (pre.length - i) = i := by omega
    have hor (m : Nat) (hm : m * 2 ^ (7 * i) < 2 ^ 64) :
        acc ||| ((m <<< (7 * i)) % 2 ^ 64) = acc + m * 2 ^ (7 * i) := by
      rw [Nat.shiftLeft_eq, Nat.mod_eq_of_lt hm, Nat.or_comm, Nat.mul_comm,
        ← Nat.two_pow_add_eq_or_of_lt hacc, Nat.add_comm]
    rw [decodeVarintLoop]
    by_cases h : n < 128
    · have hb : (UInt8.ofNat n).toNat = n := by rw [UInt8.toNat_ofNat']; omega
      have hc : UInt8.ofNat n &&& 0x80 = 0 := by rw [continuation_bit, hb]; exact h
      simp only [leb_small h, List.cons_append, List.nil_append, List.getElem?_append_right
        (Nat.le_refl _), Nat.sub_self, List.getElem?_cons_zero, Option.bind_eq_bind,
        Option.bind_some, hc, ↓reduceIte, payload_byte, hb, Nat.mod_eq_of_lt h, hpos,
        hor n hn, List.length_singleton]
      congr 2; omega
    · have hb : (UInt8.ofNat (n % 128 + 128)).toNat = n % 128 + 128 := by
        rw [UInt8.toNat_ofNat']; omega
      have hc : ¬ (UInt8.ofNat (n % 128 + 128) &&& 0x80 = 0) := by
        rw [continuation_bit, hb]; omega
      have hsplit : n * 2 ^ (7 * i) = n % 128 * 2 ^ (7 * i) + n / 128 * 2 ^ (7 * (i + 1)) := by
        have h128 : 2 ^ (7 * (i + 1)) = 128 * 2 ^ (7 * i) := by
          rw [Nat.mul_add, Nat.pow_add]; omega
        rw [h128, ← Nat.mul_assoc, ← Nat.add_mul, Nat.mul_comm (n / 128)]
        congr 1; omega
      have hlow : acc + n % 128 * 2 ^ (7 * i) < 2 ^ (7 * (i + 1)) := by
        have h128 : 2 ^ (7 * (i + 1)) = 128 * 2 ^ (7 * i) := by
          rw [Nat.mul_add, Nat.pow_add]; omega
        have : n % 128 * 2 ^ (7 * i) ≤ 127 * 2 ^ (7 * i) :=
          Nat.mul_le_mul_right _ (by omega)
        omega
      rw [leb_large (by omega)] at hs ⊢
      simp only [List.cons_append, List.getElem?_append_right
        (Nat.le_refl _), Nat.sub_self, List.getElem?_cons_zero, Option.bind_eq_bind,
        Option.bind_some, hc, ↓reduceIte, payload_byte, hb, hpos, Nat.add_mod_right, Nat.mod_mod,
        List.length_cons]
      rw [hor (n % 128) (by omega)]
      have hcat : pre ++ UInt8.ofNat (n % 128 + 128) :: (leb (n / 128) ++ suf) =
          (pre ++ [UInt8.ofNat (n % 128 + 128)]) ++ (leb (n / 128) ++ suf) := by simp
      have := ih (pre ++ [UInt8.ofNat (n % 128 + 128)]) (n / 128) (i + 1)
        (acc + n % 128 * 2 ^ (7 * i)) (pre.length + 1) (by simp) (by omega)
        (by simpa using hs) (by omega) (by omega) (by omega)
      rw [show pre.length + 1 - (i + 1) = pre.length - i by omega] at this
      rw [hcat, this, hsplit]
      congr 2 <;> omega

/-- Decoding an encoded number gives it back, with the number of bytes walked. -/
theorem decodeVarint_leb (pre suf : Blob) (n : Nat) {offset : Nat} (ho : offset = pre.length)
    (h : n < 2 ^ 64) :
    decodeVarint (pre ++ (leb n ++ suf)) offset = some (n, (leb n).length) := by
  have := decodeVarintLoop_eq pre suf n 10 0 0 offset ho (Nat.zero_le _) (leb_length_le_ten h)
    rfl (by simp) (by simpa using h)
  simpa [decodeVarint] using this

theorem decodeVarintLoop_cut (pre : Blob) (start shifts varint : Nat) {n r offset : Nat}
    (hr : r < (leb n).length) (ho : offset = pre.length) :
    decodeVarintLoop (pre ++ (leb n).take r) start shifts varint offset = none := by
  induction shifts generalizing pre n r offset varint with
  | zero => rfl
  | succ shifts ih =>
    subst ho
    cases r with
    | zero => simp [decodeVarintLoop]
    | succ r =>
      have hn : ¬ n < 128 := by
        intro h
        rw [leb_small h, List.length_singleton] at hr
        omega
      rw [leb_large (by omega), List.length_cons] at hr
      have hb : (UInt8.ofNat (n % 128 + 128)).toNat = n % 128 + 128 := by
        rw [UInt8.toNat_ofNat']; omega
      have hc : ¬ (UInt8.ofNat (n % 128 + 128) &&& 0x80 = 0) := by
        rw [continuation_bit, hb]; omega
      have hcat : pre ++ UInt8.ofNat (n % 128 + 128) :: (leb (n / 128)).take r =
          (pre ++ [UInt8.ofNat (n % 128 + 128)]) ++ (leb (n / 128)).take r := by simp
      rw [leb_large (by omega), List.take_succ_cons, decodeVarintLoop]
      simp only [List.getElem?_append_right (Nat.le_refl _), Nat.sub_self,
        List.getElem?_cons_zero, Option.bind_eq_bind, Option.bind_some, hc, ↓reduceIte]
      rw [hcat]
      exact ih _ _ (by omega) (by simp)

/-- Decoding a number whose last byte is missing runs out of the buffer. -/
theorem decodeVarint_cut (pre : Blob) {n r offset : Nat} (hr : r < (leb n).length)
    (ho : offset = pre.length) : decodeVarint (pre ++ (leb n).take r) offset = none :=
  decodeVarintLoop_cut pre offset 10 0 hr ho

theorem decodeVarintLoop_bounds {buffer : Blob} {start shifts varint offset v w : Nat}
    (hs : start ≤ offset) (h : decodeVarintLoop buffer start shifts varint offset = some (v, w)) :
    offset < start + w ∧ start + w ≤ buffer.length := by
  induction shifts generalizing varint offset with
  | zero => cases h
  | succ shifts ih =>
    rw [decodeVarintLoop] at h
    cases hb : buffer[offset]? with
    | none => simp [hb] at h
    | some byte =>
      have hlt := (List.getElem?_eq_some_iff.mp hb).1
      simp only [hb, Option.bind_eq_bind, Option.bind_some] at h
      split at h
      · cases h; omega
      · have := ih (by omega) h; omega

/-- A decoded varint has a byte, and lies in the buffer. -/
theorem decodeVarint_bounds {buffer : Blob} {offset v w : Nat}
    (h : decodeVarint buffer offset = some (v, w)) : 0 < w ∧ offset + w ≤ buffer.length := by
  have := decodeVarintLoop_bounds (Nat.le_refl _) h
  omega

theorem varintSizeLoop_eq (n rounds size : Nat) (hr : (leb n).length < size + rounds)
    (hlow : 128 ^ (size - 1) ≤ n ∨ size = 1) (hsize : 1 ≤ size) (hn : n < 2 ^ 63) :
    varintSizeLoop rounds n size (128 ^ size % 2 ^ 64) = (leb n).length := by
  induction rounds generalizing size with
  | zero =>
    -- the width is at least `size`, as `n` is past the previous bound
    have hge : size ≤ (leb n).length := by
      rcases hlow with h | h
      · by_contra hc
        obtain ⟨k, hk⟩ : ∃ k, size = k + 2 := ⟨size - 2, by have := leb_length_pos n; omega⟩
        subst hk
        have := (leb_length_le_iff n k).mp (by omega)
        simp only [Nat.add_succ_sub_one] at h
        omega
      · have := leb_length_pos n; omega
    omega
  | succ rounds ih =>
    have hten : (leb n).length ≤ 9 :=
      (leb_length_le_iff n 8).mpr (Nat.lt_of_lt_of_le hn (by decide))
    have hge : size ≤ (leb n).length := by
      rcases hlow with h | h
      · by_contra hc
        obtain ⟨k, hk⟩ : ∃ k, size = k + 2 := ⟨size - 2, by have := leb_length_pos n; omega⟩
        subst hk
        have := (leb_length_le_iff n k).mp (by omega)
        simp only [Nat.add_succ_sub_one] at h
        omega
      · have := leb_length_pos n; omega
    have hbound : 128 ^ size < 2 ^ 64 := by
      have : 128 ^ size ≤ 128 ^ 9 := Nat.pow_le_pow_right (by decide) (by omega)
      omega
    obtain ⟨k, rfl⟩ : ∃ k, size = k + 1 := ⟨size - 1, by omega⟩
    have hiff := leb_length_le_iff n k
    rw [varintSizeLoop, Nat.mod_eq_of_lt hbound]
    split
    · rename_i hle
      rw [Nat.shiftLeft_eq, show 128 ^ (k + 1) * 2 ^ 7 = 128 ^ (k + 1 + 1) from
        (Nat.pow_succ ..).symm]
      exact ih (k + 1 + 1) (by omega) (Or.inl (by simpa using hle)) (by omega)
    · rename_i hgt
      have := hiff.mpr (by omega)
      omega

/-- The size predictor agrees with the encoder on every length a `Vec` can have. -/
theorem varintSizeFromLen_eq {n : Nat} (h : n < 2 ^ 63) :
    varintSizeFromLen n = (leb n).length := by
  have hten : (leb n).length ≤ 10 := leb_length_le_ten (by omega)
  exact varintSizeLoop_eq n 10 1 (by omega) (Or.inr rfl) (by omega) h

/-- Encoding fills at most the ten bytes of its buffer, decoding gives the number back from any
place in a buffer, and the size predictor agrees for every length a `Vec` can have. -/
theorem varint_codec {n : Nat} (h : n < 2 ^ 64) (p s : Blob) :
    ∃ buffer len, encodeVarint n = some (buffer, len) ∧ buffer.length = 10 ∧ len ≤ 10 ∧
      decodeVarint (p ++ buffer.take len ++ s) p.length = some (n, len) ∧
      (n < 2 ^ 63 → varintSizeFromLen n = len) := by
  have hten := leb_length_le_ten h
  refine ⟨_, _, encodeVarint_eq h, ?_, hten, ?_, fun hlen => varintSizeFromLen_eq hlen⟩
  · rw [List.length_append, List.length_replicate]
    omega
  · rw [List.take_left' rfl, List.append_assoc]
    exact decodeVarint_leb p s n rfl h

/-- The largest number takes all ten bytes. -/
theorem varint_codec_max : (2 ^ 64 - 1 < 2 ^ 64) ∧
    ∃ buffer len, encodeVarint (2 ^ 64 - 1) = some (buffer, len) ∧ buffer.length = 10 ∧ len ≤ 10 ∧
      decodeVarint ([7] ++ buffer.take len ++ [8, 9]) 1 = some (2 ^ 64 - 1, len) ∧
      (2 ^ 64 - 1 < 2 ^ 63 → varintSizeFromLen (2 ^ 64 - 1) = len) := by
  have hmax : 2 ^ 64 - 1 < 2 ^ 64 := by omega
  exact ⟨hmax, varint_codec hmax [7] [8, 9]⟩

end Lsmlite
