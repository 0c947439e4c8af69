import Mathlib.Algebra.Order.Ring.Nat
import Mathlib.Data.List.Lex
import Mathlib.Tactic.Common

/-!
# Byte strings

Slices and in-place writes that fail outside the string, big-endian words, and the
base-128 encoding of a number (`leb`): seven bits a byte, least significant first, the high
bit set on every byte but the last.
-/

/-- Bytes in numeric order; byte strings then compare lexicographically. -/
instance instLinearOrderUInt8 : LinearOrder UInt8 where
  le_refl := UInt8.le_refl
  le_trans _ _ _ := UInt8.le_trans
  le_antisymm _ _ := UInt8.le_antisymm
  le_total := UInt8.le_total
  lt_iff_le_not_ge a b := by simp only [UInt8.le_iff_toNat_le, UInt8.lt_iff_toNat_lt]; omega
  toDecidableLE := inferInstance

namespace Bytes

section
variable {α : Type}

/-- `xs[a..b]`. -/
def slice (xs : List α) (a b : Nat) : Option (List α) :=
  if a ≤ b ∧ b ≤ xs.length then some ((xs.drop a).take (b - a)) else none

/-- `xs[a..b]` overwritten with `src`, which has to be as long. -/
def overwrite (xs : List α) (a b : Nat) (src : List α) : Option (List α) :=
  if a ≤ b ∧ b ≤ xs.length ∧ src.length = b - a then
    some (xs.take a ++ src ++ xs.drop b)
  else none

/-- `xs[i] = x`. -/
def assign (xs : List α) (i : Nat) (x : α) : Option (List α) :=
  if i < xs.length then some (xs.set i x) else none

/-- `xs` cut or padded with `x` to length `n`. -/
def resize (xs : List α) (n : Nat) (x : α) : List α :=
  xs.take n ++ List.replicate (n - xs.length) x

theorem slice_mid (xs ys zs : List α) {a b : Nat} (ha : a = xs.length)
    (hb : b = a + ys.length) : slice (xs ++ (ys ++ zs)) a b = some ys := by
  subst ha hb
  simp [slice]

theorem slice_eq_some {xs ys : List α} {a b : Nat} (h : slice xs a b = some ys) :
    a ≤ b ∧ b ≤ xs.length ∧ ys = (xs.drop a).take (b - a) ∧ ys.length = b - a := by
  unfold slice at h
  split at h
  · rename_i hab
    cases h
    refine ⟨hab.1, hab.2, rfl, ?_⟩
    simp only [List.length_take, List.length_drop]
    omega
  · cases h

theorem slice_isSome {xs : List α} {a b : Nat} (h : a ≤ b) (hb : b ≤ xs.length) :
    slice xs a b = some ((xs.drop a).take (b - a)) := by
  simp [slice, h, hb]

/-- Writing after what is written already: the buffer's rest gives way to `src`. -/
theorem overwrite_next (done rest src : List α) {a b : Nat} (ha : a = done.length)
    (hb : b = a + src.length) (fits : src.length ≤ rest.length) :
    overwrite (done ++ rest) a b src = some (done ++ src ++ rest.drop src.length) := by
  subst ha hb
  have h : done.length + src.length ≤ (done ++ rest).length := by
    rw [List.length_append]; omega
  simp [overwrite, fits, List.drop_append]

theorem overwrite_length {xs ys src : List α} {a b : Nat} (h : overwrite xs a b src = some ys) :
    ys.length = xs.length := by
  unfold overwrite at h
  split at h
  · rename_i hab
    cases h
    simp only [List.length_append, List.length_take, List.length_drop]
    omega
  · cases h

theorem assign_head (x y : α) (xs : List α) : assign ([x] ++ xs) 0 y = some ([y] ++ xs) := by
  simp [assign]

@[simp] theorem resize_length (xs : List α) (n : Nat) (x : α) : (resize xs n x).length = n := by
  simp only [resize, List.length_append, List.length_take, List.length_replicate]
  omega

theorem resize_append (xs ys : List α) {n : Nat} (x : α) (h : xs.length ≤ n) :
    resize (xs ++ ys) n x = xs ++ resize ys (n - xs.length) x := by
  have hl : n - (xs ++ ys).length = n - xs.length - ys.length := by
    rw [List.length_append]; omega
  rw [resize, resize, List.take_append, List.take_of_length_le h, hl, List.append_assoc]

/-- A slice depends on the length and the range only. -/
theorem slice_congr {xs ys : List α} {c d : Nat} (hlength : ys.length = xs.length)
    (h : ∀ i, c ≤ i → i < d → ys[i]? = xs[i]?) : slice ys c d = slice xs c d := by
  unfold slice
  rw [hlength]
  split
  · congr 1
    refine List.ext_getElem? fun i => ?_
    rw [List.getElem?_take, List.getElem?_take]
    split
    · rw [List.getElem?_drop, List.getElem?_drop]
      exact h _ (by omega) (by omega)
    · rfl
  · rfl

theorem overwrite_eq_some {xs ys src : List α} {a b : Nat} (h : overwrite xs a b src = some ys) :
    a ≤ b ∧ b ≤ xs.length ∧ src.length = b - a ∧ ys = xs.take a ++ src ++ xs.drop b := by
  unfold overwrite at h
  split at h
  · rename_i hab
    cases h
    exact ⟨hab.1, hab.2.1, hab.2.2, rfl⟩
  · cases h

/-- A slice beside what is overwritten. -/
theorem slice_overwrite {xs ys src : List α} {a b c d : Nat} (h : overwrite xs a b src = some ys)
    (hd : d ≤ a ∨ b ≤ c) : slice ys c d = slice xs c d := by
  refine slice_congr (overwrite_length h) fun i hc hi => ?_
  obtain ⟨hab, hb, hlength, rfl⟩ := overwrite_eq_some h
  have htake : (xs.take a ++ src).length = b := by
    rw [List.length_append, List.length_take]
    omega
  rcases hd with hd | hd
  · rw [List.append_assoc, List.getElem?_append_left (by rw [List.length_take]; omega),
      List.getElem?_take, if_pos (by omega)]
  · rw [List.getElem?_append_right (by omega), htake, List.getElem?_drop]
    congr 1
    omega

theorem slice_overwrite_self {xs ys src : List α} {a b : Nat} (h : overwrite xs a b src = some ys) :
    slice ys a b = some src := by
  obtain ⟨hab, hb, hlength, rfl⟩ := overwrite_eq_some h
  rw [List.append_assoc]
  exact slice_mid _ _ _ (by rw [List.length_take]; omega) (by omega)

theorem slice_assign {xs ys : List α} {i c d : Nat} {x : α} (h : assign xs i x = some ys)
    (hi : i < c) : slice ys c d = slice xs c d := by
  unfold assign at h
  split at h
  · cases h
    exact slice_congr (List.length_set ..) fun j hc _ => List.getElem?_set_ne (by omega)
  · cases h

/-- What a slice keeps when the string is cut or padded behind it. -/
theorem slice_resize {xs ys : List α} {c d n : Nat} {x : α} (h : slice xs c d = some ys)
    (hd : d ≤ n) :
    slice (resize xs n x) c d = some ys := by
  obtain ⟨hcd, hdx, rfl, _⟩ := slice_eq_some h
  rw [slice_isSome hcd (by rw [resize_length]; exact hd)]
  congr 1
  refine List.ext_getElem? fun i => ?_
  rw [List.getElem?_take, List.getElem?_take]
  split
  · rw [List.getElem?_drop, List.getElem?_drop, resize, List.getElem?_append_left
      (by rw [List.length_take]; omega), List.getElem?_take, if_pos (by omega)]
  · rfl

end

/-! ## Big-endian words -/

/-- The low `n` bytes of `v`, most significant first. -/
def toBe : Nat → Nat → List UInt8
  | 0, _ => []
  | n + 1, v => UInt8.ofNat (v / 256 ^ n) :: toBe n v

def fromBe (bs : List UInt8) : Nat := bs.foldl (fun acc b => acc * 256 + b.toNat) 0

@[simp] theorem toBe_length (n v : Nat) : (toBe n v).length = n := by
  induction n with
  | zero => rfl
  | succ n ih => simp [toBe, ih]

theorem fromBe_foldl (bs : List UInt8) (acc : Nat) :
    bs.foldl (fun acc b => acc * 256 + b.toNat) acc = acc * 256 ^ bs.length + fromBe bs := by
  induction bs generalizing acc with
  | nil => simp [fromBe]
  | cons b bs ih =>
    have h0 : fromBe (b :: bs) = b.toNat * 256 ^ bs.length + fromBe bs := by
      rw [fromBe, List.foldl_cons, ih, Nat.zero_mul, Nat.zero_add]
    rw [List.foldl_cons, ih, h0, List.length_cons, Nat.add_mul, Nat.pow_succ, Nat.mul_assoc,
      Nat.mul_comm 256, Nat.add_assoc]

theorem fromBe_toBe_mod (n v : Nat) : fromBe (toBe n v) = v % 256 ^ n := by
  induction n with
  | zero => simp [toBe, fromBe, Nat.mod_one]
  | succ n ih =>
    have hm : v % 256 ^ (n + 1) = v % 256 ^ n + 256 ^ n * (v / 256 ^ n % 256) := by
      rw [Nat.pow_succ, Nat.mod_mul]
    rw [toBe, fromBe, List.foldl_cons, fromBe_foldl, toBe_length, ih, UInt8.toNat_ofNat', hm,
      Nat.zero_mul, Nat.zero_add, Nat.mul_comm, Nat.add_comm]

/-- A word that fits is read back. -/
theorem fromBe_toBe {n v : Nat} (h : v < 256 ^ n) : fromBe (toBe n v) = v := by
  rw [fromBe_toBe_mod, Nat.mod_eq_of_lt h]

theorem fromBe_cons (b : UInt8) (bs : List UInt8) :
    fromBe (b :: bs) = b.toNat * 256 ^ bs.length + fromBe bs := by
  rw [fromBe, List.foldl_cons, fromBe_foldl, Nat.zero_mul, Nat.zero_add]

theorem fromBe_lt (bs : List UInt8) : fromBe bs < 256 ^ bs.length := by
  induction bs with
  | nil => exact Nat.one_pos
  | cons b bs ih =>
    have hb : b.toNat < 256 := b.toNat_lt
    have hmul : b.toNat * 256 ^ bs.length ≤ 255 * 256 ^ bs.length :=
      Nat.mul_le_mul_right _ (by omega)
    rw [fromBe_cons, List.length_cons, Nat.pow_succ]
    omega

/-- Bytes are the word they are read as. -/
theorem toBe_fromBe (bs : List UInt8) : toBe bs.length (fromBe bs) = bs := by
  have hinj : ∀ {xs ys : List UInt8}, xs.length = ys.length → fromBe xs = fromBe ys → xs = ys := by
    intro xs
    induction xs with
    | nil =>
      intro ys hlength _
      exact (List.length_eq_zero_iff.mp hlength.symm).symm
    | cons x xs ih =>
      intro ys hlength heq
      cases ys with
      | nil => cases hlength
      | cons y ys =>
        have hlength' : xs.length = ys.length := by simpa using hlength
        have hx := fromBe_lt xs
        have hy := fromBe_lt ys
        rw [fromBe_cons, fromBe_cons, hlength', Nat.add_comm, Nat.add_comm (y.toNat * _)] at heq
        rw [hlength'] at hx
        have hdiv := congrArg (· / 256 ^ ys.length) heq
        simp only [Nat.add_mul_div_right _ _ (Nat.pow_pos (by decide : 0 < 256)),
          Nat.div_eq_of_lt hx, Nat.div_eq_of_lt hy, Nat.zero_add] at hdiv
        have hhead : x = y := UInt8.toNat_inj.mp hdiv
        rw [hhead] at heq ⊢
        rw [ih hlength' (Nat.add_right_cancel heq)]
  apply hinj (toBe_length _ _)
  rw [fromBe_toBe_mod, Nat.mod_eq_of_lt (fromBe_lt bs)]

/-- What a slice behind `pre` takes off the rest. -/
theorem slice_behind {α : Type} {pre rest ys : List α} {a b : Nat}
    (h : slice (pre ++ rest) a b = some ys) (ha : a = pre.length) :
    ∃ suf, rest = ys ++ suf ∧ ys.length = b - a := by
  obtain ⟨_, _, rfl, hlength⟩ := slice_eq_some h
  refine ⟨rest.drop (b - a), ?_, hlength⟩
  rw [ha, List.drop_left, List.take_append_drop]

/-! ## Base 128 -/

/-- The shortest base-128 encoding of `n`. -/
def leb (n : Nat) : List UInt8 :=
  if n < 128 then [UInt8.ofNat n] else UInt8.ofNat (n % 128 + 128) :: leb (n / 128)
termination_by n

theorem leb_small {n : Nat} (h : n < 128) : leb n = [UInt8.ofNat n] := by
  rw [leb, if_pos h]

theorem leb_large {n : Nat} (h : 128 ≤ n) :
    leb n = UInt8.ofNat (n % 128 + 128) :: leb (n / 128) := by
  rw [leb, if_neg (by omega)]

theorem leb_length_pos (n : Nat) : 0 < (leb n).length := by
  rw [leb]; split <;> simp

/-- `k + 1` bytes hold exactly the numbers below `128 ^ (k + 1)`. -/
theorem leb_length_le_iff (n k : Nat) : (leb n).length ≤ k + 1 ↔ n < 128 ^ (k + 1) := by
  induction k generalizing n with
  | zero =>
    by_cases h : n < 128
    · simp [leb_small h, h]
    · have hp := leb_length_pos (n / 128)
      rw [leb_large (by omega)]
      simp only [List.length_cons]
      omega
  | succ k ih =>
    have hpow : 128 ^ (k + 1 + 1) = 128 ^ (k + 1) * 128 := Nat.pow_succ ..
    have h1 : 0 < 128 ^ (k + 1) := Nat.pow_pos (by decide)
    by_cases h : n < 128
    · rw [leb_small h]
      simp only [List.length_singleton]
      omega
    · rw [leb_large (by omega), List.length_cons, Nat.add_le_add_iff_right, ih, hpow,
        Nat.div_lt_iff_lt_mul (by decide)]

theorem leb_length_le_ten {n : Nat} (h : n < 2 ^ 64) : (leb n).length ≤ 10 :=
  (leb_length_le_iff n 9).mpr (Nat.lt_of_lt_of_le h (by decide))

theorem leb_length_mono {m n : Nat} (h : m ≤ n) : (leb m).length ≤ (leb n).length := by
  obtain ⟨k, hk⟩ : ∃ k, (leb n).length = k + 1 := ⟨_, (Nat.succ_pred (leb_length_pos n).ne').symm⟩
  rw [hk, leb_length_le_iff]
  exact Nat.lt_of_le_of_lt h ((leb_length_le_iff n k).mp (by omega))

end Bytes
