import Mathlib.Algebra.Ring.Nat
import SepKernel.Protection.Napot

/-!
# Areas and their words

An area whose base is `q` times its size `8 * 2 ^ t` has the word that is made of `q`, a zero and
`t` ones, from the high end down. Every word is of this form for one `q` and one `t`, so writing an
area as a word and reading the word are inverse to each other as long as the area lies in the
addresses of 64 bits. The areas of words of 48 bits do: each ends at address `2 ^ 51` or below.

Hardware reads a word with bit operations. Adding one to the word carries through the ones at its
low end into the zero above them, and the two numbers differ in just these bits.
-/

namespace SepKernel
namespace Napot

variable {q t n : Nat}

/-! ## The form of a word -/

/-- The area of `8 * 2 ^ t` bytes that begins at `q` times its size. -/
def area (q t : Nat) : Area := ⟨q * 2 ^ (t + 3), 2 ^ (t + 3)⟩

/-- The number that is made of `q`, a zero and `t` ones. -/
def ones (q t : Nat) : Nat := q * 2 ^ (t + 1) + (2 ^ t - 1)

theorem carry_eq (n : Nat) : carry n = 2 ^ trailingOnes n := by
  rw [carry, Nat.shiftLeft_eq, Nat.one_mul]

/-- The ones at the end of the word are counted, since the next higher bit is zero. -/
theorem trailingOnes_ones (q t : Nat) : trailingOnes (ones q t) = t := by
  unfold ones
  induction t with
  | zero =>
    rw [trailingOnes, if_neg (by simp)]
  | succ t ih =>
    -- the lowest one goes, and the others move down
    have hp : 0 < 2 ^ t := Nat.two_pow_pos t
    have hq : q * 2 ^ (t + 1 + 1) = 2 * (q * 2 ^ (t + 1)) := by
      rw [Nat.pow_succ, Nat.mul_comm _ 2, Nat.mul_left_comm]
    have hodd : (q * 2 ^ (t + 1 + 1) + (2 ^ (t + 1) - 1)) % 2 = 1 := by
      rw [hq, Nat.pow_succ]
      omega
    have hhalf : (q * 2 ^ (t + 1 + 1) + (2 ^ (t + 1) - 1)) / 2 =
        q * 2 ^ (t + 1) + (2 ^ t - 1) := by
      rw [hq, Nat.pow_succ 2 t]
      omega
    rw [trailingOnes, if_pos hodd, hhalf, ih]

/-- Every number is of this form. -/
theorem exists_ones (n : Nat) : ∃ q t, n = ones q t := by
  refine ⟨n / (2 * carry n), trailingOnes n, ?_⟩
  rw [ones, Nat.pow_succ, ← carry_eq, Nat.mul_comm (carry n) 2]
  exact eq_of_carry n

/-! ## Writing and reading -/

/-- The encoding of an area is the base, and a run of ones below it. -/
theorem encode_area (q t : Nat) : encode (area q t) = ones q t := by
  have hp : 0 < 2 ^ t := Nat.two_pow_pos t
  simp only [encode, area, ones, Nat.pow_add, ← Nat.mul_assoc]
  omega

/-- A word that ends in a zero and ones names the area whose size these ones give. -/
theorem decode_ones (hq : q * 2 ^ (t + 3) < 2 ^ 64) (ht : t + 3 < 64) :
    decode (ones q t) = area q t := by
  have hp : 0 < 2 ^ t := Nat.two_pow_pos t
  have hsize : 2 ^ (t + 3) < 2 ^ 64 := Nat.pow_lt_pow_right (by decide) ht
  rw [decode, area, carry_eq, trailingOnes_ones, ones, Area.mk.injEq, wordCount]
  simp only [Nat.pow_add, ← Nat.mul_assoc] at hq hsize ⊢
  omega

/-! ## Bit operations -/

def pack (base size : Word) : Word := (base ||| (size / 2 - 1)) >>> 2

def baseOf (w : Word) : Word := ((w + 1) &&& w) <<< 2

def extentOf (w : Word) : Word := (((w + 1) ^^^ w) + 1) <<< 2

/-- The carry runs through the ones. -/
theorem carry_of_odd (h : n % 2 = 1) : carry n = 2 * carry (n / 2) := by
  rw [carry_eq, carry_eq, trailingOnes, if_pos h, Nat.pow_succ, Nat.mul_comm]

/-- It stops at the first zero. -/
theorem carry_of_even (h : ¬ n % 2 = 1) : carry n = 1 := by
  rw [carry_eq, trailingOnes, if_neg h, Nat.pow_zero]

/-- A number and its successor have the bits above the carry in common. -/
theorem succ_and_self (n : Nat) : ((n + 1) &&& n) + carry n = n + 1 := by
  have hdiv : ((n + 1) &&& n) / 2 = (n + 1) / 2 &&& n / 2 := Nat.and_div_two
  have hmod : ((n + 1) &&& n) % 2 = 0 := by
    have := mt Nat.and_mod_two_eq_one.1 (by omega : ¬ ((n + 1) % 2 = 1 ∧ n % 2 = 1))
    omega
  -- a carry goes on through an odd number, and stops at an even one
  by_cases hodd : n % 2 = 1
  · have ih := succ_and_self (n / 2)
    rw [show (n + 1) / 2 = n / 2 + 1 by omega] at hdiv
    rw [carry_of_odd hodd]
    omega
  · rw [show (n + 1) / 2 = n / 2 by omega, Nat.and_self] at hdiv
    rw [carry_of_even hodd]
    omega
termination_by n
decreasing_by omega

/-- They differ in the bit of the carry and in those below it. -/
theorem succ_xor_self (n : Nat) : ((n + 1) ^^^ n) + 1 = 2 * carry n := by
  have hdiv : ((n + 1) ^^^ n) / 2 = (n + 1) / 2 ^^^ n / 2 := Nat.xor_div_two
  have hmod : ((n + 1) ^^^ n) % 2 = 1 := Nat.xor_mod_two_eq_one.2 (by omega)
  by_cases hodd : n % 2 = 1
  · have ih := succ_xor_self (n / 2)
    rw [show (n + 1) / 2 = n / 2 + 1 by omega] at hdiv
    rw [carry_of_odd hodd]
    omega
  · rw [show (n + 1) / 2 = n / 2 by omega, Nat.xor_self] at hdiv
    rw [carry_of_even hodd]
    omega
termination_by n
decreasing_by all_goals omega

/-- The bit operations that find the base agree with the arithmetic. -/
theorem toNat_baseOf (w : Word) : (baseOf w).toNat = (decode w.toNat).base := by
  have hand : (w.toNat + 1) % 2 ^ 64 &&& w.toNat = ((w.toNat + 1) &&& w.toNat) % 2 ^ 64 := by
    rw [Nat.and_mod_two_pow, Nat.mod_eq_of_lt w.isLt]
  have hcarry := succ_and_self w.toNat
  simp only [baseOf, BitVec.toNat_shiftLeft, BitVec.toNat_and, BitVec.toNat_add, Nat.shiftLeft_eq]
  show ((w.toNat + 1) % 2 ^ 64 &&& w.toNat) * 2 ^ 2 % 2 ^ 64 =
    4 * (w.toNat + 1 - carry w.toNat) % 2 ^ 64
  rw [hand]
  omega

/-- The bit operations that find the size agree with the arithmetic. -/
theorem toNat_extentOf (w : Word) : (extentOf w).toNat = (decode w.toNat).size := by
  have hxor : (w.toNat + 1) % 2 ^ 64 ^^^ w.toNat = ((w.toNat + 1) ^^^ w.toNat) % 2 ^ 64 := by
    rw [Nat.xor_mod_two_pow, Nat.mod_eq_of_lt w.isLt]
  have hcarry := succ_xor_self w.toNat
  simp only [extentOf, BitVec.toNat_shiftLeft, BitVec.toNat_xor, BitVec.toNat_add,
    Nat.shiftLeft_eq]
  show (((w.toNat + 1) % 2 ^ 64 ^^^ w.toNat) + 1) % 2 ^ 64 * 2 ^ 2 % 2 ^ 64 =
    8 * carry w.toNat % 2 ^ 64
  rw [hxor]
  omega

/-- Packing by bit operations gives the word of the area, as the base has zeros where the ones
go. -/
theorem toNat_pack {base size : Word} (hb : base.toNat = q * 2 ^ (t + 3))
    (hs : size.toNat = 2 ^ (t + 3)) : (pack base size).toNat = encode (area q t) := by
  have hp : 0 < 2 ^ (t + 2) := Nat.two_pow_pos (t + 2)
  have hdouble : 2 ^ (t + 3) = 2 * 2 ^ (t + 2) := Nat.pow_succ'
  have hhalf : (size / 2).toNat = 2 ^ (t + 2) := by
    show size.toNat / 2 = _
    omega
  have hlow : (size / 2 - 1).toNat = 2 ^ (t + 2) - 1 := by
    have hle : (1 : Word) ≤ size / 2 := by
      show 1 ≤ (size / 2).toNat
      omega
    rw [BitVec.toNat_sub_of_le hle, hhalf]
    rfl
  -- the bits of the base are above those of half the size
  have hor : base.toNat ||| (2 ^ (t + 2) - 1) = base.toNat + (2 ^ (t + 2) - 1) := by
    have hlt : 2 ^ (t + 2) - 1 < 2 ^ (t + 3) := by omega
    rw [hb, Nat.mul_comm, Nat.two_pow_add_eq_or_of_lt hlt]
  have hsize : 2 ^ (t + 3) / 2 = 2 ^ (t + 2) := by omega
  rw [pack, BitVec.toNat_ushiftRight, BitVec.toNat_or, hlow, hor, hb]
  simp only [encode, area, hsize, Nat.shiftRight_eq_div_pow]

/-! ## The two are inverse -/

/-- Reading the word of an area gives the area back, and writing the area of a word of 48 bits gives
the word back. Such an area has a power of two from 8 up to `2 ^ 51` as its size, is aligned to it,
and ends at `2 ^ 51` or below. Both are what the bit operations compute. -/
theorem decode_inverse :
    (∀ w : Word, decode w.toNat = ⟨(baseOf w).toNat, (extentOf w).toNat⟩) ∧
      (∀ (k : Nat) (base : Word), 3 ≤ k → k ≤ 63 → 2 ^ k ∣ base.toNat →
        (pack base (BitVec.ofNat 64 (2 ^ k))).toNat = encode ⟨base.toNat, 2 ^ k⟩ ∧
          decode (encode ⟨base.toNat, 2 ^ k⟩) = ⟨base.toNat, 2 ^ k⟩) ∧
      ∀ a < 2 ^ 48, ∃ k, 3 ≤ k ∧ k ≤ 51 ∧ (decode a).size = 2 ^ k ∧ 2 ^ k ∣ (decode a).base ∧
        (decode a).base + (decode a).size ≤ 2 ^ 51 ∧
        (decode a).limit = (decode a).base + (decode a).size ∧ encode (decode a) = a := by
  refine ⟨fun w => by rw [toNat_baseOf, toNat_extentOf], ?_, ?_⟩
  · intro k base hk hk' hdvd
    obtain ⟨t, rfl⟩ : ∃ t, k = t + 3 := ⟨k - 3, by omega⟩
    obtain ⟨q, hq⟩ := hdvd
    rw [Nat.mul_comm] at hq
    have hsize : (BitVec.ofNat 64 (2 ^ (t + 3))).toNat = 2 ^ (t + 3) :=
      Nat.mod_eq_of_lt (Nat.pow_lt_pow_right (by decide) (by omega))
    -- the base is a multiple of the size
    have harea : (⟨base.toNat, 2 ^ (t + 3)⟩ : Area) = area q t := by rw [hq, area]
    rw [harea, encode_area, decode_ones (hq ▸ base.isLt) (by omega), ← encode_area]
    exact ⟨toNat_pack hq hsize, rfl⟩
  · intro a ha
    obtain ⟨q, t, rfl⟩ := exists_ones a
    have hp : 0 < 2 ^ t := Nat.two_pow_pos t
    -- no more than 48 ones fit into the address
    have ht : t ≤ 48 := by
      have : 2 ^ t ≤ 2 ^ 48 := by
        unfold ones at ha
        omega
      exact (Nat.pow_le_pow_iff_right (by decide)).1 this
    have hend : q * 2 ^ (t + 3) + 2 ^ (t + 3) ≤ 2 ^ 51 := by
      simp only [ones, Nat.pow_add, ← Nat.mul_assoc] at ha ⊢
      omega
    have hbase : q * 2 ^ (t + 3) < 2 ^ 64 :=
      Nat.lt_of_le_of_lt (Nat.le_trans (Nat.le_add_right ..) hend) (by decide)
    rw [decode_ones hbase (by omega), encode_area]
    refine ⟨t + 3, by omega, by omega, rfl, Nat.dvd_mul_left .., hend, ?_, rfl⟩
    exact Nat.mod_eq_of_lt (Nat.lt_of_le_of_lt hend (by decide))

/-- The upper half of all addresses, and the largest area that has a word of 48 bits. -/
theorem decode_inverse_top :
    decode (encode ⟨0x8000000000000000, 2 ^ 63⟩) = ⟨0x8000000000000000, 2 ^ 63⟩ ∧
      (decode 0xffffffffffff).base + (decode 0xffffffffffff).size ≤ 2 ^ 51 ∧
      encode (decode 0xffffffffffff) = 0xffffffffffff := by
  have hdvd : 2 ^ 63 ∣ (0x8000000000000000#64).toNat := by decide +kernel
  have hlt : 0xffffffffffff < 2 ^ 48 := by decide
  obtain ⟨_, _, _, _, _, hend, _, hencode⟩ := decode_inverse.2.2 0xffffffffffff hlt
  exact ⟨(decode_inverse.2.1 63 0x8000000000000000#64 (by decide) (by decide) hdvd).2, hend,
    hencode⟩

end Napot
end SepKernel
