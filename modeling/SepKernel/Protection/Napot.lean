import SepKernel.Config

/-!
# Naturally aligned areas

A protection register names an area whose size is a power of two of at least eight bytes and whose
base is a multiple of its size. One word holds both: the base divided by four, with the low bits
below the size filled by a zero and then ones. The count of trailing ones gives the size back.

Addresses have 64 bits, so an area at the top of memory ends at zero.
-/

namespace SepKernel

/-- `size` bytes from address `base` on. -/
structure Area where
  base : Nat
  size : Nat
  deriving DecidableEq, Repr

/-- The first address past the area, in 64 bits. -/
def Area.limit (a : Area) : Nat :=
  (a.base + a.size) % wordCount

namespace Napot

/-- The number of ones at the low end of the binary form of `n`. -/
def trailingOnes (n : Nat) : Nat :=
  if n % 2 = 1 then trailingOnes (n / 2) + 1 else 0
termination_by n
decreasing_by omega

/-- The power of two that is left when the ones at the low end of the binary form of `n` are carried
into the zero above them. -/
def carry (n : Nat) : Nat :=
  1 <<< trailingOnes n

/-- The word for an area whose size is a power of two of at least eight and divides its base. -/
def encode (a : Area) : Nat :=
  (a.base + (a.size / 2 - 1)) / 4

/-- The area that a word names. A word whose low end is a zero and `k` ones names `8 * 2 ^ k`
bytes. -/
def decode (word : Nat) : Area where
  base := 4 * (word + 1 - carry word) % wordCount
  size := 8 * carry word % wordCount

/-- A number is made of the ones at its low end, a zero above them, and the rest. -/
theorem eq_of_carry (n : Nat) :
    n = n / (2 * carry n) * (2 * carry n) + (carry n - 1) := by
  unfold carry
  fun_induction trailingOnes n with
  | case1 n h ih =>
    rw [Nat.shiftLeft_succ, ← Nat.div_div_eq_div_mul]
    have hp : 0 < 1 <<< trailingOnes (n / 2) := by
      rw [Nat.shiftLeft_eq, Nat.one_mul]
      exact Nat.two_pow_pos _
    -- what is left is linear in the power and the quotient
    generalize 1 <<< trailingOnes (n / 2) = p at ih hp ⊢
    generalize n / 2 / (2 * p) = q at ih ⊢
    have e : q * (2 * (2 * p)) = 2 * (q * (2 * p)) := Nat.mul_left_comm ..
    omega
  | case2 n h => simp; omega

example : encode ⟨0x80000000, 0x1000⟩ = 0x200001ff := by decide
example : decode 0x200001ff = ⟨0x80000000, 0x1000⟩ := by decide +kernel

end Napot

end SepKernel
