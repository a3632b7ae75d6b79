import SepKernel.Proofs.Capability.Encoding
import SepKernel.Proofs.Lineage.Ownership

/-!
# Memory by its addresses

Memory is asked for by byte addresses, both at block boundaries and under one tag. The capability
that is made has these addresses: sixteen bits are enough for the number of a block under its tag,
and up to address `taggedSize` eight bits are enough for the tag. It is fresh, its word is read as
the same memory, and what is asked for without an address in common is made without one.

The tag is cut to eight bits and nobody looks whether it fits. So the addresses of every capability
are right up to a multiple of `taggedSize`, and memory from there on is taken for memory below.
-/

namespace SepKernel

abbrev taggedSize : Nat := 256 * tagSize

/-- What is asked of the two ends of a range of memory: there is something between them, they are at
block boundaries, and the range lies under one tag. -/
structure BlockRange (base limit : Nat) : Prop where
  base_lt : base < limit
  base_dvd : blockSize ∣ base
  limit_dvd : blockSize ∣ limit
  limit_le : limit ≤ (base / tagSize + 1) * tagSize

variable {tag a b base limit base' limit' : Nat} {access access' : Access} {c : Capability}

/-! ## Blocks -/

/-- The number of a block under its tag is at most `2 ^ 15`, so its sixteen bits are all of it. -/
theorem toNat_block (ha : blockSize ∣ a) (hu : a ≤ (tag + 1) * tagSize) :
    (BitVec.ofNat 16 ((a - tag * tagSize) / blockSize)).toNat * blockSize = a - tag * tagSize := by
  simp only [blockSize, tagSize] at ha hu ⊢
  have hdvd : 4096 ∣ a - tag * 134217728 := Nat.dvd_sub ha (by omega)
  have hlt : (a - tag * 134217728) / 4096 < 2 ^ 16 := by omega
  rw [BitVec.toNat_ofNat, Nat.mod_eq_of_lt hlt, Nat.div_mul_cancel hdvd]

/-- Blocks under one tag have the order of their addresses. -/
theorem block_lt (ha : blockSize ∣ a) (hb : blockSize ∣ b) (hl : tag * tagSize ≤ a) (hlt : a < b)
    (hu : b ≤ (tag + 1) * tagSize) :
    BitVec.ofNat 16 ((a - tag * tagSize) / blockSize) <
      BitVec.ofNat 16 ((b - tag * tagSize) / blockSize) := by
  refine Nat.lt_of_mul_lt_mul_right (a := blockSize) ?_
  rw [toNat_block ha (Nat.le_trans (Nat.le_of_lt hlt) hu), toNat_block hb hu]
  exact Nat.sub_lt_sub_right hl hlt

/-- Of the tag, eight bits remain. -/
theorem blockAddress_block (ha : blockSize ∣ a) (hu : a ≤ (tag + 1) * tagSize) :
    blockAddress (BitVec.ofNat 8 tag) (BitVec.ofNat 16 ((a - tag * tagSize) / blockSize)) =
      tag % 256 * tagSize + (a - tag * tagSize) := by
  rw [blockAddress, BitVec.toNat_ofNat, toNat_block ha hu]

namespace Capability

/-! ## Naming memory -/

/-- Is this a fresh capability to exactly the memory from `base` up to `limit`? -/
def Names : Capability → Nat → Nat → Access → Prop
  | memory m, base, limit, access =>
    (memory m).isFresh = true ∧ m.baseAddress = base ∧ m.markAddress = base ∧
      m.limitAddress = limit ∧ m.access = access
  | _, _, _, _ => False

/-- For a range of memory, the addresses that it spans are those between the bounds that it
names. -/
theorem Names.spans (h : c.Names base limit access) :
    c.Spans (.address a) ↔ base ≤ a ∧ a < limit := by
  cases c with
  | memory m =>
    obtain ⟨_, hbase, _, hlimit, _⟩ := h
    rw [spans_address, hbase, hlimit]
  | _ => exact h.elim

/-- A capability names memory from one base only. -/
theorem Names.base_unique (h : c.Names base limit access) (h' : c.Names base' limit' access') :
    base = base' := by
  cases c with
  | memory m => exact h.2.1.symm.trans h'.2.1
  | _ => exact h.elim

/-- The memory that is named is the one that was asked for, up to a multiple of `taggedSize`. -/
theorem names_wholeMemory_mod (access : Access) (h : BlockRange base limit) :
    (wholeMemory base limit access).Names (base % taggedSize) (base % taggedSize + (limit - base))
      access := by
  obtain ⟨hlt, hbase, hlimit, hle⟩ := h
  have htag : base / tagSize * tagSize ≤ base := Nat.div_mul_le_self base tagSize
  have hbase_le : base ≤ (base / tagSize + 1) * tagSize := Nat.le_trans (Nat.le_of_lt hlt) hle
  -- the tag keeps its low byte, and the offset is kept whole
  have hmod : base / tagSize % 256 * tagSize + (base - base / tagSize * tagSize) =
      base % taggedSize := by
    simp only [taggedSize, tagSize]
    omega
  have hbaseAddress := (blockAddress_block hbase hbase_le).trans hmod
  refine ⟨?_, hbaseAddress, hbaseAddress, (blockAddress_block hlimit hle).trans ?_, rfl⟩
  · have hfresh := block_lt hbase hlimit htag hlt hle
    simp only [isFresh, Bool.not_false, Bool.true_and, decide_eq_true_eq]
    exact ⟨rfl, hfresh⟩
  · rw [← hmod]
    omega

/-- Memory is named as it was asked for just if there are tags for it. -/
theorem names_wholeMemory_iff (access : Access) (h : BlockRange base limit) :
    (wholeMemory base limit access).Names base limit access ↔ base < taggedSize := by
  have hnames := names_wholeMemory_mod access h
  constructor
  · intro h'
    rw [h'.base_unique hnames]
    exact Nat.mod_lt _ (by decide)
  · intro hb
    rwa [Nat.mod_eq_of_lt hb, Nat.add_sub_of_le (Nat.le_of_lt h.base_lt)] at hnames

/-- Below `taggedSize`, the capability that is made for a range of addresses is fresh and has these
addresses, and so has the one that its word is read as; and capabilities for two ranges without a
common address have none in common. -/
theorem wholeMemory_names (access : Access) (h : BlockRange base limit) (hb : base < taggedSize) :
    (wholeMemory base limit access).Names base limit access ∧
      (∃ c, ofWord? (wholeMemory base limit access).toWord = some c ∧ c.Names base limit access) ∧
      ∀ base' limit' access', BlockRange base' limit' → base' < taggedSize →
        limit ≤ base' ∨ limit' ≤ base → ∀ a, (wholeMemory base limit access).Spans (.address a) →
          ¬ (wholeMemory base' limit' access').Spans (.address a) := by
  have hnames := (names_wholeMemory_iff access h).2 hb
  refine ⟨hnames, ⟨_, ofWord?_toWord _, hnames⟩, ?_⟩
  intro base' limit' access' h' hb' hdisjoint a ha ha'
  have hnames' := (names_wholeMemory_iff access' h').2 hb'
  rw [hnames.spans] at ha
  rw [hnames'.spans] at ha'
  omega

/-- All of the memory under the last tag, and the block before it. -/
theorem wholeMemory_names_last :
    BlockRange 0x7f8000000 0x800000000 ∧ BlockRange 0x7f7fff000 0x7f8000000 ∧
      (wholeMemory 0x7f8000000 0x800000000 ⟨true, true, false⟩).Names 0x7f8000000 0x800000000
        ⟨true, true, false⟩ ∧
      (∃ c, ofWord? (wholeMemory 0x7f8000000 0x800000000 ⟨true, true, false⟩).toWord = some c ∧
        c.Names 0x7f8000000 0x800000000 ⟨true, true, false⟩) ∧
      ∀ a, (wholeMemory 0x7f8000000 0x800000000 ⟨true, true, false⟩).Spans (.address a) →
        ¬ (wholeMemory 0x7f7fff000 0x7f8000000 ⟨true, false, true⟩).Spans (.address a) := by
  have h : BlockRange 0x7f8000000 0x800000000 := by constructor <;> decide
  have h' : BlockRange 0x7f7fff000 0x7f8000000 := by constructor <;> decide
  obtain ⟨hnames, hword, hapart⟩ := wholeMemory_names ⟨true, true, false⟩ h (by decide)
  exact ⟨h, h', hnames, hword, hapart _ _ _ h' (by decide) (.inr (by decide))⟩

/-- The first block for which there is no tag is taken for the first block of all. -/
theorem wholeMemory_wraps :
    BlockRange 0x800000000 0x800001000 ∧ BlockRange 0 0x1000 ∧
      ¬ (wholeMemory 0x800000000 0x800001000 ⟨true, true, true⟩).Names 0x800000000 0x800001000
        ⟨true, true, true⟩ ∧
      (wholeMemory 0x800000000 0x800001000 ⟨true, true, true⟩).Spans (.address 0) ∧
      (wholeMemory 0 0x1000 ⟨true, true, true⟩).Spans (.address 0) := by
  have h : BlockRange 0x800000000 0x800001000 := by constructor <;> decide
  have h₀ : BlockRange 0 0x1000 := by constructor <;> decide
  refine ⟨h, h₀, ?_, ?_, ?_⟩
  · rw [names_wholeMemory_iff _ h]
    decide
  · rw [(names_wholeMemory_mod _ h).spans]
    decide
  · rw [(names_wholeMemory_mod _ h₀).spans]
    decide

end Capability
end SepKernel
