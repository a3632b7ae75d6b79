import SepKernel.Proofs.Machine.Operations
import SepKernel.Proofs.Machine.Owner

/-!
# Regions pin their memory

A region is carved out of the free part of a memory range and leaves its mark alone, so the only
thing that keeps the range from handing the same addresses out a second time is its lock. A
revocation overwrites the lock of the range with that of each range it takes back, while other
regions may stand further down the line. All the same, as long as a region that lies in the free
part of a range is there, the range is locked: the lock that a child leaves behind is its own, and
the regions that it does not account for lie below its mark.

This needs boot capabilities whose memory ranges share no address with each other or with a region.
Regions may share addresses with other regions.
-/

namespace SepKernel

variable {m m' : Machine} {roots : List Capability} {s t x y : Slot} {n : MemoryRange} {r : Region}
  {a : Nat}

def Area.Contains (e : Area) (a : Nat) : Prop :=
  e.base ≤ a ∧ a < e.limit

namespace Capability

def Occupies : Capability → Nat → Prop
  | memory m, a => m.baseAddress ≤ a ∧ a < m.limitAddress
  | pmp r, a => r.area.Contains a
  | _, _ => False

/-- Neither is memory of which the other holds an address. -/
def MemoryApart (c d : Capability) : Prop :=
  ∀ a, (c.Spans (.address a) → ¬ d.Occupies a) ∧ (d.Spans (.address a) → ¬ c.Occupies a)

theorem spans_iff_occupies : (memory n).Spans (.address a) ↔ (memory n).Occupies a := Iff.rfl

/-- Whatever a child has within an area, its parent has. -/
theorem Derivation.occupies {p c : Capability} (hd : Derivation p c) (hp : p.Sound)
    (h : c.Occupies a) : p.Occupies a := by
  cases hd with
  | memory hu hu' ht hc hf ha =>
    exact (Derivation.memory hu hu' ht hc hf ha).spans hp (spans_iff_occupies.2 h)
  | @region m r _ _ _ hb hl =>
    have hm := MemoryRange.baseAddress_le_mark (hp m.span rfl)
    exact ⟨Nat.le_trans (Nat.le_trans hm hb) h.1, Nat.lt_of_lt_of_le h.2 hl⟩
  | _ => exact h.elim

/-- Occupying is handed down from child to parent and does not depend on the mark, so that it holds
of all that a region was derived from. -/
theorem heritable_occupies (a : Nat) : Heritable (·.Occupies a) where
  ne_null := by
    rintro _ h rfl
    exact h
  outline := by
    intro c
    cases c <;> rfl
  parent := Derivation.occupies

/-- A region that comes after a range and meets its free part pins it. -/
theorem Precedes.locked (h : Precedes (.memory n) (.pmp r)) (hr : r.area.Contains a)
    (hn : n.markAddress ≤ a) : n.locked = true := by
  cases h with
  | region _ _ hl =>
    -- without the lock the region would end below the mark
    apply Bool.of_not_eq_false
    intro hu
    exact absurd (Nat.lt_of_lt_of_le hr.2 (hl hu)) (Nat.not_lt_of_le hn)

/-- A region that comes before a range has none of its addresses. -/
theorem Precedes.limitAddress_le (h : Precedes (.pmp r) (.memory n)) (hr : r.area.Contains a) :
    n.limitAddress ≤ a := by
  cases h with
  | beneath hl => exact Nat.le_trans hl hr.1

end Capability

/-- In a lineal table whose holders of an address stand in one line, a region pins the memory that
has the address free. -/
theorem Table.Lineal.locked {t : Table} (hl : t.Lineal)
    (hg : t.Gathered (·.Spans (.address a)) (·.Occupies a)) (hx : t.get x = .memory n)
    (hy : t.get y = .pmp r) (hr : r.area.Contains a) (hn : (t.get x).Owns (.address a)) :
    n.locked = true := by
  have hspans : (t.get x).Spans (.address a) := hn.spans (hl.sound x)
  have hoccupies : (t.get y).Occupies a := by rwa [hy]
  rw [hx, Capability.owns_address] at hn
  -- the region comes after its memory in the line; before it, it would be below the mark
  rcases hg x y hspans hoccupies with rfl | hxy | hyx
  · rw [hx] at hy
    cases hy
  · have hp := hl.precedes x y hxy
    rw [hx, hy] at hp
    exact hp.locked hr hn.1
  · have hp := hl.precedes y x hyx
    rw [hx, hy] at hp
    exact absurd hn.2 (Nat.not_lt_of_le (hp.limitAddress_le hr))

/-- The holders of an address stand in one line. -/
theorem Reachable.occupants (hroots : roots.Pairwise Capability.MemoryApart)
    (h : Reachable roots m) (a : Nat) :
    m.table.Gathered (·.Spans (.address a)) (·.Occupies a) :=
  h.gathered (Capability.heritable_spans _) (Capability.heritable_occupies a)
    (hroots.imp fun hcd => hcd a)

/-- In every reachable machine, memory with a region in its free part is locked. So whenever memory
is derived, none of it lies in a region. -/
theorem locked_of_region (hroots : roots.Pairwise Capability.MemoryApart) (h : Reachable roots m) :
    (∀ x y n r a, m.table.get x = .memory n → m.table.get y = .pmp r → r.area.Contains a →
        n.markAddress ≤ a → a < n.limitAddress → n.locked = true) ∧
      ∀ s t n m', (Machine.deriveCapability s t (.memory n)).exec m = (.ok (), m') →
        ∀ y r a, m'.table.get y = .pmp r → r.area.Contains a →
          ¬ (n.baseAddress ≤ a ∧ a < n.limitAddress) := by
  have hlocked : ∀ x y n r a, m.table.get x = .memory n → m.table.get y = .pmp r →
      r.area.Contains a → n.markAddress ≤ a → a < n.limitAddress → n.locked = true := by
    intro x y n r a hx hy hr hmark hlimit
    refine h.lineal.locked (h.occupants hroots a) hx hy hr ?_
    rw [hx]
    exact ⟨hmark, hlimit⟩
  refine ⟨hlocked, ?_⟩
  intro s t n m' he y r a hy hr hn
  have hderive := Machine.deriveCapability_decides s t (.memory n) m
  rw [Attempt.Decides, he] at hderive
  obtain ⟨hd, ht, rfl⟩ := hderive
  rw [Machine.bear_table, h.lineal.get_derive ht hd] at hy
  generalize hp : m.table.get s = p at hd hy
  cases hd with
  | @memory k _ hu _ htag hc hf =>
    -- the region was there before, and meets the free part of the parent, which is not locked
    have hy : m.table.get y = .pmp r := by
      split at hy
      · cases hy
      · split at hy
        · cases hy
        · exact hy
    have hmark : k.markAddress = n.baseAddress := by
      simp only [MemoryRange.markAddress, MemoryRange.baseAddress, htag, hc.1]
    have hlimit : n.limitAddress ≤ k.limitAddress := by
      simp only [MemoryRange.limitAddress, htag]
      exact blockAddress_le hc.2
    have := hlocked s y k r a hp hy hr (hmark ▸ hn.1) (Nat.lt_of_lt_of_le hn.2 hlimit)
    rw [hu] at this
    cases this

/-- A range handed half of itself to a child, and the child carved a region out. A revocation of the
range that stops after it took the child back leaves the region in what is free again, and the range
is locked. Another range still gives memory, and none of it lies in the region. -/
theorem locked_of_region_preempted : ∃ roots m m',
    roots = [Capability.wholeTime 0 0 64, .wholeMemory 0x80000000 0x80010000 ⟨true, true, true⟩,
      .wholeMemory 0x90000000 0x90010000 ⟨true, true, true⟩] ∧
      roots.Pairwise Capability.MemoryApart ∧ Reachable roots m ∧
      m.table.get ⟨0, 3⟩ = .null ∧ (∃ r : Region, m.table.get ⟨1, 0⟩ = .pmp r ∧
        r.area.Contains 0x80000000) ∧
      (m.table.get ⟨0, 1⟩).Owns (.address 0x80000000) ∧
      (∀ n, m.table.get ⟨0, 1⟩ = .memory n → n.locked = true) ∧
      (Machine.deriveCapability ⟨0, 2⟩ ⟨0, 4⟩
        (.memory ⟨18, ⟨true, true, true⟩, false, .whole 0 4⟩)).exec m = (.ok (), m') ∧
      ∀ r a, m'.table.get ⟨1, 0⟩ = .pmp r → r.area.Contains a →
        ¬ (0x90000000 ≤ a ∧ a < 0x90004000) := by
  obtain ⟨roots, hr⟩ : ∃ roots, roots = [Capability.wholeTime 0 0 64,
      .wholeMemory 0x80000000 0x80010000 ⟨true, true, true⟩,
      .wholeMemory 0x90000000 0x90010000 ⟨true, true, true⟩] := ⟨_, rfl⟩
  have hroots : roots.Pairwise Capability.MemoryApart := by
    rw [hr]
    refine .cons ?_ (List.pairwise_pair.2 ?_)
    · intro d _ a
      exact ⟨fun h => h.elim, fun _ h => h.elim⟩
    · intro a
      have hsep : ¬ ((0x80000000 ≤ a ∧ a < 0x80010000) ∧ 0x90000000 ≤ a ∧ a < 0x90010000) := by
        omega
      exact ⟨fun h h' => hsep ⟨h, h'⟩, fun h h' => hsep ⟨h', h⟩⟩
  let region : Region := ⟨0x200001ff, ⟨true, true, false⟩, false, 0⟩
  obtain ⟨m₀, h₀⟩ : ∃ m₀, m₀ = Machine.afterAll roots
    [(0, .capDerive ⟨0, 1⟩ ⟨0, 3⟩ (.memory ⟨16, ⟨true, true, true⟩, false, .whole 0 8⟩)),
      (0, .capDerive ⟨0, 3⟩ ⟨1, 0⟩ (.pmp region))] := ⟨_, rfl⟩
  have hm₀ : Reachable roots m₀ := h₀ ▸ .afterAll (hr ▸ rfl) _
  -- the deadline of the hart is reached when it asks for the first time
  obtain ⟨m, he⟩ : ∃ m, m = ((Operation.run 0 (.capRevoke ⟨0, 1⟩)).exec
    { m₀ with board := m₀.board.setDeadline 0 0, lockHolder := none }).2 := ⟨_, rfl⟩
  have hm : Reachable roots m := he ▸ (hm₀.step (.board _ none)).step (.operation 0 _)
  obtain ⟨m', he'⟩ : ∃ m', m' = ((Machine.deriveCapability ⟨0, 2⟩ ⟨0, 4⟩
    (.memory ⟨18, ⟨true, true, true⟩, false, .whole 0 4⟩)).exec m).2 := ⟨_, rfl⟩
  have hderive : (Machine.deriveCapability ⟨0, 2⟩ ⟨0, 4⟩
      (.memory ⟨18, ⟨true, true, true⟩, false, .whole 0 4⟩)).exec m = (.ok (), m') := by
    refine Prod.ext ?_ he'.symm
    show _ = Except.ok ()
    rw [he, h₀, hr]
    decide +kernel
  have hget : m.table.get ⟨1, 0⟩ = .pmp region := by rw [he, h₀, hr]; decide +kernel
  have hfree : m.table.get ⟨0, 1⟩ =
      .memory ⟨16, ⟨true, true, true⟩, true, .whole 0 16⟩ := by rw [he, h₀, hr]; decide +kernel
  have hcontains : region.area.Contains 0x80000000 := by
    show _ ∧ _
    decide +kernel
  have howns : (m.table.get ⟨0, 1⟩).Owns (.address 0x80000000) := by
    rw [hfree, Capability.owns_address]
    decide
  obtain ⟨hlocked, hapart⟩ := locked_of_region hroots hm
  refine ⟨roots, m, m', hr, hroots, hm, ?_, ⟨region, hget, hcontains⟩, howns, ?_, hderive, ?_⟩
  · rw [he, h₀, hr]; decide +kernel
  · intro n hn
    rw [hn, Capability.owns_address] at howns
    exact hlocked _ _ n region _ hn hget hcontains howns.1 howns.2
  · intro r a hy ha
    exact hapart _ _ _ m' hderive ⟨1, 0⟩ r a hy ha

end SepKernel
