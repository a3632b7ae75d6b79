import SepKernel.Proofs.Machine.Reachable

/-!
# Lines in order

A line has no tree in it: who was derived from whom is read off the numbers, by the order in which
capabilities stand. That works as long as whatever stands after a range was handed out by it, or
lies below it altogether, in every machine that the kernel can get into, also where a revocation was
interrupted halfway.
-/

namespace SepKernel

variable {m : Machine} {roots : List Capability} {c d : Capability} {s : Span}

namespace Capability

/-- A range that stands before another capability has handed it out, or lies above it. -/
structure Tops (s : Span) (c d : Capability) : Prop where
  range : ∀ t, d.span? = some t → s.base ≤ t.base ∧ t.limit ≤ s.mark ∨ t.limit ≤ s.base
  /-- Only memory stands before a region. -/
  region : ∀ r, d = .pmp r → ∃ n, c = .memory n ∧
    (n.baseAddress ≤ r.area.base ∧ r.area.limit ≤ n.limitAddress ∨ r.area.limit ≤ n.baseAddress)
  socket : ∀ k, d = .socket k → s.Contains k.chan ∨ k.chan < s.base

/-- A range tops every range that it stands above. -/
theorem Tops.of_above {t : Span} (ha : s.Above t) (hd : d.span? = some t) : Tops s c d where
  range := by
    intro t' ht'
    obtain rfl := Option.some.inj (hd.symm.trans ht')
    exact ha.2
  region := by
    rintro r rfl
    cases hd
  socket := by
    rintro k rfl
    cases hd

/-- By the kind of the later one. -/
theorem Precedes.tops (h : c.Precedes d) (hs : c.span? = some s) : Tops s c d := by
  cases h with
  | time ha | monitor ha | channel ha =>
    cases hs
    exact .of_above ha rfl
  | memory _ ha =>
    cases hs
    exact .of_above ha rfl
  | @region n r _ hr _ =>
    constructor
    case range => rintro _ ⟨⟩
    case region =>
      rintro _ ⟨⟩
      exact ⟨n, rfl, hr⟩
    case socket => rintro _ ⟨⟩
  | @ends s k hl _ _ =>
    cases hs
    constructor
    case range => rintro _ ⟨⟩
    case region => rintro _ ⟨⟩
    case socket =>
      rintro _ ⟨⟩
      rw [Span.Contains]
      -- a channel that is contained is not below the range
      bv_omega
  | beneath | regions | range | sockets => cases hs

end Capability

/-- The numbers of every range are in order, and it tops whatever stands after it in its line. -/
theorem tops_of_before (hm : Reachable roots m) :
    (∀ x s, (m.table.get x).span? = some s → s.base ≤ s.mark ∧ s.mark ≤ s.limit) ∧
      ∀ x y s, m.table.Before x y → (m.table.get x).span? = some s →
        Capability.Tops s (m.table.get x) (m.table.get y) := by
  have hl := hm.lineal
  constructor
  · intro x s hs
    exact hl.sound x s hs
  · intro x y s hxy hs
    exact (hl.precedes x y hxy).tops hs

/-- Of a range of memory and a range of channels something was handed out twice: half of the memory,
and a region out of that half; the first four channels, and a server above them. -/
theorem tops_of_before_divided : ∃ roots m,
    roots = [Capability.wholeTime 0 0 64, .wholeMemory 0x80000000 0x80010000 ⟨true, true, true⟩,
      .wholeChannel 0 16] ∧ Reachable roots m ∧
      m.table.Before ⟨0, 1⟩ ⟨1, 0⟩ ∧ m.table.Before ⟨0, 2⟩ ⟨0, 4⟩ ∧
      m.table.get ⟨0, 2⟩ = .channel ⟨0, 5, 16⟩ ∧
      Capability.Tops ⟨0, 8, 16⟩ (m.table.get ⟨0, 1⟩) (m.table.get ⟨1, 0⟩) ∧
      Capability.Tops ⟨0, 5, 16⟩ (m.table.get ⟨0, 2⟩) (m.table.get ⟨0, 4⟩) := by
  obtain ⟨roots, hr⟩ : ∃ roots, roots = [Capability.wholeTime 0 0 64,
    .wholeMemory 0x80000000 0x80010000 ⟨true, true, true⟩, .wholeChannel 0 16] := ⟨_, rfl⟩
  obtain ⟨m, he⟩ : ∃ m, m = Machine.afterAll roots
    [(0, .capDerive ⟨0, 1⟩ ⟨0, 3⟩ (.memory ⟨16, ⟨true, true, true⟩, false, .whole 0 8⟩)),
      (0, .capDerive ⟨0, 3⟩ ⟨1, 0⟩ (.pmp ⟨0x200001ff, ⟨true, true, false⟩, false, 0⟩)),
      (0, .capDerive ⟨0, 2⟩ ⟨0, 4⟩ (.channel (.whole 0 4))),
      (0, .capDerive ⟨0, 2⟩ ⟨0, 5⟩ (.socket ⟨4, .yield, .ofBits 15, 0⟩))] := ⟨_, rfl⟩
  -- a piece of memory with a region in it, and a range of channels with a server past it
  have hm : Reachable roots m := he ▸ .afterAll (hr ▸ rfl) _
  have hregion : m.table.Before ⟨0, 1⟩ ⟨1, 0⟩ := by
    rw [he, hr, Table.Before]
    decide +kernel
  have hchannels : m.table.Before ⟨0, 2⟩ ⟨0, 4⟩ := by
    rw [he, hr, Table.Before]
    decide +kernel
  have hmemory : (m.table.get ⟨0, 1⟩).span? = some ⟨0, 8, 16⟩ := by rw [he, hr]; decide +kernel
  have hrange : m.table.get ⟨0, 2⟩ = .channel ⟨0, 5, 16⟩ := by rw [he, hr]; decide +kernel
  obtain ⟨_, htops⟩ := tops_of_before hm
  refine ⟨roots, m, hr, hm, hregion, hchannels, hrange, ?_, ?_⟩
  · exact htops _ _ _ hregion hmemory
  · exact htops _ _ _ hchannels (by rw [hrange]; rfl)

end SepKernel
