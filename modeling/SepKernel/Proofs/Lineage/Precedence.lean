import SepKernel.Proofs.Lineage.Reach

/-!
# The order of a line

Capabilities that come from one root stand in a line, and a child is put directly after its parent.
This file says what that order means for two capabilities of which one stands before the other,
and shows that the meaning survives every change of either: `Capability.Precedes` is the relation,
and there is one lemma for each end of the pair that deriving, reclaiming and restoring may touch.

A range that stands before another has either handed it out, so that it lies below the mark, or
lies above it altogether. Hence a mark bounds everything that was handed out and still stands.
-/

namespace SepKernel

/-! ## Spans -/

namespace Span

/-- Has `s` handed `t` out, or does `t` lie below all of `s`? A span that was handed out is not
empty. -/
def Above (s t : Span) : Prop :=
  t.base < t.limit ∧ (s.base ≤ t.base ∧ t.limit ≤ s.mark ∨ t.limit ≤ s.base)

variable {s t u : Span} {n : BitVec 16}

/-- What is above a range is above its parts. -/
theorem Above.carve (h : s.Above t) (ht : t.Ordered) (hc : t.Carves u) (hu : u.Fresh) :
    s.Above u := by
  simp only [Above, Ordered, Carves, Fresh] at *
  bv_omega

/-- A child ends up above its parent, whose mark it has raised. -/
theorem Carves.above (hc : s.Carves t) (hs : s.Ordered) (ht : t.Fresh) :
    Above { s with mark := t.limit } t := by
  simp only [Above, Ordered, Carves, Fresh] at *
  bv_omega

theorem Above.raise (h : s.Above t) (hn : s.mark ≤ n) : Above { s with mark := n } t := by
  simp only [Above] at *
  bv_omega

/-- Whatever stood after a parent lies below the child that is carved out of it next. -/
theorem Carves.limit_le (hc : s.Carves u) (hs : s.Ordered) (h : s.Above t) :
    t.limit ≤ u.base := by
  simp only [Above, Ordered, Carves] at *
  bv_omega

/-- Lowering the mark of the upper one keeps it above the other, down to where that one ends. -/
theorem Above.lower_of_le (h : s.Above t) (hn : t.limit ≤ n) : (s.lower n).Above t := by
  unfold Span.lower
  split
  · simp only [Above] at *
    bv_omega
  · exact h

/-- A range stays above if its mark is lowered to that of one that is above as well. -/
theorem Above.lower (h : s.Above t) (hu : u.Ordered) (hut : u.Above t) :
    (s.lower u.mark).Above t := by
  apply h.lower_of_le
  simp only [Above, Ordered] at *
  bv_omega

/-- What does not lie in the range is above it, wherever the mark is. -/
theorem Above.reset (h : s.Above t) (hn : ¬ s.Covers t) (hs : s.Ordered) : s.reset.Above t := by
  simp only [Above, Covers, Ordered, Span.reset] at *
  bv_omega

/-- What is above a range lies in it, or before it. -/
theorem Above.covers_or_limit_le (h : s.Above t) (hs : s.Ordered) :
    s.Covers t ∨ t.limit ≤ s.base := by
  simp only [Above, Covers, Ordered] at *
  bv_omega

theorem Above.not_covers (h : s.Above t) (hl : t.limit ≤ s.base) : ¬ s.Covers t := by
  simp only [Above, Covers] at *
  bv_omega

/-- What a covering span handed out, it handed out whole. -/
theorem Above.limit_le_mark (h : s.Above t) (hc : s.Covers t) : t.limit ≤ s.mark := by
  simp only [Above, Covers] at *
  bv_omega

theorem Fresh.not_covers_of_le (h : u.Fresh) (hc : t.Carves u) (hl : t.limit ≤ s.base) :
    ¬ s.Covers u := by
  simp only [Fresh, Covers, Carves] at *
  bv_omega

theorem Ordered.raise (h : s.Ordered) (hn : s.mark ≤ n) (hl : n ≤ s.limit) :
    Ordered { s with mark := n } := by
  simp only [Ordered] at *
  bv_omega

/-- A mark may be lowered as far as the base. -/
theorem Ordered.lower (h : s.Ordered) (hn : s.base ≤ n) : (s.lower n).Ordered := by
  unfold Span.lower
  split
  · simp only [Ordered] at *
    bv_omega
  · exact h

theorem Ordered.reset (h : s.Ordered) : s.reset.Ordered := by
  simp only [Ordered, Span.reset] at *
  bv_omega

@[simp] theorem base_lower (s : Span) (n : BitVec 16) : (s.lower n).base = s.base := by
  unfold Span.lower
  split <;> rfl

@[simp] theorem limit_lower (s : Span) (n : BitVec 16) : (s.lower n).limit = s.limit := by
  unfold Span.lower
  split <;> rfl

theorem le_mark_lower {a : BitVec 16} : a ≤ (s.lower n).mark ↔ a ≤ s.mark ∧ a ≤ n := by
  unfold Span.lower
  split <;> bv_omega

theorem lt_mark_lower {a : BitVec 16} : a < (s.lower n).mark ↔ a < s.mark ∧ a < n := by
  unfold Span.lower
  split <;> bv_omega

/-- A covered span was handed out whole, so taking it back leaves its mark. -/
theorem Above.mark_lower (h : s.Above t) (hc : s.Covers t) (ht : t.Ordered) :
    (s.lower t.mark).mark = t.mark := by
  have hm := h.limit_le_mark hc
  unfold Span.lower
  split
  · rfl
  · have := ht.2
    bv_omega

end Span

namespace Capability

variable {x y z p c : Capability}

/-! ## Standing before -/

/-- What holds of two capabilities of one line of which the first stands before the second. -/
inductive Precedes : Capability → Capability → Prop
  | time {h s t} : s.Above t → Precedes (time h s) (time h t)
  | memory {m n : MemoryRange} : m.tag = n.tag → m.span.Above n.span →
      Precedes (memory m) (memory n)
  /-- A region lies in the memory or below it, and while the memory is not locked, below its
  mark. -/
  | region {m : MemoryRange} {r : Region} : r.area.base < r.area.limit →
      (m.baseAddress ≤ r.area.base ∧ r.area.limit ≤ m.limitAddress ∨
        r.area.limit ≤ m.baseAddress) →
      (m.locked = false → r.area.limit ≤ m.markAddress) → Precedes (memory m) (pmp r)
  | beneath {r : Region} {m : MemoryRange} : m.limitAddress ≤ r.area.base →
      Precedes (pmp r) (memory m)
  | regions {r r'} : Precedes (pmp r) (pmp r')
  | monitor {s t} : s.Above t → Precedes (monitor s) (monitor t)
  | channel {s t} : s.Above t → Precedes (channel s) (channel t)
  /-- The mark of a range of channels bounds the servers below it strictly. The clients of a server
  that was taken back may stand at the mark. -/
  | ends {s : Span} {k : Socket} : k.chan < s.limit → k.chan ≤ s.mark →
      (k.isServer = true → k.chan < s.mark) → Precedes (channel s) (socket k)
  | range {k : Socket} {s : Span} : s.limit ≤ k.chan → Precedes (socket k) (channel s)
  | sockets {k k' : Socket} : k'.chan ≤ k.chan → (k'.isServer = true → k'.chan < k.chan) →
      Precedes (socket k) (socket k')

theorem precedes_outline : x.Precedes y.outline ↔ x.Precedes y := by
  cases y <;> constructor <;> intro h <;> cases h <;> constructor <;> assumption

/-- For the second of two, only the outline matters. -/
theorem Precedes.congr_right (h : x.Precedes y) (hz : y.outline = z.outline) : x.Precedes z := by
  rw [← precedes_outline, ← hz, precedes_outline]
  exact h

/-! ### Deriving -/

/-- What stands before a parent stands rightly before a new child of it. -/
theorem Precedes.derive (h : x.Precedes p) (hd : Derivation p c) (hx : x.Sound) (hp : p.Sound) :
    x.Precedes c := by
  cases hd with
  | time hc hf => cases h with | time ha => exact .time (ha.carve (hp _ rfl) hc hf)
  | monitor hc hf => cases h with | monitor ha => exact .monitor (ha.carve (hp _ rfl) hc hf)
  | memory _ _ ht hc hf =>
    cases h with
    | memory ht' ha => exact .memory (ht'.trans ht) (ha.carve (hp _ rfl) hc hf)
    | beneath hl =>
      refine .beneath (Nat.le_trans ?_ hl)
      simp only [MemoryRange.limitAddress, ← ht]
      exact blockAddress_le hc.2
  | @region m r _ _ hn hb hl =>
    cases h with
    | @memory m₀ _ ht ha =>
      have h₀ := MemoryRange.baseAddress_le_mark (hx m₀.span rfl)
      have h₁ := MemoryRange.markAddress_le_limit (hx m₀.span rfl)
      have h₂ := MemoryRange.baseAddress_le_mark (hp m.span rfl)
      -- the first memory handed out the parent, and the region with it, or lies above both
      rcases ha.2 with ⟨hb', hl'⟩ | hl'
      · have hbase : m₀.baseAddress ≤ m.baseAddress := by
          simp only [MemoryRange.baseAddress, ht]
          exact blockAddress_le hb'
        have hlimit : m.limitAddress ≤ m₀.markAddress := by
          simp only [MemoryRange.limitAddress, MemoryRange.markAddress, ht]
          exact blockAddress_le hl'
        exact .region hn (.inl ⟨by omega, by omega⟩) fun _ => by omega
      · have hlimit := MemoryRange.limitAddress_le_base ht hl'
        exact .region hn (.inr (by omega)) fun _ => by omega
    | beneath => exact .regions
  | channel hc hf =>
    cases h with
    | channel ha => exact .channel (ha.carve (hp _ rfl) hc hf)
    | range hl => exact .range (BitVec.le_trans hc.2 hl)
  | @server s k _ hf =>
    cases h with
    | @channel s₀ _ ha =>
      have h₀ := hx s₀ rfl
      simp only [Span.Above, Span.Free, Span.Ordered] at ha hf h₀
      exact .ends (by bv_omega) (by bv_omega) fun _ => by bv_omega
    | range hl =>
      simp only [Span.Free] at hf
      exact .sockets (by bv_omega) fun _ => by bv_omega
  | client hk hk' hch =>
    cases h with
    | ends hl hm hs => exact .ends (hch ▸ hl) (hch ▸ hm) fun _ => hch ▸ hs hk
    | sockets hl hs => exact .sockets (hch ▸ hl) fun _ => hch ▸ hs hk

/-- A parent stands rightly before the child that was just derived from it. -/
theorem Derivation.precedes (hd : Derivation p c) (hp : p.Sound) :
    (p.afterDeriving c).Precedes c := by
  cases hd with
  | time hc hf => exact .time (hc.above (hp _ rfl) hf)
  | memory _ _ ht hc hf => exact .memory ht (hc.above (hp _ rfl) hf)
  | @region m r _ _ hn hb hl =>
    have hm := MemoryRange.baseAddress_le_mark (hp m.span rfl)
    exact .region hn (.inl ⟨Nat.le_trans hm hb, hl⟩) (by simp)
  | monitor hc hf => exact .monitor (hc.above (hp _ rfl) hf)
  | channel hc hf => exact .channel (hc.above (hp _ rfl) hf)
  | @server s k _ hf =>
    have hs := hp s rfl
    simp only [Span.Free, Span.Ordered] at hf hs
    exact .ends (by bv_omega) (by bv_omega) fun _ => by bv_omega -- the new mark is past the channel
  | client hk hk' hch => exact .sockets (hch ▸ BitVec.le_refl _) (by simp [hk'])

/-- What stood after a parent still stands rightly after it once it has a new child. -/
theorem Derivation.precedes_of_precedes (hd : Derivation p c) (hp : p.Sound) (h : p.Precedes y) :
    (p.afterDeriving c).Precedes y := by
  cases hd with
  | time hc hf =>
    cases h with | time ha => exact .time (ha.raise (hc.1 ▸ BitVec.le_of_lt hf.2))
  | monitor hc hf =>
    cases h with | monitor ha => exact .monitor (ha.raise (hc.1 ▸ BitVec.le_of_lt hf.2))
  | @memory m m' _ _ ht hc hf =>
    have hm : m.span.mark ≤ m'.span.limit := hc.1 ▸ BitVec.le_of_lt hf.2
    cases h with
    | memory ht' ha => exact .memory ht' (ha.raise hm)
    | region hn ha hl => exact .region hn ha fun h => Nat.le_trans (hl h) (blockAddress_le hm)
  | region =>
    cases h with
    | memory ht ha => exact .memory ht ha
    | region hn ha hl => exact .region hn ha (by simp)
  | channel hc hf =>
    have hm := hc.1 ▸ BitVec.le_of_lt hf.2
    cases h with
    | channel ha => exact .channel (ha.raise hm)
    | ends hl hk hs =>
      exact .ends hl (BitVec.le_trans hk hm) fun h => Nat.lt_of_lt_of_le (hs h) hm
  | @server s k _ hf =>
    -- the mark only rises, and what came after the parent is below it
    have hm : s.mark ≤ k.chan + 1 := by
      simp only [Span.Free] at hf
      bv_omega
    cases h with
    | channel ha => exact .channel (ha.raise hm)
    | ends hl hk hs =>
      exact .ends hl (BitVec.le_trans hk hm) fun h => Nat.lt_of_lt_of_le (hs h) hm
  | client => exact h

/-- What stood after a parent stands rightly after a new child of it. -/
theorem Derivation.child_precedes (hd : Derivation p c) (hp : p.Sound) (h : p.Precedes y) :
    c.Precedes y := by
  cases hd with
  | time hc => cases h with | time ha => exact .time ⟨ha.1, .inr (hc.limit_le (hp _ rfl) ha)⟩
  | monitor hc =>
    cases h with | monitor ha => exact .monitor ⟨ha.1, .inr (hc.limit_le (hp _ rfl) ha)⟩
  | @memory m m' hu _ ht hc hf =>
    cases h with
    | memory ht' ha => exact .memory (ht ▸ ht') ⟨ha.1, .inr (hc.limit_le (hp _ rfl) ha)⟩
    | region hn ha hl =>
      -- the parent is not locked, so the region is below its mark, where the child begins
      have hm : m.markAddress = m'.baseAddress := by
        simp only [MemoryRange.markAddress, MemoryRange.baseAddress, ht, hc.1]
      have hm' : m'.baseAddress = m'.markAddress := by
        simp only [MemoryRange.markAddress, MemoryRange.baseAddress, hf.1]
      exact .region hn (.inr (hm ▸ hl hu)) fun _ => hm' ▸ hm ▸ hl hu
  | @region m r _ _ _ hb =>
    have hm := MemoryRange.baseAddress_le_mark (hp m.span rfl)
    cases h with
    | @memory _ n ht ha =>
      -- the other memory is below the mark of the parent, and the region is not
      refine .beneath (Nat.le_trans ?_ hb)
      rcases ha.2 with ha | ha
      · simp only [MemoryRange.limitAddress, MemoryRange.markAddress, ← ht]
        exact blockAddress_le ha.2
      · exact Nat.le_trans (MemoryRange.limitAddress_le_base ht ha) hm
    | region => exact .regions
  | channel hc hf =>
    cases h with
    | channel ha => exact .channel ⟨ha.1, .inr (hc.limit_le (hp _ rfl) ha)⟩
    | ends hl hk hs =>
      have hlt := hc.1 ▸ hf.2
      have hb := hc.1.symm.trans hf.1
      exact .ends (Nat.lt_of_le_of_lt hk hlt) (hb ▸ hk) fun h => hb ▸ hs h
  | @server s k _ hf =>
    have hs₀ := hp s rfl
    simp only [Span.Free, Span.Ordered] at hf hs₀
    cases h with
    | channel ha =>
      simp only [Span.Above] at ha
      exact .range (by bv_omega)
    | ends hl hk hs => exact .sockets (by bv_omega) fun h => Nat.lt_of_lt_of_le (hs h) hf.1
  | client hk hk' hch =>
    cases h with
    | range hl => exact .range (hch ▸ hl)
    | sockets hl hs => exact .sockets (hch ▸ hl) fun h => hch ▸ hs h

/-! ### Taking back -/

/-- Once a parent has taken a child back, it stands rightly before what stood after that child. -/
theorem Precedes.reclaim (hpc : p.Precedes c) (hr : p.mayRevoke c = true) (hc : c.Sound)
    (hp : p.Precedes y) (hy : c.Precedes y) : (p.afterReclaiming c).Precedes y := by
  cases hpc with
  | time =>
    cases hp with
    | time ha => cases hy with | time ha' => exact .time (ha.lower (hc _ rfl) ha')
  | monitor =>
    cases hp with
    | monitor ha => cases hy with | monitor ha' => exact .monitor (ha.lower (hc _ rfl) ha')
  | @memory m n ht hpc =>
    cases hp with
    | memory ht' ha => cases hy with | memory _ ha' => exact .memory ht' (ha.lower (hc _ rfl) ha')
    | region hn ha hl =>
      cases hy with
      | region _ _ hl' =>
        have hcov : m.span.Covers n.span := by
          simp only [mayRevoke, Bool.and_eq_true, decide_eq_true_eq] at hr
          exact hr.2
        have hm : blockAddress m.tag (m.span.lower n.span.mark).mark = n.markAddress := by
          rw [hpc.mark_lower hcov (hc _ rfl), ht, MemoryRange.markAddress]
        -- The parent has the mark and the lock of the child now.
        refine .region hn ?_ fun h => Nat.le_trans (hl' h) (Nat.le_of_eq hm.symm)
        simpa only [MemoryRange.baseAddress, MemoryRange.limitAddress, Span.base_lower,
          Span.limit_lower] using ha
  | region => exact hp
  | beneath => exact hp
  | regions => exact hp
  | channel =>
    cases hp with
    | channel ha => cases hy with | channel ha' => exact .channel (ha.lower (hc _ rfl) ha')
    | @ends s k hl hk hs =>
      cases hy with
      | ends _ hk' hs' =>
        exact .ends (by simpa using hl) (Span.le_mark_lower.2 ⟨hk, hk'⟩) fun h =>
          Span.lt_mark_lower.2 ⟨hs h, hs' h⟩
  | @ends s k =>
    show Precedes (if k.isServer then .channel (s.lower k.chan) else .channel s) y
    split
    · cases hp with
      | channel ha =>
        cases hy with
        | range hl => exact .channel (ha.lower_of_le hl)
      | ends hl hk hs =>
        cases hy with
        | sockets hk' hs' =>
          exact .ends (by simpa using hl) (Span.le_mark_lower.2 ⟨hk, hk'⟩) fun h =>
            Span.lt_mark_lower.2 ⟨hs h, hs' h⟩
    · exact hp
  | range => exact hp
  | sockets => exact hp

/-- A parent that has its whole range again stands rightly before what it does not reach. -/
theorem Precedes.restore (h : p.Precedes y) (hn : p.mayRevoke y = false) (hp : p.Sound) :
    p.restored.Precedes y := by
  cases h with
  | time ha => exact .time (ha.reset (by simpa [mayRevoke] using hn) (hp _ rfl))
  | monitor ha => exact .monitor (ha.reset (by simpa [mayRevoke] using hn) (hp _ rfl))
  | memory ht ha => exact .memory ht (ha.reset (by simpa [mayRevoke, ht] using hn) (hp _ rfl))
  -- a region that is not reached is below the memory, and so below every mark of it
  | @region m r hne ha hl =>
    have hb : r.area.limit ≤ m.baseAddress := by
      rw [Bool.eq_false_iff, ne_eq, mayRevoke_region] at hn
      omega
    exact .region hne (.inr hb) fun _ => hb
  | beneath hl => exact .beneath hl
  | regions => exact .regions
  | channel ha => exact .channel (ha.reset (by simpa [mayRevoke] using hn) (hp _ rfl))
  | @ends s k hl hk hs =>
    have hb : k.chan < s.base := by
      rw [Bool.eq_false_iff, ne_eq, mayRevoke_end, Span.Contains] at hn
      bv_omega
    exact .ends hl (BitVec.le_of_lt hb) fun _ => hb
  | range hl => exact .range hl
  | sockets hl hs => exact .sockets hl hs

/-! ### Reach -/

/-- Whoever stands before the parent and reaches the child reaches the parent. -/
theorem Precedes.mayRevoke_of_child (h : x.Precedes p) (hd : Derivation p c) (hx : x.Sound)
    (hr : x.mayRevoke c = true) : x.mayRevoke p = true := by
  cases hd with
  | time hc hf =>
    cases h with
    | time ha =>
      rw [mayRevoke_time] at *
      rcases ha.covers_or_limit_le (hx _ rfl) with hcov | hl
      · exact ⟨rfl, hcov⟩
      · exact absurd hr.2 (hf.not_covers_of_le hc hl)
  | monitor hc hf =>
    cases h with
    | monitor ha =>
      rw [mayRevoke_monitor] at *
      rcases ha.covers_or_limit_le (hx _ rfl) with hcov | hl
      · exact hcov
      · exact absurd hr (hf.not_covers_of_le hc hl)
  | memory _ _ _ hc hf =>
    cases h with
    | memory ht ha =>
      rw [mayRevoke_memory] at *
      rcases ha.covers_or_limit_le (hx _ rfl) with hcov | hl
      · exact ⟨ht, hcov⟩
      · exact absurd hr.2 (hf.not_covers_of_le hc hl)
    | beneath => cases hr
  -- an area is not empty, so it cannot be in one memory and in another one below it
  | region _ _ hn _ hl₀ =>
    cases h with
    | memory ht ha =>
      rw [mayRevoke_memory]
      rw [mayRevoke_region] at hr
      rcases ha.covers_or_limit_le (hx _ rfl) with hcov | hl
      · exact ⟨ht, hcov⟩
      · have := MemoryRange.limitAddress_le_base ht hl
        omega
    | beneath => cases hr
  | channel hc hf =>
    cases h with
    | channel ha =>
      rw [mayRevoke_channel] at *
      rcases ha.covers_or_limit_le (hx _ rfl) with hcov | hl
      · exact hcov
      · exact absurd hr (hf.not_covers_of_le hc hl)
    | range => cases hr
  | server _ hf =>
    cases h with
    | channel ha =>
      rw [mayRevoke_channel]
      rw [mayRevoke_end] at hr
      rcases ha.covers_or_limit_le (hx _ rfl) with hcov | hl
      · exact hcov
      · simp only [Span.Contains, Span.Free] at hr hf
        bv_omega
    | range => simp_all [mayRevoke]
  | client hk hk' hch =>
    cases h with
    | ends =>
      rw [mayRevoke_end] at *
      exact hch ▸ hr
    | sockets _ hs =>
      rw [mayRevoke_socket] at hr
      exact absurd (hch.trans hr.2.2.symm) (BitVec.ne_of_lt (hs hk))

/-- A new tract reaches nothing that stood after its parent. -/
theorem Derivation.mayRevoke_eq_false (hd : Derivation p c) (hp : p.Sound) (hc : c.isTract = true)
    (h : p.Precedes z) : c.mayRevoke z = false := by
  rw [Bool.eq_false_iff]
  intro hr
  cases hd with
  | time hcar =>
    cases h with
    | time ha =>
      have hl := hcar.limit_le (hp _ rfl) ha
      exact Span.Above.not_covers ⟨ha.1, .inr hl⟩ hl (mayRevoke_time.1 hr).2
  | monitor hcar =>
    cases h with
    | monitor ha =>
      have hl := hcar.limit_le (hp _ rfl) ha
      exact Span.Above.not_covers ⟨ha.1, .inr hl⟩ hl (mayRevoke_monitor.1 hr)
  | @memory m n hu _ ht hcar =>
    cases h with
    | memory _ ha =>
      have hl := hcar.limit_le (hp _ rfl) ha
      exact Span.Above.not_covers ⟨ha.1, .inr hl⟩ hl (mayRevoke_memory.1 hr).2
    | region hne _ hl =>
      -- the region is below the mark of the parent, and the child begins there
      have hm : m.markAddress = n.baseAddress := by
        simp only [MemoryRange.markAddress, MemoryRange.baseAddress, ht, hcar.1]
      have hb := (mayRevoke_region.1 hr).1
      have := hl hu
      omega
  | region => cases hc
  | channel => cases hc
  | server => cases hc
  | client => cases hc

/-- A client that stands after a range of channels, at its mark or beyond, has only other clients of
its channel before it. -/
theorem Precedes.client_of_mark_le {s : Span} {k : Socket}
    (hy : Precedes (.channel s) y) (hz : Precedes (.channel s) (socket k))
    (hyz : y.Precedes (socket k)) (hs : s.Ordered)
    (hk : s.mark ≤ k.chan) :
    k.isServer = false ∧ ∃ k', y = socket k' ∧ k'.isServer = false ∧ k'.chan = k.chan := by
  -- only the clients of a server that was taken back may stand at the mark itself
  have ⟨hle, hlt⟩ : k.chan ≤ s.mark ∧ (k.isServer = true → k.chan < s.mark) := by
    cases hz with | ends _ hle hlt => exact ⟨hle, hlt⟩
  have hserver : k.isServer = false := by
    rw [Bool.eq_false_iff]
    intro h
    have := hlt h
    bv_omega
  refine ⟨hserver, ?_⟩
  cases hy with
  | channel ha =>
    cases hyz with
    | ends hl _ _ =>
      simp only [Span.Above, Span.Ordered] at ha hs
      bv_omega
  | @ends _ k' _ hle' hlt' =>
    cases hyz with
    | sockets hl _ =>
      refine ⟨k', rfl, ?_, by bv_omega⟩
      rw [Bool.eq_false_iff]
      intro h
      have := hlt' h
      bv_omega

/-- A new child reaches nothing that stood after its parent, save the clients of an earlier server
of its channel. Between its parent and such a client there are only others of them. -/
theorem Derivation.mayRevoke_between (hd : Derivation p c) (hp : p.Sound) (hpy : p.Precedes y)
    (hpz : p.Precedes z) (hyz : y.Precedes z) (hr : c.mayRevoke z = true) :
    c.mayRevoke y = true := by
  cases hd with
  | time hc hf =>
    simp [(Derivation.time hc hf).mayRevoke_eq_false hp rfl hpz] at hr
  | monitor hc hf => 
    simp [(Derivation.monitor hc hf).mayRevoke_eq_false hp rfl hpz] at hr
  | memory hu hu' ht hc hf ha =>
    simp [(Derivation.memory hu hu' ht hc hf ha).mayRevoke_eq_false hp rfl hpz] at hr
  | region => cases z <;> cases hr
  | @channel s t hc =>
    cases z with
    | channel u =>
      cases hpz with
      | channel ha =>
        have hl := hc.limit_le (hp _ rfl) ha
        exact absurd (mayRevoke_channel.1 hr) (Span.Above.not_covers ⟨ha.1, .inr hl⟩ hl)
    | socket k => -- the child begins at the mark, so this is a client that stands there
      rw [mayRevoke_end] at hr
      obtain ⟨-, k', rfl, -, hk'⟩ := hpy.client_of_mark_le hpz hyz (hp _ rfl) (hc.1 ▸ hr.1)
      rw [mayRevoke_end, hk']
      exact hr
    | _ => cases hr
  | server hk hf =>
    cases z with
    | socket k' =>
      rw [mayRevoke_socket] at hr
      obtain ⟨-, k'', rfl, hk'', hch⟩ :=
        hpy.client_of_mark_le hpz hyz (hp _ rfl) (hr.2.2 ▸ hf.1)
      rw [mayRevoke_socket]
      exact ⟨hk, hk'', hr.2.2.trans hch.symm⟩
    | _ => cases hr
  | client _ hk' =>
    cases z with
    | socket => exact absurd (mayRevoke_socket.1 hr).1 (by simp [hk'])
    | _ => cases hr

/-! ### Soundness -/

/-- The mark of a fresh range stands at its base, and so within its bounds. -/
theorem sound_of_isFresh (h : c.isFresh = true) : c.Sound := by
  cases c <;> rintro _ ⟨⟩ <;>
    simp only [isFresh, Bool.and_eq_true, Bool.not_eq_true', decide_eq_true_eq] at h
  case memory => exact h.2.ordered
  all_goals exact h.ordered

theorem Derivation.sound_child (hd : Derivation p c) : c.Sound :=
  sound_of_isFresh (isFresh_of_mayDerive (mayDerive_iff.2 hd))

/-- Raising the mark past the child keeps the parent sound, as the child ends within it. -/
theorem Derivation.sound (hd : Derivation p c) (hp : p.Sound) : (p.afterDeriving c).Sound := by
  cases hd with
  | time hc hf =>
    rintro _ ⟨⟩
    exact (hp _ rfl).raise (hc.1 ▸ BitVec.le_of_lt hf.2) hc.2
  | memory _ _ _ hc hf =>
    rintro _ ⟨⟩
    exact Span.Ordered.raise (hp _ rfl) (hc.1 ▸ BitVec.le_of_lt hf.2) hc.2
  | region =>
    rintro _ ⟨⟩
    exact hp _ rfl
  | monitor hc hf =>
    rintro _ ⟨⟩
    exact (hp _ rfl).raise (hc.1 ▸ BitVec.le_of_lt hf.2) hc.2
  | channel hc hf =>
    rintro _ ⟨⟩
    exact (hp _ rfl).raise (hc.1 ▸ BitVec.le_of_lt hf.2) hc.2
  | server _ hf => -- the mark passes the channel, which is within the range
    rintro _ ⟨⟩
    simp only [Span.Free] at hf
    exact (hp _ rfl).raise (by bv_omega) (by bv_omega)
  | client => exact hp

/-- Taking a child back lowers the mark to its base, which is still within the parent. -/
theorem Sound.reclaim (hp : p.Sound) (hc : c.Sound) (hr : p.mayRevoke c = true) :
    (p.afterReclaiming c).Sound := by
  -- only a range that takes a part back changes
  cases p <;> cases c <;> try exact hp
  case time.time =>
    rintro _ ⟨⟩
    exact (hp _ rfl).lower (BitVec.le_trans (mayRevoke_time.1 hr).2.1 (hc _ rfl).1)
  case memory.memory =>
    rintro _ ⟨⟩
    exact Span.Ordered.lower (hp _ rfl) (BitVec.le_trans (mayRevoke_memory.1 hr).2.1 (hc _ rfl).1)
  case monitor.monitor =>
    rintro _ ⟨⟩
    exact (hp _ rfl).lower (BitVec.le_trans (mayRevoke_monitor.1 hr).1 (hc _ rfl).1)
  case channel.channel =>
    rintro _ ⟨⟩
    exact (hp _ rfl).lower (BitVec.le_trans (mayRevoke_channel.1 hr).1 (hc _ rfl).1)
  case channel.socket s k =>
    show Sound (if k.isServer then channel (s.lower k.chan) else channel s)
    split
    · rintro _ ⟨⟩
      exact (hp _ rfl).lower (mayRevoke_end.1 hr).1
    · exact hp

/-- Restoring a range keeps it in order. -/
theorem Sound.restored (hp : p.Sound) : p.restored.Sound := by
  cases p <;> rintro _ ⟨⟩ <;> exact Span.Ordered.reset (hp _ rfl)

/-! ### Loading regions -/

/-- A capability before and after a region was loaded, unloaded, or left as it was. -/
inductive Reseats : Capability → Capability → Prop
  | same (c : Capability) : Reseats c c
  | region {r r' : Region} : r.address = r'.address → r.access = r'.access →
      (r'.loaded = true → r'.slot.toNat < 8) → Reseats (pmp r) (pmp r')

/-- Where it sits is not part of the outline. -/
theorem Reseats.outline_eq (h : Reseats x z) : x.outline = z.outline := by
  cases h with
  | same => rfl
  | @region r r' ha hb => simp only [outline, ha, hb]

/-- A region stays sound when it is loaded or unloaded. -/
theorem Reseats.sound (h : Reseats x z) (hx : x.Sound) : z.Sound := by
  cases h with
  | same => exact hx
  | region => rintro _ ⟨⟩

/-- A region may be loaded and unloaded without regard to what stands after it. -/
theorem Reseats.precedes (h : Reseats x z) (hx : x.Precedes y) : z.Precedes y := by
  cases h with
  | same => exact hx
  | @region r r' ha hb =>
    cases hx with
    | beneath hl => exact .beneath (by rwa [Region.area, ← ha])
    | regions => exact .regions

end Capability
end SepKernel
