import SepKernel.Capability.Derivation

/-!
# Deriving and reaching

A capability is derived from another in one of seven ways, and a revocation reaches what lies in
the resource of a capability. Reaching looks at outlines only, that is, at what a capability keeps
from its birth to its end; it is transitive, and a parent reaches its child.
-/

namespace SepKernel

/-! ## Spans -/

namespace Span

theorem reset_lower (s : Span) (n : BitVec 16) : (s.lower n).reset = s.reset := by
  unfold Span.lower
  split <;> rfl

end Span

/-! ## Addresses -/

/-- Addresses grow with the number of the block. -/
theorem blockAddress_le {tag : BitVec 8} {a b : BitVec 16} (h : a ≤ b) :
    blockAddress tag a ≤ blockAddress tag b := by
  have : a.toNat ≤ b.toNat := h
  simp only [blockAddress, tagSize, blockSize]
  omega

theorem MemoryRange.baseAddress_le_mark {m : MemoryRange} (h : m.span.Ordered) :
    m.baseAddress ≤ m.markAddress := blockAddress_le h.1

theorem MemoryRange.markAddress_le_limit {m : MemoryRange} (h : m.span.Ordered) :
    m.markAddress ≤ m.limitAddress := blockAddress_le h.2

/-- The order of two ranges of one tag is the order of their addresses. -/
theorem MemoryRange.limitAddress_le_base {m n : MemoryRange} (ht : m.tag = n.tag)
    (h : n.span.limit ≤ m.span.base) : n.limitAddress ≤ m.baseAddress := by
  simp only [limitAddress, baseAddress, ht]
  exact blockAddress_le h

namespace Capability

variable {x y z p c : Capability}

/-! ## Outlines -/

/-- A capability without what changes while it is held: the mark, the lock, and where a region is
loaded. -/
def outline : Capability → Capability
  | time h s => time h s.reset
  | memory m => memory { m with locked := false, span := m.span.reset }
  | pmp r => pmp { r with loaded := false, slot := 0 }
  | monitor s => monitor s.reset
  | channel s => channel s.reset
  | c => c

@[simp] theorem outline_afterDeriving (p c : Capability) :
    (p.afterDeriving c).outline = p.outline := by
  cases p <;> cases c <;> rfl

/-- Taking a child back changes nothing of the parent but its mark and its lock. -/
@[simp] theorem outline_afterReclaiming (p c : Capability) :
    (p.afterReclaiming c).outline = p.outline := by
  cases p <;> cases c <;> try rfl
  case time.time => simp only [afterReclaiming, outline, Span.reset_lower]
  case memory.memory => simp only [afterReclaiming, outline, Span.reset_lower]
  case monitor.monitor => simp only [afterReclaiming, outline, Span.reset_lower]
  case channel.channel => simp only [afterReclaiming, outline, Span.reset_lower]
  case channel.socket s k =>
    show outline (if k.isServer then channel (s.lower k.chan) else channel s) = _
    split
    · simp only [outline, Span.reset_lower]
    · rfl

@[simp] theorem outline_restored (c : Capability) : c.restored.outline = c.outline := by
  cases c <;> rfl

theorem mayRevoke_outline (p c : Capability) : p.outline.mayRevoke c.outline = p.mayRevoke c := by
  cases p <;> cases c <;> rfl

/-- A revocation looks at outlines only. -/
theorem mayRevoke_congr {p' c' : Capability} (hp : p.outline = p'.outline)
    (hc : c.outline = c'.outline) : p.mayRevoke c = p'.mayRevoke c' := by
  rw [← mayRevoke_outline p, hp, hc, mayRevoke_outline]

/-! ### Reach -/

theorem mayRevoke_time {h h' : BitVec 8} {s t : Span} :
    (time h s).mayRevoke (time h' t) = true ↔ h = h' ∧ s.Covers t := by
  show (h == h' && decide (s.Covers t)) = true ↔ _
  simp

theorem mayRevoke_memory {m n : MemoryRange} :
    (memory m).mayRevoke (memory n) = true ↔ m.tag = n.tag ∧ m.span.Covers n.span := by
  show (m.tag == n.tag && decide (m.span.Covers n.span)) = true ↔ _
  simp

theorem mayRevoke_region {m : MemoryRange} {r : Region} :
    (memory m).mayRevoke (pmp r) = true ↔
      m.baseAddress ≤ r.area.base ∧ r.area.limit ≤ m.limitAddress :=
  decide_eq_true_iff

theorem mayRevoke_monitor {s t : Span} :
    (monitor s).mayRevoke (monitor t) = true ↔ s.Covers t :=
  decide_eq_true_iff

theorem mayRevoke_channel {s t : Span} :
    (channel s).mayRevoke (channel t) = true ↔ s.Covers t :=
  decide_eq_true_iff

theorem mayRevoke_end {s : Span} {k : Socket} :
    (channel s).mayRevoke (socket k) = true ↔ s.Contains k.chan :=
  decide_eq_true_iff

theorem mayRevoke_socket {k k' : Socket} :
    (socket k).mayRevoke (socket k') = true ↔
      k.isServer = true ∧ k'.isServer = false ∧ k.chan = k'.chan := by
  show (k.isServer && !k'.isServer && k.chan == k'.chan) = true ↔ _
  simp [and_assoc]

/-- The pairs of kinds between which a revocation can reach. -/
theorem mayRevoke_trans (hxy : x.mayRevoke y = true) (hyz : y.mayRevoke z = true) :
    x.mayRevoke z = true := by
  cases x <;> cases y <;> try (simp [mayRevoke] at hxy; done)
  all_goals cases z <;> try (simp [mayRevoke] at hyz; done)
  case time.time.time =>
    rw [mayRevoke_time] at *
    exact ⟨hxy.1.trans hyz.1, hxy.2.trans hyz.2⟩
  case memory.memory.memory =>
    rw [mayRevoke_memory] at *
    exact ⟨hxy.1.trans hyz.1, hxy.2.trans hyz.2⟩
  case memory.memory.pmp m n r =>
    rw [mayRevoke_memory] at hxy
    rw [mayRevoke_region] at *
    have hb : m.baseAddress ≤ n.baseAddress := by
      simp only [MemoryRange.baseAddress, hxy.1]
      exact blockAddress_le hxy.2.1
    have hl : n.limitAddress ≤ m.limitAddress := by
      simp only [MemoryRange.limitAddress, hxy.1]
      exact blockAddress_le hxy.2.2
    exact ⟨Nat.le_trans hb hyz.1, Nat.le_trans hyz.2 hl⟩
  case monitor.monitor.monitor =>
    rw [mayRevoke_monitor] at *
    exact hxy.trans hyz
  case channel.channel.channel =>
    rw [mayRevoke_channel] at *
    exact hxy.trans hyz
  case channel.channel.socket =>
    rw [mayRevoke_channel] at hxy
    rw [mayRevoke_end] at *
    exact ⟨BitVec.le_trans hxy.1 hyz.1, Nat.lt_of_lt_of_le hyz.2 hxy.2⟩
  case channel.socket.socket =>
    rw [mayRevoke_socket] at hyz
    rw [mayRevoke_end] at *
    exact hyz.2.2 ▸ hxy
  case socket.socket.socket =>
    rw [mayRevoke_socket] at *
    exact absurd hyz.1 (by simp [hxy.2.1]) -- the one in the middle would be a server and a client

theorem outline_eq_null : c.outline = null ↔ c = null := by
  cases c <;> simp [outline]

/-- Having a capability or none is part of the outline. -/
theorem ne_null_of_outline {c' : Capability} (h : c.outline = c'.outline) (hc : c ≠ null) :
    c' ≠ null := by
  rw [Ne, ← outline_eq_null, ← h, outline_eq_null]
  exact hc

/-- An outline tells everything about a socket. -/
theorem outline_eq_socket {k : Socket} (h : c.outline = (socket k).outline) : c = socket k := by
  cases c <;> cases h
  rfl

/-! ## Soundness -/

/-- The mark of a range capability lies within its bounds. -/
def Sound (c : Capability) : Prop :=
  ∀ s, c.span? = some s → s.Ordered

/-! ## The ways of deriving -/

/-- The seven ways in which a child is derived from a parent. -/
inductive Derivation : Capability → Capability → Prop
  | time {h s s'} : s.Carves s' → s'.Fresh → Derivation (time h s) (time h s')
  | memory {m m' : MemoryRange} : m.locked = false → m'.locked = false → m.tag = m'.tag →
      m.span.Carves m'.span → m'.span.Fresh → m'.access.within m.access = true →
      Derivation (memory m) (memory m')
  | region {m : MemoryRange} {r : Region} : r.loaded = false → r.slot = 0 →
      r.area.base < r.area.limit → m.markAddress ≤ r.area.base → r.area.limit ≤ m.limitAddress →
      r.access.within m.access = true → Derivation (memory m) (pmp r)
  | monitor {s s'} : s.Carves s' → s'.Fresh → Derivation (monitor s) (monitor s')
  | channel {s s'} : s.Carves s' → s'.Fresh → Derivation (channel s) (channel s')
  | server {s k} : k.isServer = true → s.Free k.chan → Derivation (channel s) (socket k)
  | client {k k' : Socket} : k.isServer = true → k'.isServer = false → k.chan = k'.chan →
      k.mode = k'.mode → k.permission = k'.permission → Derivation (socket k) (socket k')

/-- The test made by the program is the relation, kind by kind. -/
theorem mayDerive_iff : p.mayDerive c = true ↔ Derivation p c := by
  constructor
  · intro h
    simp only [mayDerive, Bool.and_eq_true] at h
    obtain ⟨hf, hc⟩ := h
    -- seven pairs of kinds can be parent and child
    cases p <;> cases c <;>
      simp only [isFresh, carves, Bool.and_eq_true, Bool.not_eq_true', decide_eq_true_eq,
        beq_iff_eq, Bool.false_eq_true] at hf hc
    case time.time => obtain ⟨rfl, hc⟩ := hc; exact .time hc hf
    case memory.memory =>
      obtain ⟨⟨⟨hl, ht⟩, hs⟩, ha⟩ := hc
      exact .memory hl hf.1 ht hs hf.2 ha
    case memory.pmp =>
      obtain ⟨⟨hn, hw⟩, ha⟩ := hc
      exact .region hf.1 hf.2 hn hw.1 hw.2 ha
    case monitor.monitor => exact .monitor hc hf
    case channel.channel => exact .channel hc hf
    case channel.socket => exact .server hc.1 hc.2
    case socket.socket =>
      obtain ⟨⟨⟨⟨hk, hk'⟩, hch⟩, hm⟩, hp⟩ := hc
      exact .client hk hk' hch hm hp
  · rintro (_ | _ | _ | _ | _ | _ | _) <;>
      simp_all [mayDerive, isFresh, carves, Area.Within]

/-- Nothing is derived from nothing, and nothing is not derived. -/
theorem Derivation.ne_null (h : Derivation p c) : p ≠ null ∧ c ≠ null := by
  cases h <;> simp

/-- Whatever may be derived may be revoked: the child lies in the free part of the parent, and so in
the whole. -/
theorem Derivation.mayRevoke (h : Derivation p c) (hp : p.Sound) : p.mayRevoke c = true := by
  cases h with
  | time hc hf => simp [Capability.mayRevoke, hc.covers (hp _ rfl)]
  | memory _ _ ht hc => simp [Capability.mayRevoke, ht, hc.covers (hp _ rfl)]
  | @region m r _ _ _ hb hl =>
    -- a region is derived beyond the mark, and the mark is in the range
    have hm := MemoryRange.baseAddress_le_mark (hp m.span rfl)
    simp only [Capability.mayRevoke, decide_eq_true_eq]
    exact ⟨by omega, hl⟩
  | monitor hc => simp [Capability.mayRevoke, hc.covers (hp _ rfl)]
  | channel hc => simp [Capability.mayRevoke, hc.covers (hp _ rfl)]
  | @server s k _ hf =>
    have hs : s.Ordered := hp s rfl
    simp only [Capability.mayRevoke, decide_eq_true_eq]
    simp only [Span.Free, Span.Ordered, Span.Contains] at *
    bv_omega
  | client hk hk' hch => simp [Capability.mayRevoke, hk, hk', hch]

/-! ## Tracts -/

/-- Is this a tract of time, memory or processes? Whatever lies in a tract was handed out of it. -/
def isTract : Capability → Bool
  | time _ _ | memory _ | monitor _ => true
  | _ => false

theorem isTract_outline (c : Capability) : c.outline.isTract = c.isTract := by
  cases c <;> rfl

/-- The kind is part of the outline. -/
theorem isTract_congr {c' : Capability} (h : c.outline = c'.outline) :
    c.isTract = c'.isTract := by
  rw [← isTract_outline, h, isTract_outline]

end Capability
end SepKernel
