import SepKernel.Proofs.Lineage.Ownership

/-!
# What a root grants

A capability that is given out at boot grants whatever can be made of it and of what was made of it,
over any number of derivations: less time of the same hart, less memory with fewer rights, regions
within its memory, fewer processes or channels, servers of its channels and their clients.

What a capability grants does not depend on what has been handed out of it, nor on what has been
handed out of what it grants.
-/

namespace SepKernel

/-- Each right of the first is one of the second, and so one of the third. -/
theorem Access.within_trans {a b c : Access} (hab : a.within b = true) (hbc : b.within c = true) :
    a.within c = true := by
  obtain ⟨ra, wa, xa⟩ := a
  obtain ⟨rb, wb, xb⟩ := b
  simp only [within, Bool.and_eq_true, Bool.or_eq_true, Bool.not_eq_true'] at *
  grind

theorem Access.within_self (a : Access) : a.within a = true := by
  simp [within]

/-- An area whose end lies above its base does not wrap around the end of memory. -/
theorem Region.area_limit {r : Region} (h : r.area.base < r.area.limit) :
    0 < r.area.size ∧ r.area.limit = r.area.base + r.area.size := by
  have hbase : r.area.base < wordCount := Nat.mod_lt _ (by decide)
  have hsize : r.area.size < wordCount := Nat.mod_lt _ (by decide)
  simp only [Area.limit, wordCount] at *
  omega

namespace Capability

variable {root p c : Capability}

/-- What can be made of a capability over any number of derivations, and the capability itself. -/
inductive Grants : Capability → Capability → Prop
  | time {h s s'} : s.Covers s' → Grants (time h s) (time h s')
  | memory {m m' : MemoryRange} : m.tag = m'.tag → m.span.Covers m'.span →
      m'.access.within m.access = true → Grants (memory m) (memory m')
  | region {m : MemoryRange} {r : Region} : 0 < r.area.size → m.baseAddress ≤ r.area.base →
      r.area.base + r.area.size ≤ m.limitAddress → r.access.within m.access = true →
      Grants (memory m) (pmp r)
  | area {r r' : Region} : r.address = r'.address → r.access = r'.access →
      Grants (pmp r) (pmp r')
  | monitor {s s'} : s.Covers s' → Grants (monitor s) (monitor s')
  | channel {s s'} : s.Covers s' → Grants (channel s) (channel s')
  | socket {s k} : s.Contains k.chan → Grants (channel s) (socket k)
  | itself (k : Socket) : Grants (socket k) (socket k)
  | client {k k' : Socket} : k.isServer = true → k'.isServer = false → k.chan = k'.chan →
      k.mode = k'.mode → k.permission = k'.permission → Grants (socket k) (socket k')

/-- A capability grants what it is. -/
theorem Grants.self (hc : c ≠ null) : c.Grants c := by
  have hcovers : ∀ s : Span, s.Covers s := fun s => ⟨BitVec.le_refl _, BitVec.le_refl _⟩
  cases c with
  | null => exact absurd rfl hc
  | time h s => exact .time (hcovers s)
  | memory m => exact .memory rfl (hcovers m.span) m.access.within_self
  | pmp r => exact .area rfl rfl
  | monitor s => exact .monitor (hcovers s)
  | channel s => exact .channel (hcovers s)
  | socket k => exact .itself k

/-- What a root grants depends on nothing that changes while a capability is held: not on marks,
locks or loading. -/
theorem grants_outline : root.Grants c.outline ↔ root.Grants c := by
  constructor
  · intro h
    -- no grant asks for what the outline leaves out
    cases c with
    | null => cases h
    | time => cases h with | time hs => exact .time hs
    | memory => cases h with | memory ht hs ha => exact .memory ht hs ha
    | pmp =>
      cases h with
      | region hn hb hl ha => exact .region hn hb hl ha
      | area ha hr => exact .area ha hr
    | monitor => cases h with | monitor hs => exact .monitor hs
    | channel => cases h with | channel hs => exact .channel hs
    | socket => exact h
  · intro h
    cases h with
    | time hs => exact .time hs
    | memory ht hs ha => exact .memory ht hs ha
    | region hn hb hl ha => exact .region hn hb hl ha
    | area ha hr => exact .area ha hr
    | monitor hs => exact .monitor hs
    | channel hs => exact .channel hs
    | socket hs => exact .socket hs
    | itself k => exact .itself k
    | client hk hk' hc hm hp => exact .client hk hk' hc hm hp

/-- What is granted is a matter of outlines. -/
theorem Grants.congr {c' : Capability} (h : root.Grants c) (ho : c.outline = c'.outline) :
    root.Grants c' := by
  rw [← grants_outline, ← ho, grants_outline]
  exact h

/-- What is made of something that a root grants, the root grants. -/
theorem Grants.derive (h : root.Grants p) (hp : p.Sound) (hd : Derivation p c) :
    root.Grants c := by
  cases hd with
  | time hc =>
    cases h with
    | time hs => exact .time (hs.trans (hc.covers (hp _ rfl)))
  | @memory m m' _ _ ht hc _ ha =>
    cases h with
    | memory ht' hs ha' =>
      exact .memory (ht'.trans ht) (hs.trans (hc.covers (hp m.span rfl)))
        (Access.within_trans ha ha')
  | @region m r _ _ hlt hb hl ha =>
    cases h with
    | @memory n _ ht hs ha' =>
      -- a region is within the memory beyond the mark, and that is within the memory of the root
      obtain ⟨hn, hlimit⟩ := r.area_limit hlt
      have hmark : m.baseAddress ≤ m.markAddress :=
        MemoryRange.baseAddress_le_mark (hp m.span rfl)
      have hbase : n.baseAddress ≤ m.baseAddress := by
        simp only [MemoryRange.baseAddress, ht]
        exact blockAddress_le hs.1
      have hend : m.limitAddress ≤ n.limitAddress := by
        simp only [MemoryRange.limitAddress, ht]
        exact blockAddress_le hs.2
      exact .region hn (by omega) (by omega) (Access.within_trans ha ha')
  | monitor hc =>
    cases h with
    | monitor hs => exact .monitor (hs.trans (hc.covers (hp _ rfl)))
  | channel hc =>
    cases h with
    | channel hs => exact .channel (hs.trans (hc.covers (hp _ rfl)))
  | @server s k _ hf =>
    cases h with
    | channel hs =>
      obtain ⟨hb, hl⟩ := Span.Ordered.contains (hp s rfl) hf
      exact .socket ⟨BitVec.le_trans hs.1 hb, Nat.lt_of_lt_of_le hl hs.2⟩
  | client hk hk' hc hm hr =>
    cases h with
    | socket hs => exact .socket (hc ▸ hs)
    | itself => exact .client hk hk' hc hm hr
    | client _ hk'' => rw [hk] at hk''; cases hk'' -- a client makes no clients

/-- What a socket can have been made of: a server of a range with its channel, a client of its
server. -/
inductive MadeOf (k : Socket) : Capability → Prop
  | range {s : Span} : k.tag = 0 → s.Contains k.chan → MadeOf k (channel s)
  | server {k' : Socket} : k.tag ≠ 0 → k'.tag = 0 → k.chan = k'.chan → k.mode = k'.mode →
      k.permission = k'.permission → MadeOf k (socket k')

/-- A new socket comes from a range that contains its channel, or from the server of its channel. -/
theorem Derivation.madeOf {k : Socket} (hd : Derivation p (socket k)) (hp : p.Sound) :
    MadeOf k p := by
  cases hd with
  | @server s _ hk hf =>
    rw [Socket.isServer, beq_iff_eq] at hk
    exact .range hk (Span.Ordered.contains (hp s rfl) hf)
  | client hk hk' hc hm hr =>
    rw [Socket.isServer, beq_iff_eq] at hk
    rw [Socket.isServer, beq_eq_false_iff_ne] at hk'
    exact .server hk' hk hc.symm hm.symm hr.symm

end Capability
end SepKernel
