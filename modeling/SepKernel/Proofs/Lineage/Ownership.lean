import SepKernel.Proofs.Lineage.Precedence

/-!
# Resources and their owners

A capability *spans* the resources of its whole range, and *owns* those of its free part. A server
socket spans and owns its channel. Regions and client sockets share what others own.

A child spans nothing that its parent does not, and of two capabilities in one line at most one owns
a resource.
-/

namespace SepKernel

/-- What capabilities hand out. -/
inductive Resource where
  /-- A time slot of a hart. -/
  | turn (hart : BitVec 8) (slot : BitVec 16)
  | address (a : Nat)
  | process (n : BitVec 16)
  | channel (n : BitVec 16)
  deriving DecidableEq

namespace Span

variable {s t : Span} {n : BitVec 16}

/-- What is free in a range is in the range. -/
theorem Ordered.contains (h : s.Ordered) (hn : s.Free n) : s.Contains n :=
  ⟨BitVec.le_trans h.1 hn.1, hn.2⟩

/-- A part contains no more than the whole. -/
theorem Carves.contains (h : s.Carves t) (hs : s.Ordered) (hn : t.Contains n) : s.Contains n := by
  obtain ⟨hb, hl⟩ := h.covers hs
  exact ⟨BitVec.le_trans hb hn.1, Nat.lt_of_lt_of_le hn.2 hl⟩

/-- No number is free in both. -/
theorem Above.not_both_free (h : s.Above t) (hs : s.Ordered) (hn : s.Free n) : ¬ t.Free n := by
  simp only [Above, Ordered, Free] at *
  bv_omega

end Span

namespace Capability

variable {x y p c : Capability} {r : Resource}

/-- Does the resource lie in the whole range of the capability? -/
def Spans : Capability → Resource → Prop
  | time h s, .turn h' n => h = h' ∧ s.Contains n
  | memory m, .address a => m.baseAddress ≤ a ∧ a < m.limitAddress
  | monitor s, .process n => s.Contains n
  | channel s, .channel n => s.Contains n
  | socket k, .channel n => k.isServer = true ∧ k.chan = n
  | _, _ => False

/-- Does the resource lie in the free part of the capability? -/
def Owns : Capability → Resource → Prop
  | time h s, .turn h' n => h = h' ∧ s.Free n
  | memory m, .address a => m.markAddress ≤ a ∧ a < m.limitAddress
  | monitor s, .process n => s.Free n
  | channel s, .channel n => s.Free n
  | socket k, .channel n => k.isServer = true ∧ k.chan = n
  | _, _ => False

theorem spans_address {m : MemoryRange} {a : Nat} :
    (memory m).Spans (.address a) ↔ m.baseAddress ≤ a ∧ a < m.limitAddress := Iff.rfl

theorem owns_address {m : MemoryRange} {a : Nat} :
    (memory m).Owns (.address a) ↔ m.markAddress ≤ a ∧ a < m.limitAddress := Iff.rfl

theorem spans_outline : c.outline.Spans r ↔ c.Spans r := by
  cases c <;> cases r <;> rfl

/-- Spanning looks at outlines only. -/
theorem spans_congr {c' : Capability} (h : c.outline = c'.outline) : c.Spans r ↔ c'.Spans r := by
  rw [← spans_outline, h, spans_outline]

theorem Spans.ne_null (h : c.Spans r) : c ≠ null := by
  rintro rfl
  cases r <;> exact h

/-- The free part of a sound range lies in the whole of it. -/
theorem Owns.spans (h : c.Owns r) (hc : c.Sound) : c.Spans r := by
  cases c with
  | null => cases r <;> exact h
  | pmp => cases r <;> exact h
  | socket => cases r <;> exact h
  | time =>
    cases r <;> try exact h
    exact ⟨h.1, (hc _ rfl).contains h.2⟩
  | memory m =>
    cases r
    case address =>
      -- addresses are those of whole pages, so the bounds are compared as numbers
      have hm := MemoryRange.baseAddress_le_mark (hc m.span rfl)
      rw [owns_address] at h
      rw [spans_address]
      exact ⟨Nat.le_trans hm h.1, h.2⟩
    all_goals exact h
  | monitor =>
    cases r <;> try exact h
    exact (hc _ rfl).contains h
  | channel =>
    cases r <;> try exact h
    exact (hc _ rfl).contains h

/-- A child spans nothing that its parent does not. -/
theorem Derivation.spans (hd : Derivation p c) (hp : p.Sound) (h : c.Spans r) : p.Spans r := by
  cases hd with
  | time hc =>
    cases r <;> try exact h
    exact ⟨h.1, hc.contains (hp _ rfl) h.2⟩
  | @memory m m' _ _ ht hc =>
    obtain ⟨hb, hl⟩ := hc.covers (hp m.span rfl)
    have hb' : m.baseAddress ≤ m'.baseAddress := by
      simp only [MemoryRange.baseAddress, ht]
      exact blockAddress_le hb
    have hl' : m'.limitAddress ≤ m.limitAddress := by
      simp only [MemoryRange.limitAddress, ht]
      exact blockAddress_le hl
    cases r
    case address =>
      rw [spans_address] at *
      exact ⟨Nat.le_trans hb' h.1, Nat.lt_of_lt_of_le h.2 hl'⟩
    all_goals exact h
  | region => cases r <;> exact h.elim -- a region spans nothing itself
  | monitor hc =>
    cases r <;> try exact h
    exact hc.contains (hp _ rfl) h
  | channel hc =>
    cases r <;> try exact h
    exact hc.contains (hp _ rfl) h
  | server _ hf =>
    cases r <;> try exact h.elim
    exact h.2 ▸ (hp _ rfl).contains hf
  | client _ hk' =>
    cases r <;> try exact h.elim
    exact absurd h.1 (by simp [hk']) -- clients own no channel

/-- A property that a capability has whatever it has handed out, and whatever its register, and that
a child has only if its parent has it. -/
structure Heritable (P : Capability → Prop) : Prop where
  ne_null : ∀ {c}, P c → c ≠ null
  outline : ∀ {c}, P c.outline ↔ P c
  parent : ∀ {p c}, Derivation p c → p.Sound → P c → P p

/-- Heritable properties look at outlines only. -/
theorem Heritable.congr {P : Capability → Prop} (hP : Heritable P) {c c' : Capability}
    (h : c.outline = c'.outline) : P c ↔ P c' := by
  rw [← hP.outline, h, hP.outline]

/-- Whatever a child spans, its parent has spanned. -/
theorem heritable_spans (r : Resource) : Heritable (·.Spans r) :=
  ⟨Spans.ne_null, spans_outline, Derivation.spans⟩

/-- Of two capabilities in one line, at most one owns a resource. -/
theorem Precedes.not_both_own (h : Precedes x y) (hx : x.Sound) (hy : y.Sound) (ho : x.Owns r) :
    ¬ y.Owns r := by
  intro ho'
  cases h with
  | time ha =>
    cases r <;> try exact ho
    exact ha.not_both_free (hx _ rfl) ho.2 ho'.2
  | @memory m n ht ha =>
    cases r <;> try exact ho
    rw [owns_address] at ho ho'
    have hn := MemoryRange.markAddress_le_limit (hy n.span rfl)
    -- the second was handed out of the first, below its mark, or lies below all of it
    rcases ha.2 with ⟨_, hl⟩ | hl
    · have hnm : n.limitAddress ≤ m.markAddress := by
        simp only [MemoryRange.limitAddress, MemoryRange.markAddress, ht]
        exact blockAddress_le hl
      omega
    · have hnm := MemoryRange.limitAddress_le_base ht hl
      have hm := MemoryRange.baseAddress_le_mark (hx m.span rfl)
      omega
  | monitor ha =>
    cases r <;> try exact ho
    exact ha.not_both_free (hx _ rfl) ho ho'
  | channel ha =>
    cases r <;> try exact ho
    exact ha.not_both_free (hx _ rfl) ho ho'
  | @ends s k _ _ hk =>
    cases r <;> try exact ho
    obtain ⟨hs, rfl⟩ := ho'
    exact absurd (hk hs) (by have := ho.1; bv_omega)
  | @range k s hl =>
    cases r <;> try exact ho
    obtain ⟨hs, rfl⟩ := ho
    have := ho'.2
    bv_omega
  | @sockets k k' _ hk =>
    cases r <;> try exact ho
    obtain ⟨hs, rfl⟩ := ho
    have := hk ho'.1
    have := ho'.2
    bv_omega
  | region => cases r <;> exact ho'
  | beneath => cases r <;> exact ho
  | regions => cases r <;> exact ho

end Capability
end SepKernel
