import SepKernel.Machine.Boot
import SepKernel.Proofs.Table.Edit

/-!
# Capabilities within the sizes of the tables

A capability contains numbers: of a hart, of slots of the frame, of a protection register, of
processes and channels. The kernel uses them to index its tables, and does not look again whether
they are in range. They are, because they were at boot, and a child does not name more than its
parent.
-/

namespace SepKernel

/-! ## Capabilities -/

/-- Does everything exist that a capability names? -/
def Capability.Sized : Capability → Prop
  | .time hart s => hart.toNat < hartCount ∧ s.limit.toNat ≤ frameSlots
  | .pmp r => r.loaded = true → r.slot.toNat < regionCount
  | .monitor s => s.limit.toNat ≤ processCount
  | .channel s => s.limit.toNat ≤ channelCount
  | .socket k => k.chan.toNat < channelCount
  | .null | .memory _ => True

namespace Capability

variable {p c c' : Capability}

theorem sized_null : null.Sized := trivial

/-- The bounds of a root are checked when it is installed. -/
theorem sized_of_isRoot (h : c.isRoot = true) : c.Sized := by
  cases c <;> simp only [isRoot, decide_eq_true_eq, Bool.not_eq_true'] at h
  case null => exact trivial
  case time => exact ⟨h.1, h.2.2⟩
  case memory => exact trivial
  case pmp r =>
    intro hl
    rw [h] at hl
    cases hl
  case monitor => exact h.2
  case channel => exact h.2
  case socket => exact h

/-- A child names nothing that its parent does not, or is not loaded yet. -/
theorem Derivation.sized (hd : Derivation p c) (hp : p.Sized) : c.Sized := by
  -- a part of a range lies within its bounds
  cases hd with
  | time hc => exact ⟨hp.1, Nat.le_trans hc.2 hp.2⟩
  | memory => exact trivial
  | region hl =>
    intro hl'
    rw [hl] at hl'
    cases hl'
  | monitor hc => exact Nat.le_trans hc.2 hp
  | channel hc => exact Nat.le_trans hc.2 hp
  | server _ hf => exact Nat.lt_of_lt_of_le hf.2 hp
  | client _ _ hk =>
    rw [Sized, ← hk]
    exact hp

/-! Deriving and taking back move the mark only. -/

@[simp] theorem sized_afterDeriving : (p.afterDeriving c).Sized ↔ p.Sized := by
  cases p <;> cases c <;> rfl

@[simp] theorem sized_afterReclaiming : (p.afterReclaiming c).Sized ↔ p.Sized := by
  cases p <;> cases c <;> simp only [afterReclaiming]
  case channel.socket => split <;> simp [Sized]
  all_goals simp [Sized]

@[simp] theorem sized_restored : p.restored.Sized ↔ p.Sized := by
  cases p <;> rfl

/-- A region that is loaded or unloaded keeps within its fields. -/
theorem Reseats.sized (h : Reseats c c') (hc : c.Sized) : c'.Sized := by
  cases h with
  | same => exact hc
  | region _ _ hl => exact hl

end Capability

/-! ## Tables -/

namespace Table

variable {t t' : Table} {s x : Slot} {c : Capability}

def Sized (t : Table) : Prop :=
  ∀ s, (t.get s).Sized

/-- A capability may be replaced by one that names what exists. -/
theorem Sized.set (h : t.Sized) (hc : c.Sized) : (t.set s c).Sized := by
  intro x
  rw [get_set]
  split
  · exact hc
  · exact h x

theorem Sized.unlink (h : t.Sized) (s : Slot) : (t.unlink s).Sized := by
  intro x
  rw [get_unlink]
  split
  · exact Capability.sized_null
  · exact h x

/-- Every edit keeps to what exists. Only a derivation brings something new, and that lies within
its parent. -/
theorem Edit.sized (he : t.Edit t') (hl : t.Lineal) (h : t.Sized) : t'.Sized := by
  cases he with
  | @move source target c hs ht hc =>
    intro x
    exact (hl.strung.reseats_relink ht hc x).sized (h _)
  | delete => exact h.unlink _
  | derive ht hd =>
    intro x
    rw [hl.get_derive ht hd]
    split
    · -- what is derived is within what it is derived from
      exact hd.sized (h _)
    · split
      · exact Capability.sized_afterDeriving.2 (h _)
      · exact h x
  | reseat _ hc => exact h.set (hc.sized (h _))
  | takeBack => exact (h.unlink _).set (Capability.sized_afterReclaiming.2 (h _))
  | restore => exact h.set (Capability.sized_restored.2 (h _))

end Table
end SepKernel
