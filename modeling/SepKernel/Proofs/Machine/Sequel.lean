import SepKernel.Proofs.Machine.Operations
import SepKernel.Proofs.Machine.Revocation

/-!
# Operations are sequences of changes

On a machine whose table is lineal, every operation is a sequence of changes, whether it succeeds or
not.
-/

namespace SepKernel

open Relation (ReflTransGen)

variable {m m' : Machine}

/-- By induction on the changes. -/
theorem lineal_of_changes (hc : ReflTransGen Change m m') (hl : m.table.Lineal) :
    m'.table.Lineal := by
  induction hc with
  | refl => exact hl
  | tail _ hc ih => exact hc.lineal ih

/-- One machine comes out of another by changes, if the first has a lineal table. -/
def Sequel (m m' : Machine) : Prop :=
  m.table.Lineal → ReflTransGen Change m m'

instance : IsPreorder Machine Sequel where
  refl _ _ := .refl
  trans _ _ _ h h' hl := (h hl).trans (h' (lineal_of_changes (h hl) hl))

theorem Change.sequel (hc : Change m m') : Sequel m m' := fun _ => .single hc

theorem Quiet.sequel (hq : Quiet m m') : Sequel m m' := (Change.quiet hq).sequel

theorem acrossWork_sequel : AcrossWork Sequel :=
  ⟨fun hh => hh.toQuiet.sequel, fun hd => (Change.deed hd).sequel⟩

namespace Machine

/-- A revocation is a series of changes, whether it comes to its end or not. -/
theorem revokeCapability_sequel (h : Hart) (s : Slot) : (revokeCapability h s).Keeps Sequel := by
  intro m hl
  obtain ⟨_, he⟩ | ⟨hs, taken, rest, m₁, hd, ht, ⟨rfl, he⟩ | he⟩ := revokeCapability_cases hl h s
  · rw [he]
  · rw [he]
    obtain ⟨hn, hr⟩ := ht.ready_restore hl hs (by rw [hd, List.append_nil])
    exact .tail ht.changes (.restore hn hr)
  · rw [he]
    exact .tail ht.changes (.quiet ((note_aside fun _ => rfl).hushed m₁).toQuiet)

end Machine

/-- Every operation is a sequence of changes. -/
theorem Operation.perform_sequel (h : Hart) (op : Operation) : (op.perform h).Keeps Sequel := by
  refine op.perform_keeps acrossWork_sequel h ?_ ?_
  · exact fun s _ => Machine.revokeCapability_sequel h s
  · intro s hs m
    refine hs.perform_at (Machine.acrossWait_of_shifts acrossWork_sequel.shifts ?_ _ _ _) h
    exact fun k p b => (Machine.await_quiet k p b).mono Quiet.sequel

end SepKernel
