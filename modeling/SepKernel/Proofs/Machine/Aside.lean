import SepKernel.Proofs.Lineage.Genealogy
import SepKernel.Proofs.Machine.Execution
import SepKernel.Proofs.Table.Size

/-!
# Asides

What the kernel does before it decides to change something is an *aside*: it looks things up, and
may write notes into the journal. Every check of an operation is one, whether it passes or not. The
checks expect that what a capability names exists, and note a fault only if it does not.
-/

namespace SepKernel

/-- Nothing but notes, and none of them about a capability. -/
structure Aside (m m' : Machine) : Prop where
  kernel : m'.toKernel = m.toKernel
  board : m'.board = m.board
  lockHolder : m'.lockHolder = m.lockHolder
  genealogy : m'.genealogy = m.genealogy
  faults : m.table.Sized → m'.faults = m.faults

theorem Aside.sized {m m' : Machine} (h : Aside m m') (hm : m.table.Sized) : m'.table.Sized := by
  rwa [h.kernel]

instance : IsPreorder Machine Aside where
  refl _ := ⟨rfl, rfl, rfl, rfl, fun _ => rfl⟩
  trans _ _ _ h h' := ⟨h'.kernel.trans h.kernel, h'.board.trans h.board,
    h'.lockHolder.trans h.lockHolder, h'.genealogy.trans h.genealogy,
    fun hm => (h'.faults (h.sized hm)).trans (h.faults hm)⟩

namespace Machine

open Action.Keeps

/-! ## Notes -/

theorem note_aside {e : Event} (he : e.IsAside) : (note e).Keeps Aside :=
  modify fun _ => ⟨rfl, rfl, rfl, (genealogy_push _ rfl).trans (he _), fun _ => rfl⟩

/-- What is noted if a condition does not hold changes nothing but the list of faults. -/
theorem expect_keeps {R : Machine → Machine → Prop} (hR : ∀ m faults, R m { m with faults })
    (f : Fault) (b : Bool) : (expect f b).Keeps R := by
  refine modify fun m => ?_
  split
  · exact hR m m.faults
  · exact hR m _

/-- An expectation that holds of all sized tables is an aside. -/
theorem expect_aside {m : Machine} (f : Fault) {b : Bool} (hb : m.table.Sized → b = true) :
    Aside m ((expect f b).exec m).2 := by
  refine expect_keeps (R := fun m m' => (m.table.Sized → m'.faults = m.faults) → Aside m m')
    (fun _ _ hf => ⟨rfl, rfl, rfl, rfl, hf⟩) f b m fun hm => ?_
  rw [hb hm]
  rfl

/-! ## Checks on capabilities -/

theorem capability_aside (s : Slot) : (capability s).Keeps Aside := map _ get

theorem process_aside (p : Pid) : (process p).Keeps Aside := map _ get

theorem readCapability_exec (s : Slot) (m : Machine) :
    (readCapability s).exec m = (m.table.read s, m) := rfl

theorem readCapability_aside (s : Slot) : (readCapability s).Keeps Aside :=
  .bind .get fun _ => .except _

/-- Checks look, and note at most why they were not passed. -/
theorem requireSource_aside (s : Slot) : (requireSource s).Keeps Aside := by
  unfold requireSource
  refine .bind (.lift (capability_aside s)) fun c => ?_
  split
  · exact .throw _
  · exact .pure _

theorem requireVacant_aside (s : Slot) : (requireVacant s).Keeps Aside := by
  unfold requireVacant
  refine .bind (.lift (capability_aside s)) fun c => ?_
  split
  · exact .throw _
  · exact .pure _

theorem requireRegion_aside (s : Slot) (b : Bool) : (requireRegion s b).Keeps Aside := by
  unfold requireRegion
  refine .bind (readCapability_aside s) fun c => ?_
  split
  · split
    · exact .pure _
    · exact .throw _
  · exact .throw _

/-! ## Monitors -/

theorem requireControl_aside (monitor : Slot) (p : Pid) :
    (requireControl monitor p).Keeps Aside := by
  unfold requireControl
  refine .bind (.lift (capability_aside monitor)) fun c => ?_
  split
  · exact .bind (.lift (note_aside fun _ => rfl)) fun _ => .throw _
  · exact .pure _

theorem requireStopped_aside (monitor : Slot) (p : Pid) :
    (requireStopped monitor p).Keeps Aside := by
  unfold requireStopped
  refine .bind (requireControl_aside monitor p) fun _ => .bind (.lift (process_aside p)) fun q => ?_
  split
  · exact .throw _
  · exact .pure _

theorem slotAt_aside (p : Pid) (index : Nat) : (slotAt p index).Keeps Aside := by
  unfold slotAt
  split
  · exact .pure _
  · exact .throw _

theorem processStatus_aside (monitor : Slot) (p : Pid) :
    (processStatus monitor p).Keeps Aside :=
  .bind (requireControl_aside monitor p) fun _ => .map _ (.lift (process_aside p))

theorem readRegister_aside (monitor : Slot) (p : Pid) (r : Register) :
    (readRegister monitor p r).Keeps Aside :=
  .bind (requireStopped_aside monitor p) fun _ => .map _ (.lift (process_aside p))

theorem readCapabilityOf_aside (monitor : Slot) (p : Pid) (index : Nat) :
    (readCapabilityOf monitor p index).Keeps Aside :=
  .bind (requireStopped_aside monitor p) fun _ =>
    .bind (slotAt_aside p index) fun s => readCapability_aside s

/-! ## Messages -/

theorem requireSocket_aside (s : Slot) : (requireSocket s).Keeps Aside := by
  unfold requireSocket
  refine .bind (readCapability_aside s) fun c => ?_
  split
  · exact .pure _
  · exact .throw _

theorem requireRole_aside (s : Slot) (r : Role) : (requireRole s r).Keeps Aside := by
  unfold requireRole
  refine .bind (requireSocket_aside s) fun k => ?_
  split
  · exact .throw _
  · exact .pure _

theorem requireGoing_aside (p : Pid) : (requireGoing p).Keeps Aside := by
  unfold requireGoing
  refine .bind (.lift (process_aside p)) fun q => ?_
  split
  · exact .throw _
  · exact .pure _

theorem requireSendable_aside (k : Socket) (m : Message) : (requireSendable k m).Keeps Aside := by
  unfold requireSendable
  split
  · exact .throw _
  · exact .pure _

theorem requireBuffer_aside (k : Socket) (m : Message) (buffer : Slot) :
    (requireBuffer k m buffer).Keeps Aside := by
  unfold requireBuffer
  split
  · exact requireVacant_aside buffer
  · exact .pure _

/-- What is to be shipped is only looked at. -/
theorem requireFreight_aside (m : Message) (source target : Slot) :
    (requireFreight m source target).Keeps Aside := by
  unfold requireFreight
  split
  · exact .bind (requireSource_aside source) fun _ =>
      .bind (requireVacant_aside target) fun _ => .pure _
  · exact .pure _

/-- Preparing a message for a socket of the table is checking whether it can be delivered. -/
theorem prepare_aside {m : Machine} {s : Slot} {k : Socket} (hk : m.table.get s = .socket k)
    (h : Hart) (sender : Pid) (msg : Message) (buffer : Slot) :
    Aside m ((prepare h sender k msg buffer).exec m).2 := by
  unfold prepare
  refine Attempt.Keeps.bind_from (requireSendable_aside k msg m) fun _ m₁ h₁ => ?_
  have ha := requireSendable_aside k msg m
  rw [h₁] at ha
  refine Attempt.Keeps.bind_from (requireGoing_aside sender m₁) fun _ m₂ h₂ => ?_
  have hb := requireGoing_aside sender m₁
  rw [h₂] at hb
  -- the channel of a socket exists if the table is sized
  have hchan : m₂.table.Sized → k.chan.toNat < channelCount := by
    intro hm
    have hs := hm s
    rwa [hb.kernel, ha.kernel, hk] at hs
  refine Attempt.Keeps.bind_at (expect_aside .channel fun hm => decide_eq_true (hchan hm)) ?_
  intro _
  refine .bind .get fun _ => ?_
  split
  · refine .guarded (requireGoing_aside _) fun _ => .bind (requireFreight_aside _ _ _) fun _ => ?_
    · refine .bind .get fun _ => .bind (.lift (process_aside _)) fun _ => ?_
      split
      · exact .pure _
      · exact .bind (.lift (note_aside fun _ => rfl)) fun _ => .throw _
  · exact .throw _

end Machine
end SepKernel
