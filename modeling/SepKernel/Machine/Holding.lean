import SepKernel.Machine.Basic

/-!
# What holding a capability brings with it

Some capabilities have effects outside the capability table while they are held: the free part of a
time capability is in the schedule, a loaded region is in a protection register, and who waits on a
channel holds a socket of it. These are the actions that keep the rest of the kernel in step when a
capability is gained, moved to another process, or lost.
-/

namespace SepKernel
namespace Machine

/-! ## Time -/

/-- Let a process run on a hart in the slots from `first` up to `last`, in a run up to `limit`. -/
def assignTime (p : Pid) (hart : BitVec 8) (first last limit : BitVec 16) : Action Unit := do
  note (.assigned p limit.toNat hart.toNat first.toNat last.toNat)
  expect .schedule (decide (first ≤ last ∧ last ≤ limit ∧ limit.toNat ≤ frameSlots))
  match index? 4 hart.toNat with
  | some h => modifySchedule (·.assign h p first.toNat last.toNat limit.toNat)
  | none => expect .schedule false

/-- Let nobody run on a hart in the slots from `first` up to `last`. -/
def clearTime (hart : BitVec 8) (first last : BitVec 16) : Action Unit := do
  note (.cleared hart.toNat first.toNat last.toNat)
  expect .schedule (decide (first ≤ last ∧ last.toNat ≤ frameSlots))
  match index? 4 hart.toNat with
  | some h => modifySchedule (·.clear h first.toNat last.toNat)
  | none => expect .schedule false

/-! ## Regions -/

def freeRegister (p : Pid) (slot : BitVec 8) : Action Unit :=
  match index? 8 slot.toNat with
  | some k => modifyProcess p fun q => { q with bank := q.bank.unload k }
  | none => expect .region false

/-! ## Sockets -/

def clearChannel (s : Socket) (owner : Pid) : Action Unit := do
  expect .channel (decide (s.chan.toNat < channelCount))
  modifyRegistry (·.clear s owner)

/-! ## Capabilities of any kind -/

/-- Take up what comes with a new capability of a process. -/
def takeUp (p : Pid) : Capability → Action Unit
  | .time hart s => assignTime p hart s.mark s.limit s.limit
  | _ => pure ()

def giveUp (p : Pid) : Capability → Action Unit
  | .time hart s => clearTime hart s.mark s.limit
  | .pmp r => if r.loaded then freeRegister p r.slot else pure ()
  | .socket s => clearChannel s p
  | _ => pure ()

/-- Hand what comes with a capability from one process to another. A region is unloaded on the
way. -/
def handOver (p q : Pid) : Capability → Action Capability
  | .time hart s => do
    assignTime q hart s.mark s.limit s.limit
    return .time hart s
  | .pmp r =>
    if r.loaded then do
      freeRegister p r.slot
      return .pmp { r with loaded := false, slot := 0 }
    else
      return .pmp r
  | .socket s => do
    clearChannel s p
    return .socket s
  | c => return c

end Machine
end SepKernel
