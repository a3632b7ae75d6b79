import SepKernel.Machine.Rendezvous
import SepKernel.Machine.Revocation

/-!
# Operations under the kernel lock

Everything that a hart can do to capabilities, channels and other processes on behalf of the process
that owns the slot, as a value. A history of the kernel is a list of operations.
-/

namespace SepKernel

/-- An operation under the kernel lock. -/
inductive Operation where
  | capRead (s : Slot)
  | capMove (source target : Slot)
  | capDelete (s : Slot)
  | capDerive (source target : Slot) (child : Capability)
  | capRevoke (s : Slot)
  | pmpLoad (s : Slot) (register : Nat)
  | pmpUnload (s : Slot)
  | monSuspend (monitor : Slot) (p : Pid)
  | monResume (monitor : Slot) (p : Pid)
  | monState (monitor : Slot) (p : Pid)
  | monYield (monitor : Slot) (p : Pid)
  | monReadRegister (monitor : Slot) (p : Pid) (r : Register)
  | monWriteRegister (monitor : Slot) (p : Pid) (r : Register) (w : Word)
  | monCapRead (monitor : Slot) (p : Pid) (index : Nat)
  | monCapMove (monitor source target : Slot)
  | monPmpLoad (monitor : Slot) (p : Pid) (index register : Nat)
  | monPmpUnload (monitor : Slot) (p : Pid) (index : Nat)
  | send (s : Slot) (m : Message)
  | reply (s : Slot) (m : Message)
  | receive (s : Slot) (buffer : Nat)
  | call (s : Slot) (m : Message)
  | replyReceive (s : Slot) (m : Message)
  | sendReceive (s : Slot) (m : Message)
  deriving DecidableEq, Repr

namespace Operation

inductive Answer where
  | done
  | word (w : Word)
  | capability (c : Capability)
  | next (n : Next)
  deriving DecidableEq, Repr

open Machine

def perform (h : Hart) : Operation → Attempt Answer
  | capRead s => return .capability (← readCapability s)
  | capMove s t => do moveCapability s t; return .done
  | capDelete s => do deleteCapability s; return .done
  | capDerive s t c => do deriveCapability s t c; return .done
  | capRevoke s => do revokeCapability h s; return .done
  | pmpLoad s k => do loadRegion s k; return .done
  | pmpUnload s => do unloadRegion s; return .done
  | monSuspend m p => do suspendProcess m p; return .done
  | monResume m p => do resumeProcess m p; return .done
  | monState m p => return .word (← processStatus m p).word
  | monYield m p => return .next (← yieldTo m p)
  | monReadRegister m p r => return .word (← readRegister m p r)
  | monWriteRegister m p r w => do writeRegister m p r w; return .done
  | monCapRead m p i => return .capability (← readCapabilityOf m p i)
  | monCapMove m s t => do moveCapabilityOf m s t; return .done
  | monPmpLoad m p i k => do loadRegionOf m p i k; return .done
  | monPmpUnload m p i => do unloadRegionOf m p i; return .done
  | send s m => return .next (← Machine.send h s m)
  | reply s m => return .next (← Machine.reply h s m)
  | receive s b => return .next (← Machine.receive s b)
  | call s m => return .next (← Machine.call h s m)
  | replyReceive s m => return .next (← Machine.replyReceive h s m)
  | sendReceive s m => return .next (← Machine.sendReceive h s m)

/-- Take the kernel lock for a hart and carry out an operation. -/
def run (h : Hart) (op : Operation) : Attempt Answer := do
  lock h
  op.perform h

end Operation
end SepKernel
