import SepKernel.Capability.Basic
import SepKernel.Process.Register
import SepKernel.Table.Slot

/-!
# System calls

What a process can ask of the kernel. The arguments are in range by their types: a position is one
of the slots of the caller unless a process goes with it.
-/

namespace SepKernel

structure Message where
  /-- The position of the slot of the sender that the capability leaves, and into which the
  capability of an answer comes. -/
  buffer : Nat
  /-- Does a capability go with the message? -/
  sendCap : Bool
  data : Vector Word 4
  deriving DecidableEq, Repr

inductive Info where
  | pid
  | time
  | deadline
  deriving DecidableEq, Repr

/-- A call that concerns its caller alone. It runs without the kernel lock. -/
inductive OwnCall where
  | getInfo (info : Info)
  | readRegister (register : Register)
  | writeRegister (register : Register) (value : Word)
  /-- Refresh the protection registers; if `full`, also end the run. -/
  | sync (full : Bool)
  | sleep (time : Nat)
  deriving DecidableEq, Repr

/-- A call on what processes share: capabilities, channels, and other processes. It runs under the
kernel lock. -/
inductive SharedCall where
  | capRead (index : SlotIndex)
  | capMove (source target : SlotIndex)
  | capDelete (index : SlotIndex)
  | capRevoke (index : SlotIndex)
  | capDerive (source target : SlotIndex) (child : Capability)
  | pmpLoad (index : SlotIndex) (region : RegionIndex)
  | pmpUnload (index : SlotIndex)
  | monSuspend (monitor : SlotIndex) (pid : Pid)
  | monResume (monitor : SlotIndex) (pid : Pid)
  | monState (monitor : SlotIndex) (pid : Pid)
  | monYield (monitor : SlotIndex) (pid : Pid)
  | monReadRegister (monitor : SlotIndex) (pid : Pid) (register : Register)
  | monWriteRegister (monitor : SlotIndex) (pid : Pid) (register : Register) (value : Word)
  | monCapRead (monitor : SlotIndex) (pid : Pid) (index : SlotIndex)
  | monCapMove (monitor : SlotIndex) (source target : Slot)
  | monPmpLoad (monitor : SlotIndex) (pid : Pid) (index : SlotIndex) (region : RegionIndex)
  | monPmpUnload (monitor : SlotIndex) (pid : Pid) (index : SlotIndex)
  | sockSend (socket : SlotIndex) (message : Message)
  | sockRecv (socket : SlotIndex) (buffer : SlotIndex)
  | sockSendRecv (socket : SlotIndex) (message : Message)
  deriving DecidableEq, Repr

inductive Syscall where
  | own (call : OwnCall)
  | shared (call : SharedCall)
  deriving DecidableEq, Repr

def Syscall.isLockFree : Syscall → Bool
  | own _ => true
  | shared _ => false

end SepKernel
