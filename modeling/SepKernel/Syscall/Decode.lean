import SepKernel.Capability.Word
import SepKernel.Error
import SepKernel.Syscall.Basic

/-!
# Reading system calls

A process puts the number of a call into `t0` and the arguments into `a0` to `a7`. Reading checks
each argument that the call uses, in the order in which they are listed, and refuses the call for
the first that is out of range. Arguments that the call does not use are not looked at.
-/

namespace SepKernel
namespace Syscall

/-! ## Arguments -/

def slotIndex (w : Word) : Except Error SlotIndex :=
  (index? 32 w.toNat).elim (throw .invalidIndex) pure

def pid (w : Word) : Except Error Pid :=
  (index? 8 w.toNat).elim (throw .invalidPid) pure

def register (w : Word) : Except Error Register :=
  (Register.ofNumber? w.toNat).elim (throw .invalidRegister) pure

def region (w : Word) : Except Error RegionIndex :=
  (index? 8 w.toNat).elim (throw .invalidSlot) pure

def info (w : Word) : Except Error Info :=
  match w.toNat with
  | 0 => pure .pid
  | 1 => pure .time
  | 2 => pure .deadline
  | _ => throw .invalidSyscall

def child (w : Word) : Except Error Capability :=
  (Capability.ofWord? w).elim (throw .invalidDerivation) pure

/-- A flag, set by any word but zero. -/
def flag (w : Word) : Bool := w != 0

/-- A message, from the second argument on: the buffer, whether a capability goes along, the data.
-/
def message (a : Vector Word 8) : Except Error Message := do
  let buffer ← slotIndex a[1]
  pure ⟨buffer, flag a[2], #v[a[3], a[4], a[5], a[6]]⟩

/-! ## Calls -/

def decode (call : Word) (a : Vector Word 8) : Except Error Syscall :=
  let own (c : Except Error OwnCall) := c.map .own
  let shared (c : Except Error SharedCall) := c.map .shared
  match call.toNat with
  | 0 => own do return .getInfo (← info a[0])
  | 1 => own do return .readRegister (← register a[0])
  | 2 => own do return .writeRegister (← register a[0]) a[1]
  | 3 => own do return .sync (flag a[0])
  | 4 => own do return .sleep a[0].toNat
  | 5 => shared do return .capRead (← slotIndex a[0])
  | 6 => shared do return .capMove (← slotIndex a[0]) (← slotIndex a[1])
  | 7 => shared do return .capDelete (← slotIndex a[0])
  | 8 => shared do return .capRevoke (← slotIndex a[0])
  | 9 => shared do return .capDerive (← slotIndex a[0]) (← slotIndex a[1]) (← child a[2])
  | 10 => shared do return .pmpLoad (← slotIndex a[0]) (← region a[1])
  | 11 => shared do return .pmpUnload (← slotIndex a[0])
  | 12 => shared do return .monSuspend (← slotIndex a[0]) (← pid a[1])
  | 13 => shared do return .monResume (← slotIndex a[0]) (← pid a[1])
  | 14 => shared do return .monState (← slotIndex a[0]) (← pid a[1])
  | 15 => shared do return .monYield (← slotIndex a[0]) (← pid a[1])
  | 16 => shared do return .monReadRegister (← slotIndex a[0]) (← pid a[1]) (← register a[2])
  | 17 => shared do return .monWriteRegister (← slotIndex a[0]) (← pid a[1]) (← register a[2]) a[3]
  | 18 => shared do return .monCapRead (← slotIndex a[0]) (← pid a[1]) (← slotIndex a[2])
  | 19 =>
    shared do
      return .monCapMove (← slotIndex a[0]) ⟨← pid a[1], ← slotIndex a[2]⟩
        ⟨← pid a[3], ← slotIndex a[4]⟩
  | 20 =>
    shared do
      return .monPmpLoad (← slotIndex a[0]) (← pid a[1]) (← slotIndex a[2]) (← region a[3])
  | 21 => shared do return .monPmpUnload (← slotIndex a[0]) (← pid a[1]) (← slotIndex a[2])
  | 22 => shared do return .sockSend (← slotIndex a[0]) (← message a)
  | 23 => shared do return .sockRecv (← slotIndex a[0]) (← slotIndex a[1])
  | 24 => shared do return .sockSendRecv (← slotIndex a[0]) (← message a)
  | _ => throw .invalidSyscall

example : decode 6 #v[1, 2, 99, 99, 99, 99, 99, 99] = .ok (.shared (.capMove 1 2)) := by rfl
example : decode 9 #v[32, 99, 7, 0, 0, 0, 0, 0] = .error .invalidIndex := by rfl
example : decode 25 #v[0, 0, 0, 0, 0, 0, 0, 0] = .error .invalidSyscall := by rfl

end Syscall
end SepKernel
