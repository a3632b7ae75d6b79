import SepKernel.Config

/-!
# Reasons for refusal

Every operation of the kernel either succeeds or names one of eighteen reasons. A reason has a
number, which the system call interface stores for the caller, and a text for the journal. The
number zero is kept for success.
-/

namespace SepKernel

inductive Error where
  /-- The slot holds no capability. -/
  | empty
  /-- The slot to move or derive from holds no capability. -/
  | srcEmpty
  /-- The slot to move, derive, send or load into is taken. -/
  | dstOccupied
  /-- The child cannot be derived from its parent. -/
  | invalidDerivation
  /-- A capability slot number is out of range. -/
  | invalidIndex
  /-- The monitor capability is missing or does not cover the process. -/
  | invalidMonitor
  /-- A process number is out of range. -/
  | invalidPid
  /-- The capability is no protection region, or is loaded when it must not be, or the reverse. -/
  | invalidPmp
  /-- A protection register number is out of range. -/
  | invalidSlot
  /-- The capability is no socket, or the socket lacks the permission or the role. -/
  | invalidSocket
  /-- The process is not in the state that the operation needs. -/
  | invalidState
  /-- There is no system call of that number. -/
  | invalidSyscall
  /-- A register number is out of range. -/
  | invalidRegister
  /-- The capability has the wrong kind or shape. -/
  | invalidCapability
  /-- Nobody waits at the other end of the channel. -/
  | noReceiver
  /-- The operation stopped early and is to be repeated. -/
  | preempted
  /-- The peer or the caller is suspended. -/
  | suspended
  /-- A wait ran past its deadline. -/
  | timeout
  deriving DecidableEq, Repr

namespace Error

def all : List Error :=
  [empty, srcEmpty, dstOccupied, invalidDerivation, invalidIndex, invalidMonitor, invalidPid,
    invalidPmp, invalidSlot, invalidSocket, invalidState, invalidSyscall, invalidRegister,
    invalidCapability, noReceiver, preempted, suspended, timeout]

def code : Error → Nat
  | empty => 1
  | srcEmpty => 2
  | dstOccupied => 3
  | invalidDerivation => 4
  | invalidIndex => 5
  | invalidMonitor => 6
  | invalidPid => 7
  | invalidPmp => 8
  | invalidSlot => 9
  | invalidSocket => 10
  | invalidState => 11
  | invalidSyscall => 12
  | invalidRegister => 13
  | invalidCapability => 14
  | noReceiver => 15
  | preempted => 16
  | suspended => 17
  | timeout => 18

def ofCode? (code : Nat) : Option Error :=
  all.find? (·.code == code)

theorem ofCode?_code (e : Error) : ofCode? e.code = some e := by
  cases e <;> rfl

def word (e : Error) : Word := BitVec.ofNat 64 e.code

def message : Error → String
  | empty => "capability slot is empty"
  | srcEmpty => "source slot is empty"
  | dstOccupied => "destination slot is occupied"
  | invalidDerivation => "invalid derivation"
  | invalidIndex => "invalid capability index"
  | invalidMonitor => "invalid monitor capability"
  | invalidPid => "invalid process id"
  | invalidPmp => "invalid pmp capability"
  | invalidSlot => "invalid pmp slot"
  | invalidSocket => "invalid socket"
  | invalidState => "invalid process state"
  | invalidSyscall => "invalid system call"
  | invalidRegister => "invalid register"
  | invalidCapability => "invalid capability type"
  | noReceiver => "no receiver"
  | preempted => "preempted"
  | suspended => "suspended"
  | timeout => "timeout"

end Error

/-- The number that reports a result: zero for success, else the number of the reason. -/
def codeOf : Except Error Unit → Nat
  | .ok _ => 0
  | .error e => e.code

end SepKernel
