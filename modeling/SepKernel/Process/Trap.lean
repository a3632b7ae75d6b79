import SepKernel.Process.Register

/-!
# Exceptions

An exception of a process is handed back to the process: the kernel notes where and why it struck,
and sends the process to its own handler. The handler returns by an instruction that a user
program may not execute, so that the return is an exception as well, and the kernel undoes the
first one.
-/

namespace SepKernel

inductive Cause where
  | instructionAddressMisaligned
  | instructionAccessFault
  | illegalInstruction
  | breakpoint
  | loadAddressMisaligned
  | loadAccessFault
  | storeAddressMisaligned
  | storeAccessFault
  | userCall
  | supervisorCall
  | machineCall
  | instructionPageFault
  | loadPageFault
  | storePageFault
  | other
  deriving DecidableEq, Repr

namespace Cause

/-- The causes that have a number of their own. -/
def all : List Cause :=
  [instructionAddressMisaligned, instructionAccessFault, illegalInstruction, breakpoint,
    loadAddressMisaligned, loadAccessFault, storeAddressMisaligned, storeAccessFault, userCall,
    supervisorCall, machineCall, instructionPageFault, loadPageFault, storePageFault]

def number : Cause → Word
  | instructionAddressMisaligned => 0
  | instructionAccessFault => 1
  | illegalInstruction => 2
  | breakpoint => 3
  | loadAddressMisaligned => 4
  | loadAccessFault => 5
  | storeAddressMisaligned => 6
  | storeAccessFault => 7
  | userCall => 8
  | supervisorCall => 9
  | machineCall => 11
  | instructionPageFault => 12
  | loadPageFault => 13
  | storePageFault => 15
  | other => .allOnes 64

def ofNumber (w : Word) : Cause :=
  (all.find? (·.number == w)).getD other

theorem ofNumber_number (c : Cause) : ofNumber c.number = c := by
  cases c <;> rfl

def name : Cause → String
  | instructionAddressMisaligned => "InstructionAddressMisaligned"
  | instructionAccessFault => "InstructionAccessFault"
  | illegalInstruction => "IllegalInstruction"
  | breakpoint => "Breakpoint"
  | loadAddressMisaligned => "LoadAddressMisaligned"
  | loadAccessFault => "LoadAccessFault"
  | storeAddressMisaligned => "StoreAddressMisaligned"
  | storeAccessFault => "StoreAccessFault"
  | userCall => "EcallU"
  | supervisorCall => "EcallS"
  | machineCall => "EcallM"
  | instructionPageFault => "InstructionPageFault"
  | loadPageFault => "LoadPageFault"
  | storePageFault => "StorePageFault"
  | other => "Other"

end Cause

/-- An exception: the number of its cause, and the value that comes with it. -/
structure Trap where
  cause : Word
  value : Word
  deriving DecidableEq, Repr

namespace Trap

/-- The instructions that return from a handler, from each of the three levels. -/
def returns : List Word := [0x30200073, 0x10200073, 0x00200073]

/-- Is the exception a handler that returns? The value is then the instruction. -/
def isReturn (t : Trap) : Bool :=
  Cause.ofNumber t.cause == .illegalInstruction && returns.contains t.value

end Trap

namespace Registers

/-- Send the process to its handler, and note what happened. -/
def enterHandler (rs : Registers) (t : Trap) : Registers :=
  rs.setAll [(.ecause, t.cause), (.eval, t.value), (.epc, rs.get .pc), (.esp, rs.get .sp),
    (.pc, rs.get .tpc), (.sp, rs.get .tsp)]

/-- Go back to where the last exception struck, and forget it. -/
def leaveHandler (rs : Registers) : Registers :=
  rs.setAll [(.pc, rs.get .epc), (.sp, rs.get .esp), (.ecause, 0), (.eval, 0), (.epc, 0), (.esp, 0)]

def deliver (rs : Registers) (t : Trap) : Registers :=
  if t.isReturn then rs.leaveHandler else rs.enterHandler t

end Registers

end SepKernel
