import SepKernel.Machine.Dispatch
import SepKernel.Machine.Operation
import SepKernel.Syscall.Decode

/-!
# System calls

The running process traps with the number of a call in `t0` and its arguments in `a0` to `a7`. It
finds zero or the number of a reason in `t0`, and in `a0` the value of a call that has one. A
process that blocks finds what the end of its wait left there.

The caller keeps the hart unless the call ends its run, hands the hart on, or is interrupted.
-/

namespace SepKernel

/-- What a call that was not refused leaves to be done. -/
inductive Outcome where
  /-- The caller goes on. -/
  | done
  /-- The caller goes on with a value. -/
  | value (w : Word)
  /-- The hart looks for a process. -/
  | schedule
  /-- The hart is handed on. -/
  | next (n : Next)
  deriving DecidableEq, Repr

def Operation.Answer.outcome : Operation.Answer → Outcome
  | done => .done
  | word w => .value w
  | capability c => .value c.toWord
  | next n => .next n

/-- The operation that a call of a process stands for. -/
def SharedCall.operation (p : Pid) : SharedCall → Operation
  | capRead i => .capRead ⟨p, i⟩
  | capMove i j => .capMove ⟨p, i⟩ ⟨p, j⟩
  | capDelete i => .capDelete ⟨p, i⟩
  | capRevoke i => .capRevoke ⟨p, i⟩
  | capDerive i j c => .capDerive ⟨p, i⟩ ⟨p, j⟩ c
  | pmpLoad i k => .pmpLoad ⟨p, i⟩ k
  | pmpUnload i => .pmpUnload ⟨p, i⟩
  | monSuspend m q => .monSuspend ⟨p, m⟩ q
  | monResume m q => .monResume ⟨p, m⟩ q
  | monState m q => .monState ⟨p, m⟩ q
  | monYield m q => .monYield ⟨p, m⟩ q
  | monReadRegister m q r => .monReadRegister ⟨p, m⟩ q r
  | monWriteRegister m q r w => .monWriteRegister ⟨p, m⟩ q r w
  | monCapRead m q i => .monCapRead ⟨p, m⟩ q i
  | monCapMove m s t => .monCapMove ⟨p, m⟩ s t
  | monPmpLoad m q i k => .monPmpLoad ⟨p, m⟩ q i k
  | monPmpUnload m q i => .monPmpUnload ⟨p, m⟩ q i
  | sockSend i msg => .send ⟨p, i⟩ msg
  | sockRecv i b => .receive ⟨p, i⟩ b
  | sockSendRecv i msg => .sendReceive ⟨p, i⟩ msg

namespace Machine

/-! ## Carrying out -/

/-- Carry out a call that concerns its caller alone. -/
def performOwn (h : Hart) (p : Pid) : OwnCall → Action Outcome
  | .getInfo .pid => return .value (BitVec.ofNat 64 p)
  | .getInfo .time => return .value (BitVec.ofNat 64 (← get).board.time)
  | .getInfo .deadline => return .value (BitVec.ofNat 64 ((← get).board.deadline h))
  | .readRegister r => return .value ((← process p).register r)
  | .writeRegister r w => do
    modifyProcess p (·.setRegister r w)
    return .done
  | .sync false => return .done
  | .sync true => do
    modifyProcess p fun q => { q.reportSuccess with deadline := 0 }
    return .schedule
  | .sleep time => do
    modifyProcess p .reportSuccess
    if (← get).board.time < time then
      expect .hold (← process p).status.busy
      modifyProcess p (·.sleep time)
    return .schedule

def perform (h : Hart) (p : Pid) : Syscall → Attempt Outcome
  | .own c => performOwn h p c
  | .shared c => return (← (c.operation p).run h).outcome

def attemptCall (h : Hart) (p : Pid) (number : Word) (arguments : Vector Word 8) :
    Attempt Outcome := do
  let c ← (Syscall.decode number arguments : Except Error Syscall)
  note (.called p c)
  perform h p c

/-! ## Results -/

/-- Tell the caller how its call ended, and say what the hart does then: go on with a process, or
look for one. A caller that was stopped while it ran stops when a call fails for that reason. -/
def conclude (p : Pid) (number : Word) : Except Error Outcome → Action (Option Pid)
  | .ok .done | .ok (.next .caller) => do
    modifyProcess p .reportSuccess
    return some p
  | .ok (.value w) => do
    modifyProcess p fun q => q.reportSuccess.setRegister .a0 w
    return some p
  | .ok .schedule => return none
  | .ok (.next (.yield q)) => do
    modifyProcess p .reportSuccess
    return some q
  | .ok (.next (.blocked q)) => return q
  | .error .preempted => do
    modifyProcess p (·.report .preempted)
    return none
  | .error e => do
    if e = .suspended ∧ (← process p).status.suspended then
      modifyProcess p (·.report .suspended)
      return none
    else
      note (.callFailed p number e)
      modifyProcess p (·.report e)
      return some p

/-- Handle a system call of the process that a hart runs, and give the process that the hart runs
then. The caller is released unless it goes on. -/
def handleCall (h : Hart) (p : Pid) : Action (Option Pid) := do
  modifyProcess p fun q => q.setRegister .pc (q.register .pc + 4)
  let rs := (← process p).registers
  let number := rs.get .t0
  let outcome ← (attemptCall h p number rs.arguments).run
  match ← conclude p number outcome with
  | some q =>
    if q = p then
      return some p
    else
      release p
      return some q
  | none =>
    release p
    nextProcess h

end Machine
end SepKernel
