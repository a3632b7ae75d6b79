import SepKernel.Error
import SepKernel.Process.Register
import SepKernel.Process.Status
import SepKernel.Protection.Bank

/-!
# Processes

A process is its status, its deadline, its registers and its protection registers. The operations
here are the only ways in which the status changes. Those that can be refused give no process when
they are.

A process that waits for a message, or that is stopped while it waits, finds in its register `t0`
how the wait ended.
-/

namespace SepKernel

structure Process where
  status : Status
  /-- When its run ends, or its wait. -/
  deadline : Nat
  registers : Registers
  bank : Bank
  deriving DecidableEq

/-- The deadline of a wait that does not end by itself. -/
def never : Nat := wordCount - 1

namespace Process

def blank : Process := ⟨.stopped, 0, .zero, .blank⟩

def register (p : Process) (r : Register) : Word := p.registers.get r

def setRegister (p : Process) (r : Register) (w : Word) : Process :=
  { p with registers := p.registers.set r w }

def report (p : Process) (e : Error) : Process := p.setRegister .t0 e.word

def reportSuccess (p : Process) : Process := p.setRegister .t0 0

/-! ## Taking and giving back -/

/-- Take the process to run it. It must be ready, or its wait must be over by now; a wait for a
message that is over leaves the reason, a sleep does not. -/
def acquire? (p : Process) (now : Nat) : Option Process :=
  match p.status with
  | ⟨false, false, none⟩ => some { p with status := .running }
  | ⟨false, false, some c⟩ =>
    if p.deadline ≤ now then
      let p := { p with status := .running }
      some (if c = sleepChannel then p else p.report .timeout)
    else
      none
  | _ => none

/-- Give up the wait of a process that is stopped. -/
def cancelWait (p : Process) : Process :=
  { p with status := .stopped }.report .suspended

/-- Give the process back. If it was stopped while it blocked, the wait is over. -/
def release (p : Process) : Process :=
  let p := { p with status.busy := false }
  if p.status.suspended && p.status.wait.isSome then p.cancelWait else p

/-! ## Stopping -/

/-- Stop the process. A process that waits and is not held gives up its wait at once. -/
def suspend (p : Process) : Process :=
  let waits := !p.status.busy && !p.status.suspended && p.status.wait.isSome
  let p := { p with status.suspended := true }
  if waits then p.cancelWait else p

/-- Let the process run again, from now on. -/
def resume (p : Process) : Process :=
  { p with status.suspended := false, deadline := 0 }

def isStopped (p : Process) : Bool := p.status == .stopped

/-- Take a stopped process to edit it. -/
def acquireStopped? (p : Process) : Option Process :=
  if p.isStopped then some { p with status.busy := true } else none

/-! ## Waiting -/

/-- Let the running process wait on a channel. It stays held until it is released. -/
def await (p : Process) (c : ChannelWord) : Process :=
  { p with status.wait := some (c ||| p.status.wait.getD 0) }

/-- Let the running process wait until some time. -/
def sleep (p : Process) (time : Nat) : Process :=
  { p with deadline := time }.await sleepChannel

/-- Take a process that waits on a channel, to hand it a message. Its wait must not be over, and
the time that it needs to serve a message, if it names one, must pass before the deadline of the
hart. -/
def receive? (p : Process) (c : ChannelWord) (now deadline : Nat) : Option Process :=
  let service := (p.register .servtime).toNat
  if (0 < service ∧ deadline ≤ now + service) ∨ p.deadline ≤ now then none
  else if p.status = .waiting c then some { p with status := .running }
  else none

/-- Put the process into a status as at boot. -/
def reset (p : Process) (s : Status) : Process :=
  { p with status := s, deadline := 0 }

/-- The text of a process: its status as a word and as a phase, and its deadline. -/
def text (p : Process) : String :=
  s!"{hex p.status.word.toNat} {p.status.phase.text} {p.deadline}"

end Process

/-! ## All processes -/

structure Processes where
  members : Vector Process 8
  deriving DecidableEq

namespace Processes

def blank : Processes := ⟨.replicate 8 .blank⟩

def get (ps : Processes) (i : Pid) : Process := lookup ps.members i

def put (ps : Processes) (i : Pid) (p : Process) : Processes := ⟨replace ps.members i p⟩

theorem get_put (ps : Processes) (i j : Pid) (p : Process) :
    (ps.put i p).get j = if i = j then p else ps.get j :=
  lookup_replace ps.members i j p

@[simp] theorem get_put_self (ps : Processes) (i : Pid) (p : Process) : (ps.put i p).get i = p := by
  simp [get_put]

theorem get_put_of_ne (ps : Processes) {i j : Pid} (p : Process) (h : i ≠ j) :
    (ps.put i p).get j = ps.get j := by
  simp [get_put, h]

@[ext] theorem ext {ps qs : Processes} (h : ∀ i, ps.get i = qs.get i) : ps = qs :=
  congrArg mk (lookup_ext h)

/-- Putting back what is there changes nothing. -/
theorem put_get (ps : Processes) (i : Pid) : ps.put i (ps.get i) = ps := by
  apply ext
  intro j
  rw [get_put]
  split
  · next h => rw [h]
  · rfl

end Processes

end SepKernel
