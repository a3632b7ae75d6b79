import SepKernel.Machine.Basic

/-!
# Dispatching

A hart without a process looks for the next slot of the schedule in which it has one, and idles
until that slot begins. Its timer is set to end the run a little early, so that the next decision
is made in time.
-/

namespace SepKernel
namespace Machine

/-- Take the process that a hart is to run in a slot, if there is one. -/
def fetch (h : Hart) (slot now : Nat) : Action (Option Pid) := do
  let m ← get
  match m.schedule.fetch? m.processes h slot now with
  | some (p, q) =>
    setProcess p q
    note (.fetched h p (Schedule.column slot))
    return some p
  | none => return none

/-- Find the next process for a hart, and take it. None is found if the board does not wait until
the slot begins. -/
def nextProcess (h : Hart) : Action (Option Pid) := do
  let m ← get
  match m.schedule.choose? m.processes h m.board.time m.board.patience with
  | some c =>
    setProcess c.pid c.process
    note (.fetched h c.pid (Schedule.column c.slot))
    expect .deadline (decide (overheadTicks ≤ c.process.deadline))
    modifyBoard fun b =>
      { b with time := c.time }.setDeadline h (c.process.deadline - overheadTicks)
    return some c.pid
  | none =>
    modifyBoard fun b => { b with time := b.time + b.patience }
    return none

/-- Deliver an exception to the process that a hart runs, which goes on. -/
def handleTrap (p : Pid) (t : Trap) : Action Pid := do
  note (.trapped p t)
  modifyProcess p fun q => { q with registers := q.registers.deliver t }
  return p

end Machine
end SepKernel
