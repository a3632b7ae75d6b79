import SepKernel.Channel.Registry
import SepKernel.Journal.Event
import SepKernel.Machine.Board
import SepKernel.Schedule.Basic
import SepKernel.Table.Basic

/-!
# The machine

The kernel is four tables: capabilities, waiting processes by channel, processes, and the
schedule. The machine is the kernel on a board, with the journal of what happened.

Some conditions hold whenever the kernel is used as it should be, and the kernel does not check
them: that a slot to be filled is vacant, that a number is below the size of its table, that a
process to be released is held. The machine notes a *fault* for each that is broken, and goes on.

An `Action` always completes. An `Attempt` may be refused, for a reason.
-/

namespace SepKernel

@[ext] structure Kernel where
  table : Table
  registry : Registry
  processes : Processes
  schedule : Schedule
  deriving DecidableEq

/-- A kernel without capabilities, in which every process is stopped. -/
def Kernel.blank : Kernel := ⟨.blank, .blank, .blank, .blank⟩

/-- A condition that the kernel relies on without checking it, and that did not hold. -/
inductive Fault where
  /-- A slot to be filled was taken, or a slot to be changed or vacated was vacant. -/
  | slot
  /-- A change of the schedule left the frame, or named no hart. -/
  | schedule
  /-- There is no protection register of the number that a region names. -/
  | region
  /-- There is no channel of the number that a socket names. -/
  | channel
  /-- A process to be released, or to wait, was held by nobody. -/
  | hold
  /-- A run ended before the overhead of a decision. -/
  | deadline
  deriving DecidableEq, Repr

/-- A kernel on a board. -/
structure Machine extends Kernel where
  board : Board
  /-- The hart that holds the kernel lock, while it is not the one at work. -/
  lockHolder : Option Hart
  journal : Array Event
  faults : List Fault

def Machine.initial : Machine := ⟨.blank, .initial, none, #[], []⟩

/-- Work of the kernel that always completes. -/
abbrev Action := StateM Machine

/-- Work of the kernel that may be refused. -/
abbrev Attempt := ExceptT Error Action

namespace Machine

/-! ## Notes -/

def note (e : Event) : Action Unit :=
  modify fun m => { m with journal := m.journal.push e }

/-- Note a fault if a condition does not hold. -/
def expect (f : Fault) (condition : Bool) : Action Unit :=
  modify fun m => if condition then m else { m with faults := f :: m.faults }

/-! ## Tables -/

def modifyTable (f : Table → Table) : Action Unit :=
  modify fun m => { m with table := f m.table }

def modifyRegistry (f : Registry → Registry) : Action Unit :=
  modify fun m => { m with registry := f m.registry }

def modifySchedule (f : Schedule → Schedule) : Action Unit :=
  modify fun m => { m with schedule := f m.schedule }

def modifyBoard (f : Board → Board) : Action Unit :=
  modify fun m => { m with board := f m.board }

def capability (s : Slot) : Action Capability :=
  return (← get).table.get s

def process (p : Pid) : Action Process :=
  return (← get).processes.get p

def modifyProcess (p : Pid) (f : Process → Process) : Action Unit :=
  modify fun m => { m with processes := m.processes.put p (f (m.processes.get p)) }

def setProcess (p : Pid) (q : Process) : Action Unit :=
  modifyProcess p fun _ => q

/-- Give a process back that is held. -/
def release (p : Pid) : Action Unit := do
  expect .hold (← process p).status.busy
  modifyProcess p .release

/-! ## Locking -/

def poll (h : Hart) : Action Bool :=
  modifyGet fun m =>
    let r := m.board.poll h
    (r.1, { m with board := r.2 })

/-- Take the kernel lock for a hart. While another holds it, the hart asks for its timer
interrupt, and gives up once that is pending; the holder is taken to keep the lock until then. -/
def lock (h : Hart) : Attempt Unit := do
  if (← get).lockHolder.isSome then
    modifyBoard fun b => b.setTimer h ((b.timer h).askUntilPending b.time)
    throw .preempted

end Machine

end SepKernel
