import SepKernel.Machine.Capabilities

/-!
# Monitors

A monitor capability gives control over the processes in the free part of its range: stopping them
and letting them go on, looking at their status, lending them the hart, and editing what they
have. A process must be stopped, and held by nobody, to be edited.
-/

namespace SepKernel

/-- What a hart does after a hand-off. -/
inductive Next where
  /-- It goes on with the caller. -/
  | caller
  /-- It goes on with another process, which was taken for it; the caller can run again. -/
  | yield (p : Pid)
  /-- The caller waits, and the hart goes on with another process, or looks for one. -/
  | blocked (p : Option Pid)
  deriving DecidableEq, Repr

namespace Machine

/-! ## Authority -/

def controls (c : Capability) (p : Pid) : Bool :=
  match c with
  | .monitor s => decide (s.Free (BitVec.ofNat 16 p))
  | _ => false

def requireControl (monitor : Slot) (p : Pid) : Attempt Unit := do
  if !controls (← capability monitor) p then
    note (.notCovered monitor p)
    throw .invalidMonitor

/-- Refuse to go on unless the capability in a slot gives control over a process that is stopped. -/
def requireStopped (monitor : Slot) (p : Pid) : Attempt Unit := do
  requireControl monitor p
  if !(← process p).isStopped then
    throw .invalidState

def slotAt (p : Pid) (index : Nat) : Attempt Slot :=
  match index? 32 index with
  | some i => return ⟨p, i⟩
  | none => throw .invalidIndex

/-! ## Operations -/

def suspendProcess (monitor : Slot) (p : Pid) : Attempt Unit := do
  requireControl monitor p
  modifyProcess p .suspend
  note (.suspended monitor p)

def resumeProcess (monitor : Slot) (p : Pid) : Attempt Unit := do
  requireControl monitor p
  modifyProcess p .resume
  note (.resumed monitor p)

def processStatus (monitor : Slot) (p : Pid) : Attempt Status := do
  requireControl monitor p
  return (← process p).status

/-- Lend the hart to a process for the rest of the run. -/
def yieldTo (monitor : Slot) (p : Pid) : Attempt Next := do
  requireControl monitor p
  let some q := (← process p).acquire? (← get).board.time | throw .invalidState
  setProcess p q
  let deadline := (← process monitor.owner).deadline
  modifyProcess p fun q => { q with deadline }
  return .yield p

def readRegister (monitor : Slot) (p : Pid) (r : Register) : Attempt Word := do
  requireStopped monitor p
  return (← process p).register r

def writeRegister (monitor : Slot) (p : Pid) (r : Register) (w : Word) : Attempt Unit := do
  requireControl monitor p
  let some q := (← process p).acquireStopped? | throw .invalidState
  setProcess p (q.setRegister r w)
  release p

def readCapabilityOf (monitor : Slot) (p : Pid) (index : Nat) : Attempt Capability := do
  requireStopped monitor p
  readCapability (← slotAt p index)

/-- Move a capability between slots of stopped processes, or of the holder of the monitor. -/
def moveCapabilityOf (monitor source target : Slot) : Attempt Unit := do
  if source.owner ≠ monitor.owner then
    requireStopped monitor source.owner
  if target.owner ≠ monitor.owner then
    requireStopped monitor target.owner
  moveCapability source target

def loadRegionOf (monitor : Slot) (p : Pid) (index register : Nat) : Attempt Unit := do
  requireStopped monitor p
  if regionCount ≤ register then
    throw .invalidSlot
  loadRegion (← slotAt p index) register

def unloadRegionOf (monitor : Slot) (p : Pid) (index : Nat) : Attempt Unit := do
  requireStopped monitor p
  unloadRegion (← slotAt p index)

end Machine
end SepKernel
