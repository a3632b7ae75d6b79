import SepKernel.Machine.Holding

/-!
# Booting

At boot, process 0 gets a list of capabilities, each the root of a line of its own, and is the
only process that can run. What the list names must exist: harts, slots of the frame, processes
and channels are checked against the sizes of their tables, and the three numbers of a range
against each other.
-/

namespace SepKernel

/-- May a capability be given out at boot? -/
def Capability.isRoot : Capability → Bool
  | null => false
  | time hart s => decide (hart.toNat < hartCount ∧ s.Ordered ∧ s.limit.toNat ≤ frameSlots)
  | memory m => decide m.span.Ordered
  | pmp r => !r.loaded
  | monitor s => decide (s.Ordered ∧ s.limit.toNat ≤ processCount)
  | channel s => decide (s.Ordered ∧ s.limit.toNat ≤ channelCount)
  | socket k => decide (k.chan.toNat < channelCount)

namespace Machine

def installRoot (i : SlotIndex) (c : Capability) : Action Unit := do
  expect .slot (← capability ⟨0, i⟩).isNull
  modifyTable (·.insertRoot ⟨0, i⟩ c)
  takeUp 0 c
  note (.booted i c)

def installRoots (first : Nat) : List Capability → Action Unit
  | [] => pure ()
  | c :: cs => do
    if h : first < 32 then
      installRoot ⟨first, h⟩ c
    installRoots (first + 1) cs

/-- Let process 0 run, and stop all others. -/
def resetProcesses : Action Unit :=
  (List.finRange 8).forM fun p =>
    modifyProcess p (·.reset (if p = 0 then .ready else .stopped))

def boot (roots : List Capability) : Attempt Unit := do
  if slotsPerProcess < roots.length then
    throw .invalidIndex
  if !roots.all Capability.isRoot then
    throw .invalidCapability
  installRoots 0 roots
  resetProcesses
  note (.initialised roots.length)

end Machine
end SepKernel
