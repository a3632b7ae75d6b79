import SepKernel.Capability.Derivation
import SepKernel.Machine.Holding

/-!
# Reading, moving, deleting and deriving capabilities

The operations of a process on its capabilities, and the loading of regions into its protection
registers. Each is a number of checks, of which the first that fails gives the reason, and then an
action that completes.
-/

namespace SepKernel
namespace Machine

/-! ## Writing the table -/

def setCapability (s : Slot) (c : Capability) : Action Unit := do
  expect .slot (!(← capability s).isNull && !c.isNull)
  modifyTable (·.set s c)

/-- Vacate an occupied slot, whose neighbours point at it. -/
def vacate (s : Slot) : Action Unit := do
  expect .slot ((← get).table.isConsistentAt s)
  modifyTable (·.unlink s)

/-! ## Checks -/

/-- The capability in a slot, which must not be vacant. -/
def readCapability (s : Slot) : Attempt Capability := do
  ((← get).table.read s : Except Error Capability)

/-- The capability in a slot that something is to be taken from. -/
def requireSource (s : Slot) : Attempt Capability := do
  let c ← capability s
  if c.isNull then
    throw .srcEmpty
  return c

def requireVacant (s : Slot) : Attempt Unit := do
  if !(← capability s).isNull then
    throw .dstOccupied

/-- The region in a slot, which must be loaded or not. -/
def requireRegion (s : Slot) (loaded : Bool) : Attempt Region := do
  match ← readCapability s with
  | .pmp r => if r.loaded = loaded then return r else throw .invalidPmp
  | _ => throw .invalidPmp

/-! ## Moving and deleting -/

/-- Let a capability go from an occupied slot to a vacant one, and give it as it is there. -/
def relocate (source target : Slot) (c : Capability) : Action Capability := do
  let c ← if source.owner = target.owner then pure c else handOver source.owner target.owner c
  expect .slot (!(← capability source).isNull && (← capability target).isNull)
  modifyTable (·.relink source target c)
  note (.moved source target c)
  return c

/-- Move a capability to a vacant slot, and give it as it is there. -/
def transferCapability (source target : Slot) : Attempt Capability := do
  let c ← requireSource source
  requireVacant target
  relocate source target c

def moveCapability (source target : Slot) : Attempt Unit :=
  discard (transferCapability source target)

/-- Let a capability go from its slot. What was derived from it stays. -/
def discardCapability (s : Slot) (c : Capability) : Action Unit := do
  vacate s
  giveUp s.owner c
  note (.deleted s c)

def deleteCapability (s : Slot) : Attempt Unit := do
  discardCapability s (← readCapability s)

/-! ## Deriving -/

/-- Put a child into a vacant slot, directly after its parent, which keeps the rest. -/
def bear (source target : Slot) (parent child : Capability) : Action Unit := do
  takeUp target.owner child
  setCapability source (parent.afterDeriving child)
  expect .slot (!(← capability source).isNull && (← capability target).isNull)
  modifyTable (·.insertAfter source target child)
  note (.derived source target child)

def deriveCapability (source target : Slot) (child : Capability) : Attempt Unit := do
  let parent ← requireSource source
  requireVacant target
  if !parent.mayDerive child then
    note (.derivationRefused parent child)
    throw .invalidDerivation
  bear source target parent child

/-! ## Loading regions -/

def install (s : Slot) (r : Region) (k : RegionIndex) : Action Unit := do
  modifyProcess s.owner fun q => { q with bank := q.bank.load k r.access (r.address.setWidth 64) }
  setCapability s (.pmp { r with loaded := true, slot := BitVec.ofNat 8 k })
  note (.loaded s k)

def loadRegion (s : Slot) (register : Nat) : Attempt Unit := do
  let r ← requireRegion s false
  let some k := index? 8 register | throw .invalidSlot
  if !((← process s.owner).bank.get k).isFree then
    throw .dstOccupied
  install s r k

def uninstall (s : Slot) (r : Region) : Action Unit := do
  freeRegister s.owner r.slot
  setCapability s (.pmp { r with loaded := false, slot := 0 })
  note (.unloaded s)

def unloadRegion (s : Slot) : Attempt Unit := do
  uninstall s (← requireRegion s true)

end Machine
end SepKernel
