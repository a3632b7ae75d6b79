import SepKernel.Machine.Capabilities

/-!
# Revocation

Revoking a capability deletes what was derived from it, in the order of its line, and gives it
back its whole range. The slots to vacate are the run of slots after it whose capabilities it
covers.

After each deletion the capability takes back what the deleted one still had. A revocation may stop
after any deletion: it does so when the timer interrupt is pending, and can be repeated.
-/

namespace SepKernel

/-- The slots after this one that a revocation vacates. -/
def Table.descendants (t : Table) (s : Slot) : List Slot :=
  (t.following s).takeWhile fun d => (t.get s).mayRevoke (t.get d)

namespace Machine

/-- Give a capability, in its slot, what a deleted descendant still had. -/
def reclaim (s : Slot) (parent : Capability) (d : Slot) (child : Capability) : Action Unit := do
  match parent, child with
  | .time hart p, .time _ c =>
    if c.mark < p.mark then
      assignTime s.owner hart c.mark p.mark p.limit
  | .memory _, .memory _ | .monitor _, .monitor _ | .channel _, .channel _ => pure ()
  | _, _ => giveUp d.owner child
  setCapability s (parent.afterReclaiming child)

def takeBack (s d : Slot) : Action Unit := do
  let parent ← capability s
  let child ← capability d
  vacate d
  reclaim s parent d child
  note (.revoked s d child)

def restore (s : Slot) : Action Unit := do
  let c ← capability s
  match c with
  | .time hart p =>
    if p.base < p.mark then
      assignTime s.owner hart p.base p.mark p.limit
  | _ => pure ()
  setCapability s c.restored

/-- Delete descendants one by one, until all are gone or the timer interrupt of the hart is
pending. Say whether all are gone; the question is not asked when there was nothing to delete. -/
def takeAllBack (h : Hart) (s : Slot) : List Slot → Action Bool
  | [] => return true
  | d :: ds => do
    takeBack s d
    if ← poll h then
      return false
    else
      takeAllBack h s ds

/-- Delete all descendants of a capability, and give it its whole range back. -/
def revokeCapability (h : Hart) (s : Slot) : Attempt Unit := do
  let _ ← readCapability s
  if ← takeAllBack h s ((← get).table.descendants s) then
    restore s
  else
    note (.revocationPreempted s)
    throw .preempted

end Machine
end SepKernel
