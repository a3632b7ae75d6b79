import SepKernel.Capability.Rights
import SepKernel.Capability.Span
import SepKernel.Protection.Napot

/-!
# Capabilities

A capability is a value that names a resource and the rights to it. Holding one in a slot of the
capability table is the only way to use the resource. There are six kinds of resource: slots of the
schedule, memory, protection regions, rights over other processes, channels, and ends of channels.
-/

namespace SepKernel

/-- Blocks of memory, numbered within the part of memory that `tag` selects. -/
structure MemoryRange where
  tag : BitVec 8
  access : Access
  /-- Set while a protection region carved out of the range exists. -/
  locked : Bool
  span : Span
  deriving DecidableEq, Repr

/-- A naturally aligned area of memory that can be loaded into a protection register. -/
structure Region where
  /-- The area, as a protection register holds it. -/
  address : BitVec 48
  access : Access
  /-- Is the region in a protection register of its owner? -/
  loaded : Bool
  /-- The protection register, while the region is loaded. -/
  slot : BitVec 8
  deriving DecidableEq, Repr

/-- One end of a channel. The server end has the tag zero, and every other tag is a client. -/
structure Socket where
  chan : BitVec 16
  mode : Mode
  permission : Permission
  tag : BitVec 32
  deriving DecidableEq, Repr

inductive Capability where
  /-- No capability at all; the content of an empty slot. -/
  | null
  /-- Time slots of one hart. -/
  | time (hart : BitVec 8) (span : Span)
  /-- Blocks of memory. -/
  | memory (range : MemoryRange)
  /-- An area for a protection register. -/
  | pmp (region : Region)
  /-- Control over a range of processes. -/
  | monitor (span : Span)
  /-- A range of channels. -/
  | channel (span : Span)
  /-- One end of a channel. -/
  | socket (socket : Socket)
  deriving DecidableEq, Repr

instance : Inhabited Capability := ⟨.null⟩

/-! ## Addresses -/

def blockAddress (tag : BitVec 8) (block : BitVec 16) : Nat :=
  tag.toNat * tagSize + block.toNat * blockSize

namespace MemoryRange

def baseAddress (m : MemoryRange) : Nat := blockAddress m.tag m.span.base

/-- The first address of the free part of the range. -/
def markAddress (m : MemoryRange) : Nat := blockAddress m.tag m.span.mark

def limitAddress (m : MemoryRange) : Nat := blockAddress m.tag m.span.limit

end MemoryRange

def Region.area (r : Region) : Area :=
  Napot.decode r.address.toNat

def Socket.isServer (s : Socket) : Bool :=
  s.tag == 0

namespace Capability

def isNull (c : Capability) : Bool :=
  c == null

@[simp] theorem isNull_iff (c : Capability) : c.isNull = true ↔ c = null := by
  simp [isNull]

theorem isNull_eq_false_iff (c : Capability) : c.isNull = false ↔ c ≠ null := by
  simp [isNull]

def span? : Capability → Option Span
  | time _ s | monitor s | channel s => some s
  | memory m => some m.span
  | _ => none

/-! ## Capabilities of which nothing has been handed out -/

/-- All time slots of a hart from `base` up to `limit`. -/
def wholeTime (hart : BitVec 8) (base limit : BitVec 16) : Capability :=
  time hart (.whole base limit)

/-- The memory from address `base` up to address `limit`, both at block boundaries and under one
tag. The tag has eight bits, and the block numbers have sixteen. -/
def wholeMemory (base limit : Nat) (access : Access) : Capability :=
  let tag := base / tagSize
  let block (address : Nat) := BitVec.ofNat 16 ((address - tag * tagSize) / blockSize)
  memory ⟨BitVec.ofNat 8 tag, access, false, .whole (block base) (block limit)⟩

/-- A protection region that is not loaded; the address word is cut to 48 bits. -/
def unloadedRegion (address : Nat) (access : Access) : Capability :=
  pmp ⟨BitVec.ofNat 48 address, access, false, 0⟩

def wholeMonitor (base limit : BitVec 16) : Capability :=
  monitor (.whole base limit)

def wholeChannel (base limit : BitVec 16) : Capability :=
  channel (.whole base limit)

end Capability

end SepKernel
