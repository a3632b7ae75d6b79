import SepKernel.Config

/-!
# Rights and modes

The small vocabularies that capabilities are made of: what may be done to memory, what may cross a
channel in each direction, and what a delivery does to the hart. Each has a bit form of its own
width.
-/

namespace SepKernel

/-! ## Access to memory -/

structure Access where
  read : Bool
  write : Bool
  execute : Bool
  deriving DecidableEq, Repr

namespace Access

/-- Bit 0 is reading, bit 1 writing, bit 2 executing. -/
def bits (a : Access) : BitVec 3 :=
  BitVec.ofBool a.execute ++ BitVec.ofBool a.write ++ BitVec.ofBool a.read

def ofBits (b : BitVec 3) : Access where
  read := b[0]
  write := b[1]
  execute := b[2]

@[simp] theorem ofBits_bits (a : Access) : ofBits a.bits = a := by
  obtain ⟨r, w, x⟩ := a
  cases r <;> cases w <;> cases x <;> rfl

@[simp] theorem bits_ofBits (b : BitVec 3) : (ofBits b).bits = b := by
  revert b; decide

/-- Does `b` allow everything that `a` allows? -/
def within (a b : Access) : Bool :=
  (!a.read || b.read) && (!a.write || b.write) && (!a.execute || b.execute)

end Access

/-! ## Traffic over a channel -/

/-- What each side of a channel may send: the server to the client, and the client to the server. -/
structure Permission where
  serverData : Bool
  serverCap : Bool
  clientData : Bool
  clientCap : Bool
  deriving DecidableEq, Repr

namespace Permission

/-- Bit 0 is server data, bit 1 server capabilities, bits 2 and 3 the same for the client. -/
def bits (p : Permission) : BitVec 4 :=
  BitVec.ofBool p.clientCap ++ BitVec.ofBool p.clientData ++ BitVec.ofBool p.serverCap
    ++ BitVec.ofBool p.serverData

def ofBits (b : BitVec 4) : Permission where
  serverData := b[0]
  serverCap := b[1]
  clientData := b[2]
  clientCap := b[3]

@[simp] theorem ofBits_bits (p : Permission) : ofBits p.bits = p := by
  obtain ⟨a, b, c, d⟩ := p
  cases a <;> cases b <;> cases c <;> cases d <;> rfl

@[simp] theorem bits_ofBits (b : BitVec 4) : (ofBits b).bits = b := by
  revert b; decide

end Permission

/-! ## Delivery modes -/

/-- What a delivery over a channel does to the hart of the sender. -/
inductive Mode where
  /-- The sender keeps running. -/
  | keep
  /-- The hart, with the deadline of the sender, goes to the receiver. -/
  | yield
  deriving DecidableEq, Repr

namespace Mode

def bits : Mode → BitVec 4
  | keep => 0
  | yield => 1

def ofBits? (b : BitVec 4) : Option Mode :=
  if b = 0 then some keep else if b = 1 then some yield else none

@[simp] theorem ofBits?_bits (m : Mode) : ofBits? m.bits = some m := by
  cases m <;> rfl

/-- A mode that was read from a field is written back as the same field. -/
theorem bits_of_ofBits? {b : BitVec 4} {m : Mode} (h : ofBits? b = some m) : m.bits = b := by
  unfold ofBits? at h
  split at h
  · cases h; simp_all [bits]
  · split at h
    · cases h; simp_all [bits]
    · cases h

end Mode

end SepKernel
