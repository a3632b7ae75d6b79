import SepKernel.Capability.Rights
import SepKernel.Fixed

/-!
# Protection registers

The bank holds what the protection registers of the hart are to contain while its process runs. A
register is a configuration byte and an address word. The byte of a free register is zero; the byte
of a loaded one has the access rights and a marker for naturally aligned areas.
-/

namespace SepKernel

structure Protection where
  config : BitVec 8
  address : Word
  deriving DecidableEq, Repr

namespace Protection

def blank : Protection := ⟨0, 0⟩

/-- The marker of a naturally aligned area. -/
def aligned : BitVec 8 := 0x18

/-- The configuration byte that gives some access to a naturally aligned area. -/
def configFor (a : Access) : BitVec 8 :=
  a.bits.setWidth 8 ||| aligned

/-- Does the register protect nothing? -/
def isFree (p : Protection) : Bool := p.config == 0

theorem configFor_ne_zero (a : Access) : configFor a ≠ 0 := by
  obtain ⟨r, w, x⟩ := a
  cases r <;> cases w <;> cases x <;> decide

end Protection

structure Bank where
  registers : Vector Protection 8
  deriving DecidableEq, Repr

namespace Bank

def blank : Bank := ⟨.replicate 8 .blank⟩

def get (b : Bank) (i : RegionIndex) : Protection := lookup b.registers i

def put (b : Bank) (i : RegionIndex) (p : Protection) : Bank := ⟨replace b.registers i p⟩

theorem get_put (b : Bank) (i j : RegionIndex) (p : Protection) :
    (b.put i p).get j = if i = j then p else b.get j :=
  lookup_replace b.registers i j p

/-- Load a naturally aligned area into a register. -/
def load (b : Bank) (i : RegionIndex) (a : Access) (address : Word) : Bank :=
  b.put i ⟨Protection.configFor a, address⟩

/-- Free a register; the address stays. -/
def unload (b : Bank) (i : RegionIndex) : Bank :=
  b.put i { b.get i with config := 0 }

/-- The configuration bytes in one word, the first register at the low end. -/
def configWord (b : Bank) : Nat :=
  b.registers.toList.foldr (fun p word => p.config.toNat + 256 * word) 0

end Bank

end SepKernel
