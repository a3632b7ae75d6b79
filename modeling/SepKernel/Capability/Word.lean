import SepKernel.Capability.Basic

/-!
# Capabilities as machine words

A capability has a form of 64 bits, in which programs name and receive it. The low four bits give
the kind. What follows is laid out by kind, from the high end down:

* time: limit (16), mark (16), base (16), hart (8), four zeros;
* memory: limit, mark, base (16 each), tag (8), lock (1), access (3);
* protection region: address (48), register (8), loaded (1), access (3);
* monitor and channel: limit, mark, base (16 each), twelve zeros;
* socket: tag (32), channel (16), four zeros, permission (4), mode (4).

Reading ignores the bits that writing leaves zero, except that a socket with a bit above its
permission, or with an unknown mode, is no capability.
-/

namespace SepKernel

/-- The three numbers of a span, the base at the low end. -/
def Span.bits (s : Span) : BitVec 48 :=
  s.limit ++ s.mark ++ s.base

def Span.ofWord (w : Word) : Span :=
  ⟨w.extractLsb' 16 16, w.extractLsb' 32 16, w.extractLsb' 48 16⟩

namespace Capability

/-- The kind of a capability, as the low four bits of its word. -/
def kind : Capability → BitVec 4
  | null => 0
  | time _ _ => 1
  | memory _ => 2
  | pmp _ => 3
  | monitor _ => 4
  | channel _ => 5
  | socket _ => 6

def body : Capability → BitVec 60
  | null => 0
  | time hart s => s.bits ++ hart ++ 0#4
  | memory m => m.span.bits ++ m.tag ++ BitVec.ofBool m.locked ++ m.access.bits
  | pmp r => r.address ++ r.slot ++ BitVec.ofBool r.loaded ++ r.access.bits
  | monitor s | channel s => s.bits ++ 0#12
  | socket s => s.tag ++ s.chan ++ 0#4 ++ s.permission.bits ++ s.mode.bits

def toWord (c : Capability) : Word :=
  c.body ++ c.kind

/-- The socket of a word, if its mode is known and its permission has four bits. -/
def socketOfWord? (w : Word) : Option Socket := do
  let mode ← Mode.ofBits? (w.extractLsb' 4 4)
  if w.extractLsb' 12 4 = 0#4 then
    some ⟨w.extractLsb' 16 16, mode, .ofBits (w.extractLsb' 8 4), w.extractLsb' 32 32⟩
  else
    none

def ofWord? (w : Word) : Option Capability :=
  match (w.extractLsb' 0 4).toNat with
  | 0 => some null
  | 1 => some (time (w.extractLsb' 8 8) (.ofWord w))
  | 2 => some (memory ⟨w.extractLsb' 8 8, .ofBits (w.extractLsb' 4 3), w[7], .ofWord w⟩)
  | 3 => some (pmp ⟨w.extractLsb' 16 48, .ofBits (w.extractLsb' 4 3), w[7], w.extractLsb' 8 8⟩)
  | 4 => some (monitor (.ofWord w))
  | 5 => some (channel (.ofWord w))
  | 6 => (socketOfWord? w).map socket
  | _ => none

example : toWord (time 2 ⟨4, 4, 64⟩) = 0x0040000400040201 := by decide
example : ofWord? 0x0000000500030516 =
    some (socket ⟨3, .yield, ⟨true, false, true, false⟩, 5⟩) := by
  decide
example : ofWord? 0x26 = none := by decide
example : ofWord? 0x1006 = none := by decide

end Capability

end SepKernel
