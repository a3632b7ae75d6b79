import SepKernel.Config
import SepKernel.Fixed

/-!
# Capability slots

A slot belongs to a process and has a position among the slots of that process. Slots are numbered
through the whole table, process by process.
-/

namespace SepKernel

/-- A place for a capability. -/
structure Slot where
  owner : Pid
  index : SlotIndex
  deriving DecidableEq, Repr, Inhabited

namespace Slot

def number (s : Slot) : Fin 256 :=
  ⟨s.owner * 32 + s.index, by omega⟩

/-- The slot at position `index` of process `owner`, if both are in range. -/
def of? (owner index : Nat) : Option Slot := do
  let owner ← index? 8 owner
  let index ← index? 32 index
  some ⟨owner, index⟩

def ofNumber (n : Fin 256) : Slot :=
  ⟨⟨n / 32, by omega⟩, ⟨n % 32, by omega⟩⟩

def ofNumber? (n : Nat) : Option Slot :=
  (index? 256 n).map ofNumber

/-- A slot is found by its number. -/
@[simp] theorem ofNumber_number (s : Slot) : ofNumber s.number = s := by
  obtain ⟨⟨p, hp⟩, ⟨i, hi⟩⟩ := s
  simp only [ofNumber, number, mk.injEq, Fin.mk.injEq]
  omega

@[simp] theorem number_ofNumber (n : Fin 256) : (ofNumber n).number = n := by
  simp only [ofNumber, number, Fin.ext_iff]
  omega

theorem number_inj {s t : Slot} : s.number = t.number ↔ s = t :=
  ⟨fun h => by rw [← ofNumber_number s, h, ofNumber_number], fun h => h ▸ rfl⟩

def ofProcess (p : Pid) : List Slot :=
  (List.finRange 32).map (⟨p, ·⟩)

def all : List Slot :=
  (List.finRange 256).map ofNumber

theorem mem_all (s : Slot) : s ∈ all :=
  List.mem_map.2 ⟨s.number, List.mem_finRange _, ofNumber_number s⟩

def text (s : Slot) : String :=
  s!"CapSlot({s.number.val})"

end Slot

end SepKernel
