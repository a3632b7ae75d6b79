/-!
# Sizes of the kernel

Every table of the kernel has a fixed size. The sizes are numerals in the index types below, so that
an index is in range by its type, and constants for the places that compare or print them.
-/

namespace SepKernel

/-! ## Constants -/

abbrev processCount : Nat := 8

abbrev slotsPerProcess : Nat := 32

/-- Number of slots in the capability table. -/
abbrev tableSize : Nat := processCount * slotsPerProcess

abbrev channelCount : Nat := 16

abbrev hartCount : Nat := 4

/-- Number of memory protection registers of one process. -/
abbrev regionCount : Nat := 8

/-- Number of time slots in the major frame, the period of the schedule. -/
abbrev frameSlots : Nat := 64

abbrev clockRate : Nat := 1000000

/-- Clock ticks per time slot: a hundredth of a second shared out over the frame, rounded down. -/
abbrev slotTicks : Nat := clockRate / frameSlots / 100

/-- Ticks at the end of a run that are kept for the next scheduling decision. -/
abbrev overheadTicks : Nat := slotTicks / 10

abbrev blockBits : Nat := 12

abbrev blockSize : Nat := 4096

/-- The binary logarithm of the size of a part of memory with one tag. -/
abbrev tagBits : Nat := 27

/-- Number of bytes with one tag. The blocks of a memory capability lie within them. -/
abbrev tagSize : Nat := 134217728

/-- Number of addresses, and of values of the clock and of a register. -/
abbrev wordCount : Nat := 18446744073709551616

/-! ## Index types -/

/-- A machine word, the size of a register. -/
abbrev Word := BitVec 64

abbrev Pid := Fin 8

abbrev Hart := Fin 4

abbrev RegionIndex := Fin 8

abbrev SlotIndex := Fin 32

end SepKernel
