import SepKernel.Config
import SepKernel.Fixed

/-!
# Registers

A process has the 32 user registers of the machine and eight more that the kernel keeps for it. The
order of the names here is the numbering that programs use.
-/

namespace SepKernel

inductive Register where
  | pc | ra | sp | gp | tp | t0 | t1 | t2 | s0 | s1
  | a0 | a1 | a2 | a3 | a4 | a5 | a6 | a7
  | s2 | s3 | s4 | s5 | s6 | s7 | s8 | s9 | s10 | s11
  | t3 | t4 | t5 | t6
  /-- The entry of the exception handler of the process. -/
  | tpc
  /-- The stack of the exception handler of the process. -/
  | tsp
  /-- Where the last exception struck. -/
  | epc
  /-- The stack at the last exception. -/
  | esp
  /-- The cause of the last exception. -/
  | ecause
  /-- The value that came with the last exception. -/
  | eval
  /-- The time that the process needs to serve a message. -/
  | servtime
  /-- The time that the process needs at worst; the kernel only stores it. -/
  | wcet
  deriving DecidableEq, Repr

namespace Register

def all : Vector Register 40 :=
  #v[pc, ra, sp, gp, tp, t0, t1, t2, s0, s1, a0, a1, a2, a3, a4, a5, a6, a7,
    s2, s3, s4, s5, s6, s7, s8, s9, s10, s11, t3, t4, t5, t6,
    tpc, tsp, epc, esp, ecause, eval, servtime, wcet]

def number (r : Register) : Fin 40 :=
  ⟨r.ctorIdx, by cases r <;> decide⟩

def ofNumber (n : Fin 40) : Register := lookup all n

def ofNumber? (n : Nat) : Option Register :=
  (index? 40 n).map ofNumber

@[simp] theorem ofNumber_number (r : Register) : ofNumber r.number = r := by
  cases r <;> rfl

@[simp] theorem number_ofNumber (n : Fin 40) : (ofNumber n).number = n := by
  revert n; decide

theorem number_inj {r s : Register} : r.number = s.number ↔ r = s :=
  ⟨fun h => by rw [← ofNumber_number r, h, ofNumber_number], fun h => h ▸ rfl⟩

def arguments : Vector Register 8 := #v[a0, a1, a2, a3, a4, a5, a6, a7]

/-- The registers that take the data of a message, in order. -/
def payload : Vector Register 4 := #v[a2, a3, a4, a5]

def name : Register → String
  | pc => "Pc" | ra => "Ra" | sp => "Sp" | gp => "Gp" | tp => "Tp"
  | t0 => "T0" | t1 => "T1" | t2 => "T2" | s0 => "S0" | s1 => "S1"
  | a0 => "A0" | a1 => "A1" | a2 => "A2" | a3 => "A3"
  | a4 => "A4" | a5 => "A5" | a6 => "A6" | a7 => "A7"
  | s2 => "S2" | s3 => "S3" | s4 => "S4" | s5 => "S5" | s6 => "S6"
  | s7 => "S7" | s8 => "S8" | s9 => "S9" | s10 => "S10" | s11 => "S11"
  | t3 => "T3" | t4 => "T4" | t5 => "T5" | t6 => "T6"
  | tpc => "Tpc" | tsp => "Tsp" | epc => "Epc" | esp => "Esp"
  | ecause => "Ecause" | eval => "Eval" | servtime => "Servtime" | wcet => "Wcet"

end Register

structure Registers where
  words : Vector Word 40
  deriving DecidableEq, Repr

namespace Registers

def zero : Registers := ⟨.replicate 40 0⟩

def get (rs : Registers) (r : Register) : Word := lookup rs.words r.number

def set (rs : Registers) (r : Register) (w : Word) : Registers := ⟨replace rs.words r.number w⟩

theorem get_set (rs : Registers) (r s : Register) (w : Word) :
    (rs.set r w).get s = if r = s then w else rs.get s := by
  simp only [get, set, lookup_replace, Register.number_inj]

@[simp] theorem get_set_self (rs : Registers) (r : Register) (w : Word) :
    (rs.set r w).get r = w := by
  simp [get_set]

theorem get_set_of_ne (rs : Registers) {r s : Register} (w : Word) (h : r ≠ s) :
    (rs.set r w).get s = rs.get s := by
  simp [get_set, h]

/-- Write several registers, one after the other. -/
def setAll (rs : Registers) (values : List (Register × Word)) : Registers :=
  values.foldl (fun rs rw => rs.set rw.1 rw.2) rs

def arguments (rs : Registers) : Vector Word 8 := Register.arguments.map rs.get

end Registers

end SepKernel
