import SepKernel.Process.Basic

/-!
# The schedule

Time is cut into slots of equal length, and the slots repeat with the period of the major frame. For
every hart the schedule says which process may run in a slot, and how many slots its run still has
from there on. It is a picture of the time capabilities, and changes only with them.

A process may own the same slot on several harts. Then the hart with the longest run gets it, and
among equals the one with the lowest number: the others are *outranked*. A run without slots is as
good as none.
-/

namespace SepKernel

/-- The right to run in a slot: whose it is, and the number of slots from this one to the end of the
run. -/
structure Turn where
  pid : Pid
  length : Nat
  deriving DecidableEq, Repr

/-- Who may run, by hart and slot. -/
structure Schedule where
  rows : Vector (Vector (Option Turn) 64) 4
  deriving DecidableEq

namespace Schedule

def blank : Schedule := ⟨.replicate 4 (.replicate 64 none)⟩

/-- The position of a slot in the major frame. -/
def column (slot : Nat) : Fin 64 := ⟨slot % 64, Nat.mod_lt _ (by decide)⟩

def get (s : Schedule) (hart : Hart) (c : Fin 64) : Option Turn := lookup (lookup s.rows hart) c

@[ext] theorem ext {s t : Schedule} (h : ∀ hart c, s.get hart c = t.get hart c) : s = t :=
  congrArg mk (lookup_ext fun hart => lookup_ext (h hart))

/-- Write the turns of a hart in the slots from `first` up to `last`. -/
def fill (s : Schedule) (hart : Hart) (first last : Nat) (turn : Nat → Option Turn) : Schedule :=
  ⟨replace s.rows hart <| .ofFn fun c =>
    if first ≤ c.val ∧ c.val < last then turn c else s.get hart c⟩

/-- Only the turns of one hart between the two ends are filled. -/
theorem get_fill (s : Schedule) (hart h : Hart) (first last : Nat) (turn : Nat → Option Turn)
    (c : Fin 64) :
    (s.fill hart first last turn).get h c =
      if hart = h ∧ first ≤ c.val ∧ c.val < last then turn c else s.get h c := by
  simp only [get, fill, lookup_replace]
  by_cases hh : hart = h
  · subst hh
    simp
  · simp [hh]

/-- Let a process run in the slots from `first` up to `last`, as part of a run up to `limit`. -/
def assign (s : Schedule) (hart : Hart) (pid : Pid) (first last limit : Nat) : Schedule :=
  s.fill hart first last fun c => some ⟨pid, limit - c⟩

def clear (s : Schedule) (hart : Hart) (first last : Nat) : Schedule :=
  s.fill hart first last fun _ => none

/-! ## Who runs -/

/-- Does another hart have a better claim to the process in this column? -/
def isOutranked (s : Schedule) (hart : Hart) (c : Fin 64) (t : Turn) : Bool :=
  (List.finRange 4).any fun other =>
    match s.get other c with
    | some u =>
      other != hart && u.pid == t.pid
        && (if other < hart then decide (t.length ≤ u.length) else decide (t.length < u.length))
    | none => false

/-- The process that a hart is to run in a slot, taken for it and with the end of its run as its
deadline; none if nobody has the turn or nothing is left of it, if another hart has a better claim,
or if the process cannot be had. -/
def fetch? (s : Schedule) (ps : Processes) (hart : Hart) (slot now : Nat) :
    Option (Pid × Process) := do
  let t ← s.get hart (column slot)
  if t.length = 0 ∨ s.isOutranked hart (column slot) t then
    none
  else
    let p ← (ps.get t.pid).acquire? now
    some (t.pid, { p with deadline := (slot + t.length) * slotTicks })

/-- What a hart decided to run: the slot, the time at which it began, and the process as taken. -/
structure Choice where
  slot : Nat
  time : Nat
  pid : Pid
  process : Process

/-- The slots that a hart tries from time `now` on, if it idles for at most `patience` ticks. The
first is the current one, or the next if that begins within the overhead of the decision. -/
def candidates (now patience : Nat) : List Nat :=
  let first := (now + overheadTicks) / slotTicks
  List.range' first ((now + patience) / slotTicks + 1 - first)

/-- The first slot in which there is a process to run. A slot is tried when it begins, or at once
if it has begun. -/
def choose? (s : Schedule) (ps : Processes) (hart : Hart) (now patience : Nat) : Option Choice :=
  (candidates now patience).findSome? fun slot =>
    let time := max now (slot * slotTicks)
    (s.fetch? ps hart slot time).map fun r => ⟨slot, time, r.1, r.2⟩

/-! ## Text -/

/-- The text of a turn; the absence of one is written as length zero. -/
def turnText : Option Turn → String
  | some t => s!"{t.pid.val}:{t.length}"
  | none => "0:0"

def rowText (s : Schedule) (hart : Hart) : String :=
  " ".intercalate ((lookup s.rows hart).toList.map turnText)

end Schedule

end SepKernel
