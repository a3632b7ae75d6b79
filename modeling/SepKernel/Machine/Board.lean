import SepKernel.Process.Basic

/-!
# The board

What the kernel sees of the hardware: one clock, and for each hart a timer with a deadline. The
timer interrupt of a hart is pending once its deadline is reached. It can also be forced, at once
or after the hart has asked a number of times whether it is pending.

An idle hart waits for the clock. How long it may do so before it gives up is a property of the
board.
-/

namespace SepKernel

structure Timer where
  deadline : Nat
  /-- Is the interrupt pending whatever the deadline? -/
  forced : Bool
  /-- How often the hart may still ask before the interrupt is forced. -/
  countdown : Option Nat
  deriving DecidableEq, Repr

namespace Timer

def unset : Timer := ⟨never, false, none⟩

/-- Count down by one question; the interrupt is forced when there is nothing left to count. -/
def countDown (t : Timer) : Timer :=
  match t.countdown with
  | none => t
  | some 0 => { t with forced := true, countdown := none }
  | some (n + 1) => { t with countdown := some n }

def isPending (t : Timer) (time : Nat) : Bool :=
  t.forced || decide (t.deadline ≤ time)

/-- Ask at most `n` times whether the interrupt is pending, until it is. -/
def askUpTo (time : Nat) : Nat → Timer → Timer
  | 0, t => t
  | n + 1, t =>
    let t := t.countDown
    if t.isPending time then t else askUpTo time n t

/-- Ask until the interrupt is pending, for as long as a countdown may bring that about. -/
def askUntilPending (t : Timer) (time : Nat) : Timer :=
  t.askUpTo time (t.countdown.getD 0 + 1)

end Timer

/-- The clock and the timers. -/
structure Board where
  time : Nat
  timers : Vector Timer 4
  /-- For how many ticks an idle hart waits in one decision. -/
  patience : Nat
  deriving DecidableEq, Repr

namespace Board

def initial : Board := ⟨0, .replicate 4 .unset, 25000⟩

def timer (b : Board) (h : Hart) : Timer := lookup b.timers h

def setTimer (b : Board) (h : Hart) (t : Timer) : Board := { b with timers := replace b.timers h t }

theorem timer_setTimer (b : Board) (h k : Hart) (t : Timer) :
    (b.setTimer h t).timer k = if h = k then t else b.timer k :=
  lookup_replace b.timers h k t

def deadline (b : Board) (h : Hart) : Nat := (b.timer h).deadline

def setDeadline (b : Board) (h : Hart) (time : Nat) : Board :=
  b.setTimer h { b.timer h with deadline := time }

def poll (b : Board) (h : Hart) : Bool × Board :=
  let t := (b.timer h).countDown
  (t.isPending b.time, b.setTimer h t)

end Board

end SepKernel
