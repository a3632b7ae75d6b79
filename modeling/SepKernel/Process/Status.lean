import SepKernel.Config
import SepKernel.Text

/-!
# The status of a process

A process is held by a hart or not, may be stopped by a monitor, and may be waiting on a channel.
The three are independent of each other while a hart holds the process: a running process that
blocks, or that a monitor stops, keeps the hart until it is released.

A status has a form of 64 bits: the channel in the upper half, and a bit each for held, waiting and
stopped at the low end. Programs see a status through its phase, which puts stopping before waiting
and waiting before holding.
-/

namespace SepKernel

/-- The number of a channel that a process may wait on. -/
abbrev ChannelWord := BitVec 32

/-- The channel that a sleeping process waits on. No socket has it. -/
def sleepChannel : ChannelWord := 0xffffffff

/-- What holds a process, stops it, or keeps it waiting. -/
structure Status where
  /-- Held by a hart, to run or to be edited. -/
  busy : Bool
  /-- Stopped by a monitor. -/
  suspended : Bool
  /-- The channel it waits on. -/
  wait : Option ChannelWord
  deriving DecidableEq, Repr

namespace Status

def ready : Status := ⟨false, false, none⟩

def running : Status := ⟨true, false, none⟩

/-- A monitor has stopped the process, and nobody holds it. -/
def stopped : Status := ⟨false, true, none⟩

/-- The process waits on a channel, and nobody holds it. -/
def waiting (c : ChannelWord) : Status := ⟨false, false, some c⟩

def word (s : Status) : Word :=
  s.wait.getD 0 ++ 0#29 ++ BitVec.ofBool s.suspended ++ BitVec.ofBool s.wait.isSome
    ++ BitVec.ofBool s.busy

end Status

inductive Phase where
  | ready
  | busy
  | blocked (channel : ChannelWord) (busy : Bool)
  | suspended (busy : Bool)
  deriving DecidableEq, Repr

namespace Phase

def ofWord (w : Word) : Phase :=
  if w[2] then suspended w[0]
  else if w[1] then blocked (w.extractLsb' 32 32) w[0]
  else if w[0] then busy
  else ready

def text : Phase → String
  | ready => "Ready"
  | busy => "Busy"
  | blocked c b => s!"Blocked({c.toNat},{b})"
  | suspended b => s!"Suspended({b})"

end Phase

def Status.phase (s : Status) : Phase :=
  match s.suspended, s.wait with
  | true, _ => .suspended s.busy
  | false, some c => .blocked c s.busy
  | false, none => if s.busy then .busy else .ready

/-- The bits of a status word: three flags, and the channel in the upper half. -/
theorem Status.getLsbD_word (s : Status) (i : Nat) :
    s.word.getLsbD i =
      if i = 0 then s.busy else if i = 1 then s.wait.isSome else if i = 2 then s.suspended
      else if i < 32 then false else (s.wait.getD 0).getLsbD (i - 32) := by
  simp only [Status.word, BitVec.getLsbD_append, BitVec.getLsbD_ofBool]
  grind

/-- A status is read back from its word as the phase it is in. -/
theorem Phase.ofWord_word (s : Status) : ofWord s.word = s.phase := by
  have hc : s.word.extractLsb' 32 32 = s.wait.getD 0 := by
    ext i hi
    rw [BitVec.getElem_extractLsb', Status.getLsbD_word]
    grind
  simp only [ofWord, Status.phase, hc, ← BitVec.getLsbD_eq_getElem, Status.getLsbD_word]
  obtain ⟨b, u, w⟩ := s
  cases u <;> cases w <;> simp

end SepKernel
