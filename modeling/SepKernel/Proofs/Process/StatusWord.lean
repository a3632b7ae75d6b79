import SepKernel.Process.Transition

/-!
# The status word

The status of a process fits into one word, and every operation on the status is then a mask or an
exchange of the whole word: a flag is set or cleared, or the word is compared with the only one from
which the operation may go on, and replaced. A *packed* process works in this way. It does the same
as a process whose status is a record, whatever the status.
-/

namespace SepKernel

open BitVec

variable {s : Status} {p : Process} {w : Word} {c : ChannelWord}

/-! ## Flags -/

def busyBit : Word := 1

def blockedBit : Word := 1 <<< 1

def suspendedBit : Word := 1 <<< 2

/-- The part of a word in which the flags are. -/
def flagMask : Word := 0xff

/-- The word of a process that waits on a channel and is held by nobody. -/
def blockedWord (c : ChannelWord) : Word := blockedBit ||| c.setWidth 64 <<< 32

/-- The bits of a word, one by one. -/
theorem getLsbD_eq_of_forall {f : Nat → Bool} (h : ∀ i : Fin 64, w.getLsbD i = f i)
    (hf : ∀ i, 64 ≤ i → f i = false) (i : Nat) : w.getLsbD i = f i := by
  by_cases hi : i < 64
  · exact h ⟨i, hi⟩
  · rw [getLsbD_of_ge w i (by omega), hf i (by omega)]

theorem getLsbD_busyBit (i : Nat) : busyBit.getLsbD i = decide (i = 0) :=
  getLsbD_eq_of_forall (f := fun i => decide (i = 0)) (by decide) (by grind) i

theorem getLsbD_blockedBit (i : Nat) : blockedBit.getLsbD i = decide (i = 1) :=
  getLsbD_eq_of_forall (f := fun i => decide (i = 1)) (by decide) (by grind) i

theorem getLsbD_suspendedBit (i : Nat) : suspendedBit.getLsbD i = decide (i = 2) :=
  getLsbD_eq_of_forall (f := fun i => decide (i = 2)) (by decide) (by grind) i

theorem getLsbD_flagMask (i : Nat) : flagMask.getLsbD i = decide (i < 8) :=
  getLsbD_eq_of_forall (f := fun i => decide (i < 8)) (by decide) (by grind) i

/-- One flag, and the channel in the upper half. -/
theorem getLsbD_blockedWord (c : ChannelWord) (i : Nat) :
    (blockedWord c).getLsbD i = (decide (i = 1) || decide (32 ≤ i) && c.getLsbD (i - 32)) := by
  simp only [blockedWord, getLsbD_or, getLsbD_blockedBit, getLsbD_shiftLeft, getLsbD_setWidth]
  grind

/-- A mask of a single flag asks for its bit. -/
theorem and_eq_zero_iff {f : Word} {k : Nat} (hf : ∀ i, f.getLsbD i = decide (i = k)) :
    w &&& f = 0 ↔ w.getLsbD k = false := by
  constructor
  · intro h
    have hbit := congrArg (getLsbD · k) h
    simpa [hf] using hbit
  · intro h
    refine eq_of_getLsbD_eq fun i _ => ?_
    rw [getLsbD_and, hf]
    by_cases hi : i = k <;> simp [hi, h]

/-! ## Words of statuses -/

/-- No two statuses have the same word, as each part of a status has bits of its own. -/
theorem Status.word_inj {s s' : Status} : s.word = s'.word ↔ s = s' := by
  refine ⟨fun h => ?_, fun h => h ▸ rfl⟩
  have hbit : ∀ i, s.word.getLsbD i = s'.word.getLsbD i := fun i => by rw [h]
  simp only [Status.getLsbD_word] at hbit
  have hbusy : s.busy = s'.busy := by simpa using hbit 0
  have hwait : s.wait.isSome = s'.wait.isSome := by simpa using hbit 1
  have hsuspended : s.suspended = s'.suspended := by simpa using hbit 2
  have hchannel : s.wait.getD 0 = s'.wait.getD 0 :=
    eq_of_getLsbD_eq fun i _ => by have := hbit (32 + i); grind
  obtain ⟨b, u, o⟩ := s
  obtain ⟨b', u', o'⟩ := s'
  cases o <;> cases o' <;> simp_all

theorem Status.word_ready : Status.ready.word = 0 := by decide

theorem Status.word_running : Status.running.word = busyBit := by decide

theorem Status.word_stopped : Status.stopped.word = suspendedBit := by decide

theorem Status.word_held : Status.word ⟨true, true, none⟩ = suspendedBit ||| busyBit := by
  decide

theorem Status.word_waiting (c : ChannelWord) : (Status.waiting c).word = blockedWord c := by
  refine eq_of_getLsbD_eq fun i _ => ?_
  rw [getLsbD_word, getLsbD_blockedWord]
  grind [Status.waiting]

/-! ## Masks -/

def Status.flags (s : Status) : Status :=
  { s with wait := s.wait.map fun _ => 0 }

/-- Masking keeps whether the process waits and forgets what for. -/
theorem Status.word_and_flagMask (s : Status) : s.word &&& flagMask = s.flags.word := by
  refine eq_of_getLsbD_eq fun i _ => ?_
  rw [getLsbD_and, getLsbD_flagMask, getLsbD_word, getLsbD_word]
  cases h : s.wait <;> grind [flags]

/-- Clearing the flag gives the process back. -/
theorem Status.word_and_not_busyBit (s : Status) :
    s.word &&& ~~~busyBit = { s with busy := false : Status }.word := by
  refine eq_of_getLsbD_eq fun i _ => ?_
  rw [getLsbD_and, getLsbD_not, getLsbD_busyBit, getLsbD_word, getLsbD_word]
  grind

/-- Clearing the flag lets the process go on. -/
theorem Status.word_and_not_suspendedBit (s : Status) :
    s.word &&& ~~~suspendedBit = { s with suspended := false : Status }.word := by
  refine eq_of_getLsbD_eq fun i _ => ?_
  rw [getLsbD_and, getLsbD_not, getLsbD_suspendedBit, getLsbD_word, getLsbD_word]
  grind

/-- Setting the flag suspends the process. -/
theorem Status.word_or_suspendedBit (s : Status) :
    s.word ||| suspendedBit = { s with suspended := true : Status }.word := by
  refine eq_of_getLsbD_eq fun i _ => ?_
  rw [getLsbD_or, getLsbD_suspendedBit, getLsbD_word, getLsbD_word]
  grind

/-- Setting the bits of a wait adds the channel to one that may be there already. -/
theorem Status.word_or_blockedWord (s : Status) (c : ChannelWord) :
    s.word ||| blockedWord c = { s with wait := some (c ||| s.wait.getD 0) : Status }.word := by
  refine eq_of_getLsbD_eq fun i _ => ?_
  rw [getLsbD_or, getLsbD_blockedWord, getLsbD_word, getLsbD_word]
  simp only [Option.getD_some, getLsbD_or]
  grind

/-- The upper half is the channel, or zero. -/
theorem Status.word_ushiftRight (s : Status) : s.word >>> 32 = (s.wait.getD 0).setWidth 64 := by
  refine eq_of_getLsbD_eq fun i _ => ?_
  rw [getLsbD_ushiftRight, getLsbD_word, getLsbD_setWidth]
  grind

/-! ## Comparisons -/

theorem Status.word_eq_zero_iff : s.word = 0 ↔ s = ready := by
  rw [← word_ready, word_inj]

theorem Status.word_eq_suspendedBit_iff : s.word = suspendedBit ↔ s = stopped := by
  rw [← word_stopped, word_inj]

theorem Status.word_eq_blockedWord_iff : s.word = blockedWord c ↔ s = waiting c := by
  rw [← word_waiting, word_inj]

/-- The test on the flags finds the processes that wait and are neither held nor stopped. -/
theorem Status.flags_eq_blockedBit_iff :
    s.word &&& flagMask = blockedBit ↔ ∃ c, s = waiting c := by
  have h : blockedBit = Status.word ⟨false, false, some 0⟩ := by decide
  rw [word_and_flagMask, h, word_inj]
  obtain ⟨b, u, o⟩ := s
  cases o <;> simp [flags, waiting]

/-- The flags of a process that was given back after it had been stopped while it blocked. -/
theorem Status.flags_eq_cancelled_iff :
    s.word &&& flagMask = blockedBit ||| suspendedBit ↔ ∃ c, s = ⟨false, true, some c⟩ := by
  have h : blockedBit ||| suspendedBit = Status.word ⟨false, true, some 0⟩ := by decide
  rw [word_and_flagMask, h, word_inj]
  obtain ⟨b, u, o⟩ := s
  cases o <;> simp [flags]

/-- The upper half of the word tells the channel, which is zero where nobody waits. -/
theorem Status.word_ushiftRight_eq_iff :
    s.word >>> 32 = c.setWidth 64 ↔ s.wait.getD 0 = c := by
  rw [word_ushiftRight]
  refine ⟨fun h => eq_of_getLsbD_eq fun i _ => ?_, fun h => h ▸ rfl⟩
  have hbit := congrArg (getLsbD · i) h
  simp only [getLsbD_setWidth] at hbit
  grind

/-! ## Packed processes -/

/-- A process whose status is one word. -/
structure PackedProcess where
  word : Word
  deadline : Nat
  registers : Registers
  deriving DecidableEq

/-- The process with its status as a word, and without its protection registers. -/
def Process.pack (p : Process) : PackedProcess := ⟨p.status.word, p.deadline, p.registers⟩

/-- Is it too late to hand a message to a process with these registers and this deadline? -/
def IsLate (rs : Registers) (wait now deadline : Nat) : Prop :=
  (0 < (rs.get .servtime).toNat ∧ deadline ≤ now + (rs.get .servtime).toNat) ∨ wait ≤ now

instance (rs : Registers) (wait now deadline : Nat) : Decidable (IsLate rs wait now deadline) :=
  inferInstanceAs (Decidable (_ ∨ _))

namespace PackedProcess

def report (p : PackedProcess) (e : Error) : PackedProcess :=
  { p with registers := p.registers.set .t0 e.word }

def cancelWait (p : PackedProcess) : PackedProcess :=
  { p with word := suspendedBit }.report .suspended

/-- Exchange the word for another, if it is the one that is expected. -/
def exchange (p : PackedProcess) (expected new : Word) : Transition.Answer × PackedProcess :=
  if p.word = expected then (.truth true, { p with word := new }) else (.truth false, p)

def run (p : PackedProcess) : Transition → Transition.Answer × PackedProcess
  | .acquire now =>
    if p.word = 0 then
      (.truth true, { p with word := busyBit })
    else if p.word &&& flagMask = blockedBit ∧ p.deadline ≤ now then
      let q := { p with word := busyBit }
      (.truth true, if p.word >>> 32 = sleepChannel.setWidth 64 then q else q.report .timeout)
    else
      (.truth false, p)
  | .release =>
    let q := { p with word := p.word &&& ~~~busyBit }
    (.done, if q.word &&& flagMask = blockedBit ||| suspendedBit then q.cancelWait else q)
  | .suspend =>
    (.done, if p.word &&& flagMask = blockedBit then p.cancelWait
      else { p with word := p.word ||| suspendedBit })
  | .resume => (.done, { p with word := p.word &&& ~~~suspendedBit, deadline := 0 })
  | .isStopped => (.truth (p.word == suspendedBit), p)
  | .acquireStopped => p.exchange suspendedBit (suspendedBit ||| busyBit)
  | .await c => (.done, { p with word := p.word ||| blockedWord c })
  | .sleep time => (.done, { p with word := p.word ||| blockedWord sleepChannel, deadline := time })
  | .receive c now deadline =>
    if IsLate p.registers p.deadline now deadline then (.truth false, p)
    else p.exchange (blockedWord c) busyBit
  | .setDeadline time => (.done, { p with deadline := time })
  | .setRegister r w => (.done, { p with registers := p.registers.set r w })
  | .register r => (.content (p.registers.get r), p)

end PackedProcess

/-! ## The word follows the record -/

namespace Transition

/-- What an operation answers that takes the process if it can be had, and what it makes of it. -/
def taken (p : Process) (o : Option Process) : Answer × Process :=
  o.elim (.truth false, p) fun q => (.truth true, q)

/-- On words, acquiring does what it does on the process. -/
theorem run_acquire (p : Process) (now : Nat) : (acquire now).run p = taken p (p.acquire? now) := by
  rw [run]
  cases p.acquire? now <;> rfl

theorem run_acquireStopped (p : Process) : acquireStopped.run p = taken p p.acquireStopped? := by
  rw [run]
  cases p.acquireStopped? <;> rfl

theorem run_receive (p : Process) (c : ChannelWord) (now deadline : Nat) :
    (receive c now deadline).run p = taken p (p.receive? c now deadline) := by
  rw [run]
  cases p.receive? c now deadline <;> rfl

end Transition

namespace Process

theorem acquire?_of_ready (h : p.status = .ready) (now : Nat) :
    p.acquire? now = some { p with status := .running } := by
  rw [acquire?, h]
  rfl

/-- Whoever waits is taken when its time is up, and told so unless it slept. -/
theorem acquire?_of_waiting (h : p.status = .waiting c) (now : Nat) :
    p.acquire? now = if p.deadline ≤ now then
      some (if c = sleepChannel then { p with status := .running }
        else { p with status := .running }.report .timeout) else none := by
  rw [acquire?, h]
  rfl

/-- A process that is neither ready nor waiting cannot be had to run. -/
theorem acquire?_eq_none (hr : p.status ≠ .ready) (hw : ¬ ∃ c, p.status = .waiting c)
    (now : Nat) : p.acquire? now = none := by
  unfold acquire?
  split
  · next h => exact absurd h hr
  · next c h => exact absurd ⟨c, h⟩ hw
  · rfl

/-- The same decision with the two reasons to refuse a message in one condition. -/
theorem receive?_eq_ite (p : Process) (c : ChannelWord) (now deadline : Nat) :
    p.receive? c now deadline =
      if IsLate p.registers p.deadline now deadline then none
      else if p.status = .waiting c then some { p with status := .running } else none :=
  rfl

/-- The word of a wait that is given up. -/
theorem pack_cancelWait (p : Process) (w : Word) :
    PackedProcess.cancelWait ⟨w, p.deadline, p.registers⟩ = p.cancelWait.pack := by
  rw [PackedProcess.cancelWait, ← Status.word_stopped]
  rfl

/-- Taking a process looks at its word as a whole first and at its flags next; both tests agree with
the record. -/
theorem run_pack_acquire (p : Process) (now : Nat) :
    p.pack.run (.acquire now) =
      (((Transition.acquire now).run p).1, ((Transition.acquire now).run p).2.pack) := by
  rw [Transition.run_acquire]
  simp only [PackedProcess.run, pack, Status.word_eq_zero_iff, Status.flags_eq_blockedBit_iff,
    Status.word_ushiftRight_eq_iff]
  rw [← Status.word_running]
  by_cases hr : p.status = .ready
  · rw [if_pos hr, acquire?_of_ready hr]
    rfl
  rw [if_neg hr]
  by_cases hw : ∃ c, p.status = .waiting c
  · obtain ⟨c, hc⟩ := hw
    rw [acquire?_of_waiting hc]
    -- a wait ends when its deadline has passed
    by_cases hd : p.deadline ≤ now
    · rw [if_pos ⟨⟨c, hc⟩, hd⟩, if_pos hd, hc]
      show (_, if c = sleepChannel then _ else _) = _
      split <;> rfl
    · rw [if_neg fun h => hd h.2, if_neg hd]
      rfl
  · rw [acquire?_eq_none hr hw, if_neg fun h => hw h.1]
    rfl

/-- Letting a process go clears a bit, and cancels its wait if it was stopped meanwhile. For each
combination of flags the two agree. -/
theorem run_pack_release (p : Process) : p.pack.run .release = (.done, p.release.pack) := by
  simp only [PackedProcess.run, pack, Status.word_and_not_busyBit, Status.flags_eq_cancelled_iff,
    pack_cancelWait, release]
  obtain ⟨⟨b, u, o⟩, d, rs, bank⟩ := p
  cases u <;> cases o <;> simp [cancelWait, report, setRegister]

/-- A process that waits and is not held gives up its wait when it is stopped; in all other cases
only a bit is set. -/
theorem run_pack_suspend (p : Process) : p.pack.run .suspend = (.done, p.suspend.pack) := by
  simp only [PackedProcess.run, pack, Status.flags_eq_blockedBit_iff, Status.word_or_suspendedBit,
    pack_cancelWait, suspend]
  obtain ⟨⟨b, u, o⟩, d, rs, bank⟩ := p
  cases b <;> cases u <;> cases o <;> simp [cancelWait, report, setRegister, Status.waiting]

/-- The operations do the same on the word as on the record. -/
theorem run_pack (p : Process) (t : Transition) :
    p.pack.run t = ((t.run p).1, (t.run p).2.pack) := by
  cases t with
  | acquire now => exact run_pack_acquire p now
  | release => exact run_pack_release p
  | suspend => exact run_pack_suspend p
  | resume =>
    rw [PackedProcess.run, pack, Status.word_and_not_suspendedBit]
    rfl
  | isStopped =>
    -- a comparison of words is one of statuses, for no two have the same word
    have h : (p.status.word == suspendedBit) = (p.status == .stopped) := by
      rw [← Status.word_stopped, Bool.eq_iff_iff, beq_iff_eq, beq_iff_eq, Status.word_inj]
    rw [PackedProcess.run, pack, h]
    rfl
  | acquireStopped =>
    rw [Transition.run_acquireStopped, acquireStopped?, isStopped]
    simp only [PackedProcess.run, PackedProcess.exchange, pack, Status.word_eq_suspendedBit_iff,
      ← Status.word_held, beq_iff_eq]
    split
    · next hs => rw [hs]; rfl
    · rfl
  | await c =>
    rw [PackedProcess.run, pack, Status.word_or_blockedWord]
    rfl
  | sleep time =>
    rw [PackedProcess.run, pack, Status.word_or_blockedWord]
    rfl
  | receive c now deadline =>
    rw [Transition.run_receive, receive?_eq_ite]
    simp only [PackedProcess.run, PackedProcess.exchange, pack, Status.word_eq_blockedWord_iff,
      ← Status.word_running]
    split
    · rfl
    · split <;> rfl
  | setDeadline time => rfl
  | setRegister r w => rfl
  | register r => rfl

end Process

end SepKernel
