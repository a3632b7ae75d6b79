import SepKernel.Proofs.Machine.Quiet
import SepKernel.Proofs.Process.StatusWord

/-!
# Status words at rest

From a new process on, as long as only a held process is released or made to wait, and none that
waits already, the status word has one of seven forms, and the channel in it is that of the last
wait. In particular a process that is stopped while it waits is held, so that somebody is there to
end the wait. Each comparison with a whole word then asks for exactly one phase, so that whoever is
refused is refused for what the phase says.
-/

namespace SepKernel

variable {s : Status} {p : Process} {t : Transition} {ts : List Transition} {c : ChannelWord}

/-! ## Histories -/

namespace Transition

/-- May the operation be asked for? Only a held process is released or made to wait, and none that
waits already. -/
def Allowed (p : Process) : Transition → Prop
  | release => p.status.busy = true
  | await _ | sleep _ => p.status.busy = true ∧ p.status.wait = none
  | _ => True

instance (p : Process) : (t : Transition) → Decidable (t.Allowed p)
  | release => inferInstanceAs (Decidable (p.status.busy = true))
  | await _ | sleep _ => inferInstanceAs (Decidable (p.status.busy = true ∧ p.status.wait = none))
  | acquire _ | suspend | resume | isStopped | acquireStopped | receive _ _ _ | setDeadline _
  | setRegister _ _ | register _ => .isTrue trivial

def channel? : Transition → Option ChannelWord
  | await c => some c
  | sleep _ => some sleepChannel
  | _ => none

def lastWait (ts : List Transition) : Option ChannelWord :=
  (ts.filterMap channel?).getLast?

/-- The last wait is looked for among the later operations first. -/
theorem lastWait_cons (t : Transition) (ts : List Transition) (last : Option ChannelWord) :
    (lastWait (t :: ts)).or last = (lastWait ts).or (t.channel?.or last) := by
  unfold lastWait
  cases h : t.channel? with
  | none => rw [List.filterMap_cons_none h, Option.none_or]
  | some c =>
    rw [List.filterMap_cons_some h, List.getLast?_cons]
    cases (ts.filterMap channel?).getLast? <;> rfl

end Transition

def Process.after (p : Process) (ts : List Transition) : Process :=
  ts.foldl (fun p t => (t.run p).2) p

def Process.Permits (p : Process) : List Transition → Prop
  | [] => True
  | t :: ts => t.Allowed p ∧ (t.run p).2.Permits ts

instance Process.decidablePermits : (ts : List Transition) → (p : Process) →
    Decidable (p.Permits ts)
  | [], _ => .isTrue trivial
  | t :: ts, p =>
    have := Process.decidablePermits ts (t.run p).2
    inferInstanceAs (Decidable (t.Allowed p ∧ (t.run p).2.Permits ts))

def PackedProcess.after (p : PackedProcess) (ts : List Transition) : PackedProcess :=
  ts.foldl (fun p t => (p.run t).2) p

/-- The two run beside each other, since they agree at every step. -/
theorem Process.after_pack (p : Process) (ts : List Transition) :
    p.pack.after ts = (p.after ts).pack := by
  induction ts generalizing p with
  | nil => rfl
  | cons t ts ih =>
    show ((p.pack.run t).2).after ts = _
    rw [run_pack, ih]
    rfl

/-! ## Statuses at rest -/

/-- A process that is stopped while it waits is held, and the channel is that of the last wait. -/
structure Status.AtRest (last : Option ChannelWord) (s : Status) : Prop where
  held : s.suspended = true → s.wait ≠ none → s.busy = true
  channel : ∀ c, s.wait = some c → last = some c

theorem Status.AtRest.of_wait_none (h : s.wait = none) (last : Option ChannelWord) :
    s.AtRest last :=
  ⟨fun _ hw => absurd h hw, fun c hc => by rw [h] at hc; cases hc⟩

theorem Status.AtRest.running (last : Option ChannelWord) : Status.running.AtRest last :=
  of_wait_none rfl last

theorem Status.AtRest.stopped (last : Option ChannelWord) : Status.stopped.AtRest last :=
  of_wait_none rfl last

/-- Whoever begins to wait did not wait before, so that the channel is the one that it waits on. -/
theorem Status.AtRest.await (hb : s.busy = true) (hw : s.wait = none) (c : ChannelWord)
    (last : Option ChannelWord) :
    Status.AtRest ((some c).or last) { s with wait := some (c ||| s.wait.getD 0) } where
  held _ _ := hb
  channel d hd := by
    rw [hw] at hd
    simpa using hd

/-- Letting go of a process that is stopped and waits cancels its wait, so that none of the kind is
left that nobody holds. -/
theorem Status.AtRest.release {last : Option ChannelWord} (h : p.status.AtRest last) :
    p.release.status.AtRest last := by
  simp only [Process.release]
  split
  · exact .stopped last
  · next hn =>
    refine ⟨fun hu hw => absurd ?_ hn, h.channel⟩
    rw [Bool.and_eq_true, Option.isSome_iff_ne_none]
    exact ⟨hu, hw⟩

/-- Stopping a process that waits either cancels its wait, or it is held. -/
theorem Status.AtRest.suspend {last : Option ChannelWord} (h : p.status.AtRest last) :
    p.suspend.status.AtRest last := by
  simp only [Process.suspend]
  split
  · exact .stopped last
  · next hn =>
    refine ⟨fun _ hw => ?_, h.channel⟩
    -- a process that waits and is not held is either stopped already or gives up its wait
    by_contra hb
    have hu : p.status.suspended ≠ true := fun hu => hb (h.held hu hw)
    have hw : p.status.wait.isSome = true := Option.isSome_iff_ne_none.2 hw
    simp_all

/-- An operation on a process at rest, if it is allowed, leaves it at rest. -/
theorem Status.AtRest.run {last : Option ChannelWord} (h : p.status.AtRest last)
    (ht : t.Allowed p) : (t.run p).2.status.AtRest (t.channel?.or last) := by
  cases t with
  | acquire now =>
    rw [Transition.run_acquire]
    cases hq : p.acquire? now with
    | none => exact h
    | some q =>
      show q.status.AtRest last
      rw [(Process.acquire?_status hq).2]
      exact .running last
  | release => exact h.release
  | suspend => exact h.suspend
  | resume => exact ⟨fun hu => (nomatch hu), h.channel⟩
  | isStopped => exact h
  | acquireStopped => -- a process that is held and suspended remembers no channel
    rw [Transition.run_acquireStopped, Process.acquireStopped?]
    split
    · exact ⟨fun _ _ => rfl, h.channel⟩
    · exact h
  | await c => exact .await ht.1 ht.2 c last
  | sleep time => exact .await ht.1 ht.2 sleepChannel last
  | receive c now deadline =>
    rw [Transition.run_receive]
    cases hq : p.receive? c now deadline with
    | none => exact h
    | some q =>
      show q.status.AtRest last
      rw [(Process.receive?_status hq).2]
      exact .running last
  | setDeadline time => exact h
  | setRegister r w => exact h
  | register r => exact h

/-- By induction on the operations, where the last wait so far is carried along. -/
theorem Status.AtRest.after {last : Option ChannelWord} (h : p.status.AtRest last)
    (hts : p.Permits ts) : (p.after ts).status.AtRest ((Transition.lastWait ts).or last) := by
  induction ts generalizing p last with
  | nil => exact h
  | cons t ts ih =>
    rw [Transition.lastWait_cons]
    exact ih (h.run hts.1) hts.2

/-! ## Words at rest -/

/-- The forms of a status word at rest. -/
inductive RestingWord (last : Option ChannelWord) : Word → Prop
  | ready : RestingWord last 0
  | running : RestingWord last busyBit
  | waiting {c : ChannelWord} : last = some c → RestingWord last (blockedWord c)
  | blocking {c : ChannelWord} : last = some c → RestingWord last (busyBit ||| blockedWord c)
  | stopped : RestingWord last suspendedBit
  | held : RestingWord last (suspendedBit ||| busyBit)
  | cancelled {c : ChannelWord} : last = some c →
      RestingWord last (suspendedBit ||| busyBit ||| blockedWord c)

theorem Status.word_blocking (c : ChannelWord) :
    Status.word ⟨true, false, some c⟩ = busyBit ||| blockedWord c := by
  rw [← word_running, word_or_blockedWord]
  simp [running]

theorem Status.word_cancelled (c : ChannelWord) :
    Status.word ⟨true, true, some c⟩ = suspendedBit ||| busyBit ||| blockedWord c := by
  rw [← word_held, word_or_blockedWord]
  simp

/-- Of the eight combinations of flags, one is impossible at rest. -/
theorem Status.AtRest.restingWord {last : Option ChannelWord} (h : s.AtRest last) :
    RestingWord last s.word := by
  obtain ⟨b, u, o⟩ := s
  cases o with
  | none =>
    cases b <;> cases u
    · exact word_ready ▸ .ready
    · exact word_stopped ▸ .stopped
    · exact word_running ▸ .running
    · exact word_held ▸ .held
  | some c =>
    have hc : last = some c := h.channel c rfl
    cases b <;> cases u
    · exact word_waiting c ▸ .waiting hc
    · -- stopped and waiting, but not held
      exact nomatch h.held rfl (Option.some_ne_none c)
    · exact word_blocking c ▸ .blocking hc
    · exact word_cancelled c ▸ .cancelled hc

/-! ## The main statement -/

/-- What is known of a process at rest whose last wait was on some channel, or who never waited. -/
structure Process.Legal (last : Option ChannelWord) (p : Process) : Prop where
  form : RestingWord last p.status.word
  /-- A process that is stopped and waits is held. -/
  held : p.status.word &&& suspendedBit ≠ 0 → p.status.word &&& blockedBit ≠ 0 →
    p.status.word &&& busyBit ≠ 0
  /-- There is a channel in the word only while the process waits. -/
  channel : p.status.word &&& blockedBit = 0 → p.status.word >>> 32 = 0
  ready : p.status.word = 0 ↔ Phase.ofWord p.status.word = .ready
  blocked : p.status.word &&& flagMask = blockedBit ↔
    ∃ c, Phase.ofWord p.status.word = .blocked c false
  stopped : p.status.word = suspendedBit ↔ Phase.ofWord p.status.word = .suspended false
  waiting : ∀ c, p.status.word = blockedWord c ↔ Phase.ofWord p.status.word = .blocked c false
  acquire : ∀ now, (p.acquire? now).isSome = true ↔ Phase.ofWord p.status.word = .ready ∨
    (∃ c, Phase.ofWord p.status.word = .blocked c false) ∧ p.deadline ≤ now
  isStopped : p.isStopped = true ↔ Phase.ofWord p.status.word = .suspended false
  acquireStopped : p.acquireStopped?.isSome = true ↔
    Phase.ofWord p.status.word = .suspended false
  receive : ∀ c now deadline, (p.receive? c now deadline).isSome = true ↔
    ¬ IsLate p.registers p.deadline now deadline ∧ Phase.ofWord p.status.word = .blocked c false

/-- Only one status is that of a process that is ready. -/
theorem Status.phase_eq_ready_iff : s.phase = .ready ↔ s = ready := by
  obtain ⟨b, u, o⟩ := s
  cases b <;> cases u <;> cases o <;> simp [phase, ready]

/-- Only one is that of a process that waits on the channel. -/
theorem Status.phase_eq_blocked_iff : s.phase = .blocked c false ↔ s = waiting c := by
  obtain ⟨b, u, o⟩ := s
  cases b <;> cases u <;> cases o <;> simp [phase, waiting]

/-- At rest, only one is that of a process that is stopped. -/
theorem Status.AtRest.phase_eq_suspended_iff {last : Option ChannelWord} (h : s.AtRest last) :
    s.phase = .suspended false ↔ s = .stopped := by
  obtain ⟨b, u, o⟩ := s
  have hheld := h.held
  cases b <;> cases u <;> cases o <;> simp_all [phase, Status.stopped]

/-- At rest, each test of the program on the word tells the phase that it is meant for. -/
theorem Status.AtRest.legal {last : Option ChannelWord} (h : p.status.AtRest last) :
    p.Legal last := by
  have hstopped := h.phase_eq_suspended_iff
  constructor
  case form => exact h.restingWord
  case held =>
    simp only [ne_eq, and_eq_zero_iff getLsbD_suspendedBit, and_eq_zero_iff getLsbD_blockedBit,
      and_eq_zero_iff getLsbD_busyBit, getLsbD_word]
    simpa [Option.isSome_iff_ne_none] using h.held
  case channel =>
    rw [and_eq_zero_iff getLsbD_blockedBit, getLsbD_word, word_ushiftRight]
    intro hw
    have hw : p.status.wait = none := by simpa using hw
    rw [hw]
    rfl
  case ready => rw [Phase.ofWord_word, word_eq_zero_iff, phase_eq_ready_iff]
  case blocked => simp only [Phase.ofWord_word, flags_eq_blockedBit_iff, phase_eq_blocked_iff]
  case stopped => rw [Phase.ofWord_word, word_eq_suspendedBit_iff, hstopped]
  case waiting =>
    intro c
    rw [Phase.ofWord_word, word_eq_blockedWord_iff, phase_eq_blocked_iff]
  -- whoever is ready can be had at once, whoever waits once the deadline has passed, and no other
  case acquire =>
    intro now
    simp only [Phase.ofWord_word, phase_eq_ready_iff, phase_eq_blocked_iff]
    by_cases hr : p.status = .ready
    · simp [Process.acquire?_of_ready hr, hr]
    by_cases hw : ∃ c, p.status = .waiting c
    · obtain ⟨c, hc⟩ := hw
      rw [Process.acquire?_of_waiting hc]
      by_cases hd : p.deadline ≤ now
      · simp [hd, hc, Status.waiting]
      · simp [hd, hr]
    · simp [Process.acquire?_eq_none hr hw, hr, hw]
  case isStopped =>
    rw [Phase.ofWord_word, hstopped, Process.isStopped, beq_iff_eq]
  case acquireStopped =>
    rw [Phase.ofWord_word, hstopped, Process.acquireStopped?, Process.isStopped]
    simp
  case receive =>
    intro c now deadline
    rw [Phase.ofWord_word, phase_eq_blocked_iff, Process.receive?_eq_ite]
    by_cases hl : IsLate p.registers p.deadline now deadline <;> simp [hl]

/-- From a new process on, whatever is asked of it that is allowed, the word does what the record
does, and is at rest. -/
theorem word_at_rest (h : Process.blank.Permits ts) :
    Process.blank.pack.after ts = (Process.blank.after ts).pack ∧
      (Process.blank.after ts).Legal (Transition.lastWait ts) := by
  refine ⟨Process.after_pack _ ts, Status.AtRest.legal ?_⟩
  have hrest := (Status.AtRest.stopped none).after (p := .blank) h
  rwa [Option.or_none] at hrest

/-- A process that blocks on channel 3, and is stopped before its hart lets go of it. -/
theorem word_at_rest_cancelled :
    Process.blank.Permits [.resume, .acquire 0, .await 3, .suspend] ∧
      (Process.blank.after [.resume, .acquire 0, .await 3, .suspend]).status.word = 0x300000007 ∧
      (Process.blank.after [.resume, .acquire 0, .await 3, .suspend]).Legal (some 3) := by
  have hpermits : Process.blank.Permits [.resume, .acquire 0, .await 3, .suspend] := by decide
  exact ⟨hpermits, by decide, (word_at_rest hpermits).2⟩

end SepKernel
