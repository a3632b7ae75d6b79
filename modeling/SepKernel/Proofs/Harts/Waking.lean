import SepKernel.Proofs.Harts.Forewarning
import SepKernel.Proofs.Harts.Waiting
import SepKernel.Proofs.Machine.Carried

/-!
# How a wait ends

A process that waits is left alone until a message comes for it, its time is up, or a monitor stops
it. Which of these it was it finds in `t0`, and whatever it finds there is true: success if a
message was delivered to it in that very step, and otherwise that nobody came, or that it was
stopped. Whoever only slept finds success when its time is up.
-/

namespace SepKernel

variable {m m' m₁ : Machine} {roots : List Capability} {h : Hart} {p q : Pid} {x : Slot}
  {op : Operation} {c : ChannelWord} {e : Ending}

inductive Ending where
  /-- A message is delivered. -/
  | message
  /-- The time is up. -/
  | timeout
  /-- A monitor stops the process. -/
  | suspension
  deriving DecidableEq, Repr

/-- What a process finds in `t0` when its wait on a channel has ended. -/
def Ending.word (c : ChannelWord) : Ending → Word
  | message => 0
  | timeout => forewarning c
  | suspension => Error.suspended.word

/-- The ending of a wait can be read off its word, although a sleep that is over looks like a
message that was delivered. -/
theorem Ending.word_injective {e e' : Ending} (hw : e.word c = e'.word c)
    (he : e = .message → c ≠ sleepChannel) (he' : e' = .message → c ≠ sleepChannel) :
    e = e' := by
  have htimeout : Error.timeout.word ≠ 0 := by decide
  have hsuspended : Error.suspended.word ≠ 0 := by decide
  have hdistinct : Error.timeout.word ≠ Error.suspended.word := by decide
  cases e <;> cases e' <;> grind [word, forewarning]

/-! ## Processes -/

/-- Whoever waits unsuspended, by its phase, waits and is not held. -/
theorem Status.waiting_of_phase {s : Status} (hs : s.phase = .blocked c false) :
    s = .waiting c := by
  obtain ⟨busy, suspended, wait⟩ := s
  cases suspended <;> cases wait <;> cases busy <;> cases hs
  rfl

namespace Process

variable {a b : Process} {now : Nat}

/-- A process that waits can only be taken when its time is up. -/
theorem acquire?_waiting (ha : a.status = .waiting c) (hb : a.acquire? now = some b) :
    a.deadline ≤ now ∧ b = if c = sleepChannel then { a with status := .running }
      else { a with status := .running }.report .timeout := by
  rcases acquire?_cases hb with ⟨hs, _⟩ | ⟨c', hs, hd, he⟩
  · rw [ha] at hs
    cases hs
  · rw [ha] at hs
    cases hs
    exact ⟨hd, he⟩

/-- And then it has in `t0` what it was told in advance. -/
theorem told_of_acquire? (ha : a.status = .waiting c) (hf : a.Forewarned)
    (hb : a.acquire? now = some b) :
    b.status = .running ∧ b.register .t0 = forewarning c := by
  have htold := hf c (by rw [ha]; rfl)
  obtain ⟨_, rfl⟩ := acquire?_waiting ha hb
  refine ⟨by split <;> rfl, ?_⟩
  rw [forewarning] at htold ⊢
  split
  · next hc => rwa [if_pos hc] at htold
  · simp [register, report, setRegister]

/-- A process that does not wait is only taken. -/
theorem acquire?_awake (ha : a.status.wait = none) (hb : a.acquire? now = some b) :
    b.status = .running ∧ b.registers = a.registers := by
  rcases acquire?_cases hb with ⟨_, rfl⟩ | ⟨c, hs, _⟩
  · exact ⟨rfl, rfl⟩
  · rw [hs] at ha
    cases ha

/-- A process that waits is told that it was stopped. -/
theorem suspend_waiting (ha : a.status = .waiting c) :
    a.suspend.status = .stopped ∧ a.suspend.register .t0 = Error.suspended.word := by
  obtain ⟨_, _, _, _⟩ := a
  obtain rfl := ha
  exact ⟨rfl, by simp [suspend, Status.waiting, cancelWait, report, setRegister, register]⟩

/-- A process that waits goes on waiting when it is let go on, until now. -/
theorem resume_waiting (ha : a.status = .waiting c) : a.resume = { a with deadline := 0 } := by
  obtain ⟨_, _, _, _⟩ := a
  obtain rfl := ha
  rfl

end Process

/-! ## Calls of others -/

namespace Operation.Effect

/-- What suspending does to the process. -/
theorem suspended (he : (monSuspend x q).Effect h m m') :
    m'.processes.get q = (m.processes.get q).suspend := by
  cases he
  exact Processes.get_put_self ..

/-- Lending a process the hart takes it as it is, at the time of the machine. -/
theorem lent (he : (monYield x q).Effect h m m') :
    ∃ y deadline, (m.processes.get q).acquire? m.board.time = some y ∧
      m'.processes.get q = { y with deadline } := by
  cases he with
  | yield _ hy => exact ⟨_, _, hy, Processes.get_put_self ..⟩

end Operation.Effect

namespace Machine

/-- A message that is sent to a process is in its registers when the operation has answered. -/
theorem Obtains.delivers (ho : m.Obtains h p op) (hf : op.Finds h m q c) (hl : m.table.Strung)
    (hq : q ≠ p) : (((respond h p).exec m).2.processes.get q).status.wait = none ∧
      (((respond h p).exec m).2.processes.get q).register .t0 = 0 := by
  obtain ⟨m₁, a, hc, ha⟩ := ho.carries
  have hf₁ := hf.congr hc.table hc.registry hc.board (hc.process hq)
  have hcaller : op.caller ≠ q := by
    rw [hc.for.1]
    exact hq.symm
  obtain ⟨d, deadline, cap, b, hget⟩ := hf₁.delivered (by rwa [hc.table]) hcaller ha
  rw [hc.machine, hget]
  constructor
  · -- in either mode the receiver has left its wait
    unfold Delivery.received
    split <;> rfl
  · exact d.register_received _ _ (by simp [Delivery.contents])

/-- A process that a monitor stops is stopped when the operation has answered. -/
theorem Obtains.suspends (ho : m.Obtains h p (.monSuspend x q)) (hq : q ≠ p) :
    ((respond h p).exec m).2.processes.get q = (m.processes.get q).suspend := by
  obtain ⟨m₁, a, hc, ha⟩ := ho.carries
  have hdecides := (suspendProcess_decides (h := h) x q m₁).map fun _ => Operation.Answer.done
  rw [hc.machine, ← hc.process hq]
  exact (hdecides.of_ok ha).suspended

/-- A process that is lent the hart has been taken when the operation has answered. -/
theorem Obtains.lends (ho : m.Obtains h p (.monYield x q)) (hq : q ≠ p) :
    ∃ y deadline, (m.processes.get q).acquire? m.board.time = some y ∧
      ((respond h p).exec m).2.processes.get q = { y with deadline } := by
  obtain ⟨m₁, a, hc, ha⟩ := ho.carries
  have hdecides := (yieldTo_decides (h := h) x q m₁).map Operation.Answer.next
  rw [hc.machine, ← hc.process hq, ← hc.board]
  exact (hdecides.of_ok ha).lent

/-- Whoever does not wait when the operation of a call has answered finds the same in `t0` when the
call ends, although the hart may take it then. -/
theorem finish_awake (h : Hart) (number : Word) (r : Except Error Outcome) (hq : q ≠ p)
    (hw : (m.processes.get q).status.wait = none) :
    (((finish h p number r).exec m).2.processes.get q).status.wait = none ∧
      (((finish h p number r).exec m).2.processes.get q).registers =
        (m.processes.get q).registers := by
  rcases finish_cases h number r hq m with he | ⟨_, m₁, hf, hm₁⟩
  · rw [he]
    exact ⟨hw, rfl⟩
  rw [hf, ← hm₁]
  rw [← hm₁] at hw
  -- the hart may decide for the process, which is awake by then
  rcases nextProcess_cases h q m₁ with he | ⟨_, y, deadline, hy, he⟩
  · rw [he]
    exact ⟨hw, rfl⟩
  · obtain ⟨hs, hr⟩ := Process.acquire?_awake hw hy
    rw [he]
    exact ⟨by rw [hs]; rfl, hr⟩

def Tells (m : Machine) (q : Pid) (w : Word) : Prop :=
  (m.processes.get q).status.wait = none ∧ (m.processes.get q).register .t0 = w

/-- The rest of the call does not tell anybody else anything. -/
theorem Tells.handleCall {w : Word} (ht : ((respond h p).exec m).2.Tells q w) (hq : q ≠ p) :
    ((handleCall h p).exec m).2.Tells q w := by
  obtain ⟨hw, hr⟩ := finish_awake h ((m.processes.get p).register .t0)
    ((respond h p).exec m).1 hq ht.1
  rw [handleCall_exec]
  exact ⟨hw, by rw [Process.register, hr]; exact ht.2⟩

end Machine

/-! ## Endings -/

namespace System

variable {s s' : System}

/-- A process makes a call in a step, for an operation that is not refused. -/
structure Calls (s : System) (h : Hart) (p : Pid) (op : Operation) (s' : System) : Prop where
  runs : s.running h = some p
  obtains : s.machine.Obtains h p op
  after : s' = s.after h (Machine.handleCall h p)

/-- How the wait of a process on a channel ends in a step. -/
inductive Ends (s : System) (q : Pid) (c : ChannelWord) : Ending → System → Prop
  /-- A process sends it a message. -/
  | message {h : Hart} {p : Pid} {op : Operation} {s' : System} : s.Calls h p op s' →
      op.Finds h s.machine q c → Ends s q c .message s'
  /-- A process lends it the hart, and its time is up. -/
  | lent {h : Hart} {p : Pid} {x : Slot} {s' : System} : s.Calls h p (.monYield x q) s' →
      (s.machine.processes.get q).deadline ≤ s.machine.board.time → Ends s q c .timeout s'
  /-- A hart that looks for a process takes it, and its time is up. -/
  | taken {h : Hart} {a : Action (Option Pid)} {m : Machine} {b : Bank} :
      a.exec s.machine = (Machine.nextProcess h).exec m →
      m.processes.get q = { s.machine.processes.get q with bank := b } →
      (a.exec s.machine).1 = some q →
      (s.machine.processes.get q).deadline ≤ (a.exec s.machine).2.board.time →
      Ends s q c .timeout (s.after h a)
  /-- A process stops it. -/
  | suspension {h : Hart} {p : Pid} {x : Slot} {s' : System} :
      s.Calls h p (.monSuspend x q) s' → Ends s q c .suspension s'

/-- Whoever waits does not run. -/
theorem Accounted.ne_of_waiting (hs : s.Accounted) (hp : s.running h = some p)
    (hq : (s.machine.processes.get q).status = .waiting c) : q ≠ p := by
  rintro rfl
  have hheld := (hs.held q).2 ⟨h, hp⟩
  rw [Machine.Holds, hq] at hheld
  cases hheld

/-- However its wait ends, a process is told so. -/
theorem Ends.tells (he : s.Ends q c e s') (hs : s.Reachable roots)
    (hq : (s.machine.processes.get q).status = .waiting c) : s'.machine.Tells q (e.word c) := by
  have ha := hs.accounted
  cases he with
  | message hc hf =>
    obtain ⟨hp, ho, rfl⟩ := hc
    have hqp := ha.ne_of_waiting hp hq
    exact Machine.Tells.handleCall (ho.delivers hf hs.machine.lineal.strung hqp) hqp
  | lent hc =>
    obtain ⟨hp, ho, rfl⟩ := hc
    have hqp := ha.ne_of_waiting hp hq
    obtain ⟨y, deadline, hy, hget⟩ := ho.lends hqp
    obtain ⟨hstatus, ht⟩ := Process.told_of_acquire? hq (hs.forewarned q) hy
    apply Machine.Tells.handleCall _ hqp
    rw [Machine.Tells, hget]
    exact ⟨by rw [hstatus]; rfl, ht⟩
  | @taken h a m b hexec hm hanswer =>
    show (a.exec s.machine).2.Tells q _
    rw [hexec] at hanswer ⊢
    have hq' : (m.processes.get q).status = .waiting c := by rw [hm, hq]
    rcases Machine.nextProcess_cases h q m with hn | ⟨_, y, deadline, hy, hget⟩
    · -- whom a hart takes is held, so it was not left alone
      have hheld := ((Machine.nextProcess_hands h m).held q).2 (.inr hanswer)
      rw [Machine.Holds, hn, hq'] at hheld
      cases hheld
    · have hforewarned : (m.processes.get q).Forewarned := by
        rw [hm]
        exact (hs.forewarned q).bank b
      obtain ⟨hstatus, ht⟩ := Process.told_of_acquire? hq' hforewarned hy
      rw [Machine.Tells, hget]
      exact ⟨by rw [hstatus]; rfl, ht⟩
  | suspension hc =>
    obtain ⟨hp, ho, rfl⟩ := hc
    have hqp := ha.ne_of_waiting hp hq
    obtain ⟨hstatus, ht⟩ := Process.suspend_waiting hq
    apply Machine.Tells.handleCall _ hqp
    rw [Machine.Tells, ho.suspends hqp]
    exact ⟨by rw [hstatus]; rfl, ht⟩

/-- What becomes of a process that waits on a channel, in a step. -/
inductive Fares (s : System) (q : Pid) (c : ChannelWord) (s' : System) : Prop
  | waits {b : Bank} :
      s'.machine.processes.get q = { s.machine.processes.get q with bank := b } → Fares s q c s'
  /-- A monitor lets it go on, so that its time is up from now on. -/
  | resumed {h : Hart} {p : Pid} {x : Slot} {b : Bank} : s.Calls h p (.monResume x q) s' →
      s'.machine.processes.get q = { s.machine.processes.get q with deadline := 0, bank := b } →
      Fares s q c s'
  | ends {e : Ending} : s.Ends q c e s' → Fares s q c s'

/-- A hart that looks for a process leaves one that waits alone, or takes it when its time is up. -/
theorem Fares.of_nextProcess {a : Action (Option Pid)} {b : Bank}
    (hexec : a.exec s.machine = (Machine.nextProcess h).exec m)
    (hm : m.processes.get q = { s.machine.processes.get q with bank := b })
    (hq : (s.machine.processes.get q).status = .waiting c) :
    s.Fares q c (s.after h a) := by
  rcases Machine.nextProcess_cases h q m with hn | ⟨hanswer, y, deadline, hy, _⟩
  · refine .waits (b := b) ?_
    show (a.exec s.machine).2.processes.get q = _
    rw [hexec, hn, hm]
  · have hq' : (m.processes.get q).status = .waiting c := by rw [hm, hq]
    obtain ⟨hd, _⟩ := Process.acquire?_waiting hq' hy
    rw [hm] at hd
    rw [← hexec] at hanswer hd
    exact .ends (.taken hexec hm hanswer hd)

/-- A call of another process. -/
theorem Fares.of_call (hp : s.running h = some p) (hs : s.Reachable roots)
    (hq : (s.machine.processes.get q).status = .waiting c) :
    s.Fares q c (s.after h (Machine.handleCall h p)) := by
  have hqp := hs.accounted.ne_of_waiting hp hq
  have hfinish := Machine.finish_cases h ((s.machine.processes.get p).register .t0)
    ((Machine.respond h p).exec s.machine).1 hqp ((Machine.respond h p).exec s.machine).2
  rw [← Machine.handleCall_exec] at hfinish
  rcases Machine.respond_meets hs.machine.lineal.strung h hqp with
    ⟨b, hb⟩ | ⟨op, m₁, o, y, b, hc, ho, hresume, ht, hy⟩
  · rcases hfinish with hf | ⟨_, m₁, hf, hm₁⟩
    · exact .waits (hf.trans hb)
    · exact .of_nextProcess hf (hm₁.trans hb) hq
  have hcalls : s.Calls h p op (s.after h (Machine.handleCall h p)) :=
    ⟨hp, ⟨hc.requested, o, ho⟩, rfl⟩
  have hprocess := hc.process hqp
  have hq₁ : (m₁.processes.get q).status = .waiting c := by rw [hprocess, hq]
  cases ht with
  | message hop hsends hpid =>
    subst hpid
    have hf := Operation.Finds.of_sends hop hsends
    have hwaits := hf.waiting
    rw [hq₁] at hwaits
    cases hwaits
    exact .ends (.message hcalls
      (hf.congr hc.table.symm hc.registry.symm hc.board.symm hprocess.symm))
  | suspend => exact .ends (.suspension hcalls)
  | @resume x =>
    rcases hfinish with hf | ⟨hdone, _⟩
    · -- being let go on, without having been stopped, leaves the wait as it is
      refine .resumed (b := b) hcalls (hf.trans ?_)
      rw [hy, hprocess, Process.resume_waiting hq]
    · rw [hresume ⟨x, rfl⟩] at ho
      exact absurd ho hdone
  | lend _ hx =>
    rw [hprocess, hc.board] at hx
    obtain ⟨hd, _⟩ := Process.acquire?_waiting hq hx
    exact .ends (.lent hcalls hd)
  | write he =>
    have hstopped := he.stopped
    rw [Process.isStopped, beq_iff_eq, hq₁] at hstopped
    cases hstopped

/-- In every step a process that waits goes on waiting, or its wait ends. -/
theorem Step.fares (hstep : s.Step s') (hs : s.Reachable roots)
    (hq : (s.machine.processes.get q).status = .waiting c) : s.Fares q c s' := by
  have ha := hs.accounted
  -- a step that is not made for somebody else passes by whoever waits
  cases hstep with
  | dispatch h => exact .of_nextProcess (a := Machine.nextProcess h) rfl rfl hq
  | call h p hp => exact .of_call hp hs hq
  | trap h p t hp =>
    exact .waits (Machine.handleTrap_solo p t s.machine q (ha.ne_of_waiting hp hq))
  | timer h p hp =>
    have hgiven := Machine.release_solo p s.machine q (ha.ne_of_waiting hp hq)
    exact .of_nextProcess (a := Machine.handleTimer h p) rfl hgiven hq
  | compute h p rs hp =>
    have hsolo := Machine.modifyProcess_solo p (fun x => { x with registers := rs }) s.machine
    exact .waits (hsolo q (ha.ne_of_waiting hp hq))
  | board => exact .waits rfl

/-- No message is delivered to a process that sleeps. -/
theorem Ends.ne_sleepChannel (he : s.Ends q c e s') (hm : e = .message) : c ≠ sleepChannel := by
  subst hm
  cases he with
  | message _ hf =>
    obtain ⟨_, _, k, _, _, _, rfl, _⟩ := hf
    exact k.chan_ne_sleepChannel

/-- What a process is told says how its wait has ended. -/
theorem Ends.iff_told (he : s.Ends q c e s') (hs : s.Reachable roots)
    (hq : (s.machine.processes.get q).status = .waiting c) (e' : Ending)
    (hc : e' = .message → c ≠ sleepChannel) :
    (s'.machine.processes.get q).register .t0 = e'.word c ↔ s.Ends q c e' s' := by
  constructor
  · intro ht
    have hw := (he.tells hs hq).2.symm.trans ht
    rwa [← Ending.word_injective hw he.ne_sleepChannel hc]
  · exact fun he' => (he'.tells hs hq).2

/-- `p`, whose capability in slot 2 monitors `q`, gives `q` its time in slot 1 and its server in
slot 3, resumes `q` and lends it the hart, and `q` waits for a client. -/
def serving (p q : Pid) : List (Pid × List (Register × Word)) :=
  let giver := BitVec.ofNat 64 p
  let server := BitVec.ofNat 64 q
  [(p, [(.t0, 19), (.a0, 2), (.a1, giver), (.a2, 1), (.a3, server)]),
    (p, [(.t0, 19), (.a0, 2), (.a1, giver), (.a2, 3), (.a3, server), (.a4, 1)]),
    (p, [(.t0, 13), (.a0, 2), (.a1, server)]), (p, [(.t0, 15), (.a0, 2), (.a1, server)]),
    (q, [(.t0, 23), (.a0, 1), (.a1, 2)])]

end System

/-- A process that waits for a message has in `t0` that nobody came, and a process that sleeps that
it succeeded. When the wait is over, it is by a message, because the time is up or because the
process was stopped, and the process finds success exactly after a message, that nobody came exactly
if the time was up, and that it was stopped exactly if it was; but who sleeps until the time is up
finds success. -/
theorem told_how_wait_ended {s : System} (hs : s.Reachable roots) :
    (∀ q c, (s.machine.processes.get q).status.phase = .blocked c false →
      (s.machine.processes.get q).register .t0 =
        if c = sleepChannel then 0 else Error.timeout.word) ∧
    ∀ q c s', s.Step s' → (s.machine.processes.get q).status.phase = .blocked c false →
      (s'.machine.processes.get q).status.phase ≠ .blocked c false →
      (∃ e, s.Ends q c e s') ∧
      (c ≠ sleepChannel →
        ((s'.machine.processes.get q).register .t0 = 0 ↔ s.Ends q c .message s') ∧
        ((s'.machine.processes.get q).register .t0 = Error.timeout.word ↔
          s.Ends q c .timeout s') ∧
        ((s'.machine.processes.get q).register .t0 = Error.suspended.word ↔
          s.Ends q c .suspension s')) ∧
      (c = sleepChannel →
        ((s'.machine.processes.get q).register .t0 = 0 ↔ s.Ends q c .timeout s') ∧
        ((s'.machine.processes.get q).register .t0 = Error.suspended.word ↔
          s.Ends q c .suspension s')) := by
  refine ⟨fun q c hq => ?_, fun q c s' hstep hq hne => ?_⟩
  · exact hs.forewarned q c (by rw [Status.waiting_of_phase hq]; rfl)
  have hwaits := Status.waiting_of_phase hq
  -- the wait is over, so it has ended in one of the ways
  obtain ⟨e, he⟩ : ∃ e, s.Ends q c e s' := by
    cases hstep.fares hs hwaits with
    | waits hget =>
      rw [hget] at hne
      exact absurd hq hne
    | resumed _ hget =>
      rw [hget] at hne
      exact absurd hq hne
    | ends he => exact ⟨_, he⟩
  have htimeout := he.iff_told hs hwaits .timeout (by rintro ⟨⟩)
  have hsuspension := he.iff_told hs hwaits .suspension (by rintro ⟨⟩)
  rw [Ending.word, forewarning] at htimeout
  refine ⟨⟨e, he⟩, fun hc => ⟨?_, ?_, hsuspension⟩, fun hc => ⟨?_, hsuspension⟩⟩
  · exact he.iff_told hs hwaits .message fun _ => hc
  · rwa [if_neg hc] at htimeout
  · rwa [if_pos hc] at htimeout

/-- A server that waits on channel 3 is sent a message, and told so. -/
theorem told_how_wait_ended_sent : ∃ s s' : System,
    s.Reachable [.wholeTime 0 0 32, .wholeTime 0 32 64, .wholeMonitor 0 8,
      .socket ⟨3, .keep, .ofBits 15, 0⟩, .socket ⟨3, .keep, .ofBits 15, 5⟩] ∧
      s.Step s' ∧ (s.machine.processes.get 1).status.phase = .blocked 3 false ∧
      (s.machine.processes.get 1).register .t0 = Error.timeout.word ∧
      (s'.machine.processes.get 1).status.phase ≠ .blocked 3 false ∧
      (s'.machine.processes.get 1).register .t0 = 0 ∧ s.Ends 1 3 .message s' := by
  let roots : List Capability := [.wholeTime 0 0 32, .wholeTime 0 32 64, .wholeMonitor 0 8,
    .socket ⟨3, .keep, .ofBits 15, 0⟩, .socket ⟨3, .keep, .ofBits 15, 5⟩]
  obtain ⟨run, he⟩ : ∃ run, run = System.script ((Machine.boot roots).exec .initial).2 0
    (System.serving 0 1 ++ [(0, [(.t0, 22), (.a0, 4), (.a1, 5)])]) := ⟨_, rfl⟩
  have hr : System.Run roots run 13 := he ▸ System.Run.of_script rfl (by decide +kernel)
  -- process 1 serves channel 3, and the last step sends it a message
  have hs : (run 12).Reachable roots := hr.init.reachable
  have hstep : (run 12).Step (run 13) := hr.step 12 (by decide)
  have hq : ((run 12).machine.processes.get 1).status.phase = .blocked 3 false := by
    rw [he]; decide +kernel
  have hne : ((run 13).machine.processes.get 1).status.phase ≠ .blocked 3 false := by
    rw [he]; decide +kernel
  have ht : ((run 13).machine.processes.get 1).register .t0 = 0 := by rw [he]; decide +kernel
  obtain ⟨htold, hended⟩ := told_how_wait_ended hs
  obtain ⟨_, hmessage, _⟩ := hended 1 3 (run 13) hstep hq hne
  exact ⟨run 12, run 13, hs, hstep, hq, htold 1 3 hq, hne, ht, (hmessage (by decide)).1.1 ht⟩

end SepKernel
