import SepKernel.Proofs.Channel.Conveyance
import SepKernel.Proofs.Channel.Listing
import SepKernel.Proofs.Harts.Running

/-!
# What those who wait are told in advance

When a process begins to wait it is told at once how the wait ends if nothing comes of it: whoever
waits for a message has in `t0` that nobody came, and whoever sleeps has success there. Nobody
writes that while the process waits, so that nothing needs to be done about it when the time is up.
-/

namespace SepKernel

variable {m m' m₁ : Machine} {roots : List Capability} {h : Hart} {p q : Pid} {s : Slot}
  {op : Operation} {c : ChannelWord} {a b : Process}

/-- What a process that waits on a channel is told in advance. -/
def forewarning (c : ChannelWord) : Word :=
  if c = sleepChannel then 0 else Error.timeout.word

/-- No socket has the channel that sleepers wait on. -/
theorem Socket.chan_ne_sleepChannel (k : Socket) : k.chan.setWidth 32 ≠ sleepChannel := by
  intro hk
  have hlt : (k.chan.setWidth 32).toNat < 2 ^ 16 := by
    rw [BitVec.toNat_setWidth]
    exact Nat.lt_of_le_of_lt (Nat.mod_le _ _) k.chan.isLt
  rw [hk] at hlt
  exact absurd hlt (by decide)

/-! ## Processes -/

namespace Process

/-- If the process waits, it has been told in advance how the wait ends if nothing comes of it. -/
def Forewarned (a : Process) : Prop :=
  ∀ c, a.status.wait = some c → a.register .t0 = forewarning c

/-- Whoever does not wait need not be told. -/
theorem Forewarned.of_awake (ha : a.status.wait = none) : a.Forewarned := by
  intro c hw
  rw [ha] at hw
  cases hw

/-- Whoever does not begin to wait, and keeps its registers, stays forewarned. -/
theorem Forewarned.congr (ha : a.Forewarned)
    (hw : ∀ c, b.status.wait = some c → a.status.wait = some c)
    (hr : b.registers = a.registers) : b.Forewarned := by
  intro c hb
  rw [register, hr]
  exact ha c (hw c hb)

theorem Forewarned.bank (ha : a.Forewarned) (bank : Bank) : Forewarned { a with bank } :=
  ha

/-- Being suspended ends a wait with another word, or changes nothing about it. -/
theorem Forewarned.suspend (ha : a.Forewarned) : a.suspend.Forewarned := by
  -- if it still waits, it was not told anything
  by_cases hw : a.suspend.status.wait = none
  · exact .of_awake hw
  · refine ha.congr (fun _ => wait_of_suspend) ?_
    simp only [Process.suspend] at hw ⊢
    split at hw
    · exact absurd rfl hw
    · next hs => rw [if_neg hs]

/-- So does being given back, which may complete a suspension. -/
theorem Forewarned.release (ha : a.Forewarned) : a.release.Forewarned := by
  by_cases hw : a.release.status.wait = none
  · exact .of_awake hw
  · refine ha.congr (fun _ => wait_of_release) ?_
    simp only [Process.release] at hw ⊢
    split at hw
    · exact absurd rfl hw
    · next hs => rw [if_neg hs]

/-- Whoever goes to sleep has been told that it succeeds. -/
theorem Forewarned.sleep (ha : a.status.wait = none) (time : Nat) :
    (a.reportSuccess.sleep time).Forewarned := by
  intro c hw
  have hc : c = sleepChannel := by
    simpa [Process.sleep, await, reportSuccess, setRegister, ha, eq_comm] using hw
  subst hc
  simp [Process.sleep, await, reportSuccess, setRegister, register, forewarning]

end Process

open Process (Forewarned)

/-- Whoever is touched by an operation stays forewarned. -/
theorem Operation.Touches.forewarned {x : Process} (ht : op.Touches h m q x)
    (hq : (m.processes.get q).Forewarned) : x.Forewarned := by
  cases ht with
  | message =>
    apply Forewarned.of_awake
    unfold Machine.Delivery.received
    split <;> rfl
  | suspend => exact hq.suspend
  | resume => exact hq.congr (fun _ => id) rfl
  | lend _ hx => exact .of_awake (by rw [(Process.acquire?_status hx).2]; rfl)
  | write he =>
    apply Forewarned.of_awake
    -- only a process that is stopped can be written to, and then it does not wait
    have hstopped := he.stopped
    rw [Process.isStopped, beq_iff_eq] at hstopped
    rw [Process.setRegister, hstopped]
    rfl

/-! ## Machines -/

namespace Machine

open Action.Keeps

def Forewarned (m : Machine) : Prop :=
  ∀ p, (m.processes.get p).Forewarned

/-- Only the processes matter. -/
theorem Forewarned.of_processes (hm : m.Forewarned) (he : m'.processes = m.processes) :
    m'.Forewarned := by
  intro p
  rw [he]
  exact hm p

/-- It is enough to look at the process that changes. -/
theorem forewarned_put (hm : m.Forewarned) (ha : a.Forewarned) :
    ({ m with processes := m.processes.put p a } : Machine).Forewarned := by
  intro q
  show ((m.processes.put p a).get q).Forewarned
  rw [Processes.get_put]
  split
  · exact ha
  · exact hm q

/-- Everybody but one is as before. -/
theorem Forewarned.solo (hm : m.Forewarned) (hs : Solo p m m')
    (hp : (m'.processes.get p).Forewarned) : m'.Forewarned := by
  intro q
  by_cases hq : q = p
  · rw [hq]
    exact hp
  · rw [hs q hq]
    exact hm q

end Machine

/-- Asides change no process. -/
theorem Aside.forewarned (ha : Aside m m') : Preserves Machine.Forewarned m m' :=
  fun hm => hm.of_processes (by rw [ha.kernel])

namespace Machine

theorem modifyProcess_forewarned {f : Process → Process}
    (hf : ∀ x : Process, x.Forewarned → (f x).Forewarned) :
    (modifyProcess p f).Keeps (Preserves Forewarned) :=
  fun _ hm => forewarned_put hm (hf _ (hm p))

theorem expect_forewarned (f : Fault) (b : Bool) : (expect f b).Keeps (Preserves Forewarned) :=
  expect_keeps (fun _ _ hm => hm) f b

/-- A process that is given back stays forewarned. -/
theorem release_forewarned (p : Pid) : (release p).Keeps (Preserves Forewarned) :=
  release_keeps Aside.forewarned expect_forewarned
    (modifyProcess_forewarned fun _ => Process.Forewarned.release)

/-- Whoever is taken does not wait any more. -/
theorem nextProcess_forewarned (h : Hart) : (nextProcess h).Keeps (Preserves Forewarned) :=
  nextProcess_keeps Aside.forewarned expect_forewarned (fun _ _ hm => hm)
    (fun hx _ hm => forewarned_put hm (.of_awake (by rw [(Process.acquire?_status hx).2]; rfl))) h

theorem lock_forewarned (h : Hart) : (lock h).Keeps (Preserves Forewarned) :=
  lock_keeps fun _ hm => hm

/-! ### Waiting for a message -/

/-- Whoever begins to wait over a socket has been told that nobody came. -/
theorem Enters.forewarned {k : Socket} (he : Enters k p m m')
    (hp : (m.processes.get p).status.wait = none)
    (ht : (m'.processes.get p).register .t0 = Error.timeout.word) :
    (m'.processes.get p).Forewarned := by
  intro c hw
  have hc : k.chan.setWidth 32 = c := by
    rw [he.status] at hw
    simpa [Process.await, hp] using hw
  rw [ht, forewarning, if_neg (hc ▸ k.chan_ne_sleepChannel)]

/-- A server is told, as it begins to wait, that nobody came. -/
theorem awaitClient_forewarned {s b : Slot} {k : Socket}
    (hs : (m.processes.get s.owner).status.wait = none) :
    (((awaitClient k s.owner b).exec m).2.processes.get s.owner).Forewarned :=
  (awaitClient_enters k s.owner b m).forewarned hs
    ((awaitClient_lingers trivial s b k m).told trivial)

/-- A client is told the same. -/
theorem awaitAnswer_forewarned {s b : Slot} {k : Socket} {lent : Option Pid}
    (hs : (m.processes.get s.owner).status.wait = none) :
    (((awaitAnswer k s.owner b lent).exec m).2.processes.get s.owner).Forewarned :=
  (awaitAnswer_enters k s.owner b lent m).forewarned hs
    ((awaitAnswer_lingers trivial s b k lent m).told trivial)

end Machine

/-- Whoever waits at the end of an operation of its own is forewarned. -/
theorem Operation.Effect.forewarned_of_waits (he : op.Effect h m m') (hl : m.table.Strung)
    (hs : op.WaitsAt s) (hidle : (m.processes.get s.owner).status.wait = none) :
    (m'.processes.get s.owner).Forewarned := by
  -- whoever begins to wait is told before the operation ends
  induction he with
  | receive h₁ =>
    obtain rfl := hs
    exact Machine.awaitClient_forewarned (by rw [h₁.calm, hidle])
  | call hsends =>
    obtain rfl := hs
    exact Machine.awaitAnswer_forewarned (hsends.idle hl hidle)
  | replyReceive _ _ _ _ ha =>
    obtain rfl := hs
    exact Machine.awaitClient_forewarned (ha.idle hl hidle)
  | exchange _ ih => exact ih hs
  | exchangeBack _ ih => exact ih hs
  | _ => cases hs

/-- An operation keeps everybody forewarned, unless its caller waits already. -/
theorem Operation.Effect.forewarned (he : op.Effect h m m') (hl : m.table.Strung)
    (hidle : (m.processes.get op.caller).status.wait = none) (hm : m.Forewarned) :
    m'.Forewarned := by
  intro q
  -- the caller may begin to wait; everybody else is met at most by a change
  by_cases hw : ∃ s, op.WaitsAt s ∧ q = s.owner
  · obtain ⟨s, hs, rfl⟩ := hw
    rw [caller_of_waitsAt hs] at hidle
    exact he.forewarned_of_waits hl hs hidle
  · obtain ⟨x, b, rfl | ht, hx⟩ := he.meets hl fun s hs hq => hw ⟨s, hs, hq⟩
    · rw [hx]
      exact (hm q).bank b
    · rw [hx]
      exact (ht.forewarned (hm q)).bank b

/-! ## Calls -/

namespace Machine

/-- Of the calls that concern the caller alone, only one lets it wait. -/
theorem performOwn_forewarned (h : Hart) (c : OwnCall) (hm : m.Forewarned)
    (hp : (m.processes.get p).status.wait = none) :
    ((performOwn h p c).exec m).2.Forewarned := by
  apply hm.solo (performOwn_solo h p c m)
  cases c with
  | getInfo i => cases i <;> exact hm p
  | readRegister => exact hm p
  | writeRegister => exact .of_awake (by simpa [performOwn, Process.setRegister] using hp)
  | sync yields =>
    cases yields with
    | false => exact hm p
    | true =>
      exact .of_awake (by
        simpa [performOwn, Process.reportSuccess, Process.setRegister] using hp)
  | sleep time =>
    by_cases ht : m.board.time < time
    · -- the time is to come, so the process sleeps
      have hget : ((performOwn h p (.sleep time)).exec m).2.processes.get p =
          (m.processes.get p).reportSuccess.sleep time := by
        simp [performOwn, ht]
      rw [hget]
      exact .sleep hp time
    · apply Process.Forewarned.of_awake
      simpa [performOwn, ht, Process.reportSuccess, Process.setRegister] using hp

/-- Until the operation of a call has answered, everybody stays forewarned. -/
theorem respond_forewarned (h : Hart) (hl : m.table.Strung) (hm : m.Forewarned)
    (hp : (m.processes.get p).status.wait = none) : ((respond h p).exec m).2.Forewarned := by
  -- stepping over its instruction does not let the caller wait
  have hstepped : ∀ {m₁ : Machine}, m₁.toKernel = (m.stepped p).toKernel →
      m₁.Forewarned ∧ (m₁.processes.get p).status.wait = none := by
    intro m₁ hk
    have hwait : (m₁.processes.get p).status.wait = none := by
      rw [hk, stepped, Processes.get_put_self]
      exact hp
    exact ⟨hm.solo (stepped_solo hk) (.of_awake hwait), hwait⟩
  have hresponds := respond_responds h p m
  generalize (respond h p).exec m = r at hresponds ⊢
  obtain ⟨_, _⟩ := r
  cases hresponds with
  | unread => exact (hstepped rfl).1
  | own hk => exact performOwn_forewarned h _ (hstepped hk).1 (hstepped hk).2
  | locked hk => exact lock_forewarned h _ (hstepped hk).1
  | @carried op m₁ hc =>
    obtain ⟨hm₁, hp₁⟩ := hstepped hc.kernel
    rw [hc.machine]
    rcases op.aside_or_effect h m₁ with ha | ⟨he, _⟩
    · exact ha.forewarned hm₁
    · exact he.forewarned (by rwa [hc.table]) (by rwa [hc.for.1]) hm₁

/-- The caller does not wait when its operation has answered, unless it is said to. -/
theorem wait_of_ended {r : Except Error Outcome}
    (hr : Ended Outcome.taken (Outcome.waiting p) r m m₁) (hp : m.Holds p) (ha : m.Awake p) :
    (m₁.processes.get p).status.wait = none ∨ r = .ok .schedule ∨
      ∃ q, r = .ok (.next (.blocked q)) := by
  have hawake : ∀ {t w : Option Pid}, Hands t w m m₁ → w ≠ some p →
      (m₁.processes.get p).status.wait = none :=
    fun hh hw => hh.awake p hw ha ((hh.held p).2 (.inl hp))
  -- only an outcome that blocks, or that asks the scheduler, may let the caller wait
  cases r with
  | error => exact .inl (hawake hr (by simp))
  | ok o =>
    cases o with
    | done => exact .inl (hawake hr (by rintro ⟨⟩))
    | value => exact .inl (hawake hr (by rintro ⟨⟩))
    | schedule => exact .inr (.inl rfl)
    | next n =>
      cases n with
      | caller => exact .inl (hawake hr (by rintro ⟨⟩))
      | yield => exact .inl (hawake hr (by rintro ⟨⟩))
      | blocked q => exact .inr (.inr ⟨q, rfl⟩)

/-- Whoever waits is told nothing else when its call ends. -/
theorem conclude_forewarned (number : Word) {r : Except Error Outcome} (hm : m.Forewarned)
    (hp : (m.processes.get p).status.wait = none ∨ r = .ok .schedule ∨
      ∃ q, r = .ok (.next (.blocked q))) : ((conclude p number r).exec m).2.Forewarned := by
  rcases hp with hp | rfl | ⟨q, rfl⟩
  · apply hm.solo (conclude_solo p number r m)
    apply Process.Forewarned.of_awake
    rw [conclude_calm p number r m p, hp]
  · exact hm
  · exact hm

/-- A call of a process that runs keeps everybody forewarned. -/
theorem handleCall_forewarned (h : Hart) (hl : m.table.Strung) (hm : m.Forewarned)
    (hp : m.Holds p) (ha : m.Awake p) : ((handleCall h p).exec m).2.Forewarned := by
  have hresponded := respond_forewarned h hl hm (ha hp)
  have hconcluded := conclude_forewarned ((m.processes.get p).register .t0) hresponded
    (wait_of_ended (respond_ended h p m) hp ha)
  rw [handleCall_exec, finish, Action.exec_bind]
  -- what is left is whom the hart goes on with
  generalize (conclude p _ ((respond h p).exec m).1).exec _ = e at hconcluded ⊢
  obtain ⟨next, m₂⟩ := e
  have hreleased := release_forewarned p m₂ hconcluded
  cases next with
  | none => exact nextProcess_forewarned h _ hreleased
  | some q =>
    dsimp only
    split
    · exact hconcluded
    · exact hreleased

end Machine

/-! ## Systems -/

namespace System

variable {s s' : System}

/-- Whatever a process does that does not wait, everybody stays forewarned. -/
theorem forewarned_of_process {f : Process → Process} (hs : s.Accounted)
    (hp : s.running h = some p) (hf : ∀ x, (f x).status = x.status) (hm : s.machine.Forewarned) :
    ((Machine.modifyProcess p f).exec s.machine).2.Forewarned := by
  apply hm.solo (Machine.modifyProcess_solo p f s.machine)
  apply Process.Forewarned.of_awake
  rw [Machine.modifyProcess_calm p hf s.machine p]
  exact hs.awake p ((hs.held p).2 ⟨h, hp⟩)

/-- A step keeps everybody forewarned: whoever acts does not wait, and does not write to those who
do. -/
theorem Step.forewarned (hstep : s.Step s') (hs : s.Reachable roots)
    (hm : s.machine.Forewarned) : s'.machine.Forewarned := by
  have ha := hs.accounted
  cases hstep with
  | dispatch h => exact Machine.nextProcess_forewarned h _ hm
  | call h p hp =>
    exact Machine.handleCall_forewarned h hs.machine.lineal.strung hm ((ha.held p).2 ⟨h, hp⟩)
      (ha.awake p)
  | trap h p t hp =>
    have htrapped := forewarned_of_process (f := fun x =>
      { x with registers := x.registers.deliver t }) ha hp (fun _ => rfl) hm
    exact htrapped.of_processes rfl
  -- a process that is given back may be suspended, and then its wait is over
  | timer h p => exact Machine.nextProcess_forewarned h _ (Machine.release_forewarned p _ hm)
  | compute h p rs hp =>
    exact forewarned_of_process (f := fun x => { x with registers := rs }) ha hp (fun _ => rfl) hm
  | board => exact hm

/-- Whoever waits has been told in advance how the wait ends if nothing comes of it. -/
theorem Reachable.forewarned (hs : s.Reachable roots) : s.machine.Forewarned := by
  induction hs with
  | boot hb => exact fun p => .of_awake (boot_awake hb p)
  | step hs hstep ih => exact hstep.forewarned hs ih

end System
end SepKernel
