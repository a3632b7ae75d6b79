import SepKernel.Proofs.Channel.Buffer
import SepKernel.Proofs.Machine.Others
import SepKernel.Proofs.Machine.Refusal

/-!
# Separation

A system call leaves the registers of all processes but its caller alone, and the capabilities in
their slots, with few exceptions. The receiver of a message finds it in its registers, and the
capability that goes along in the slot that it has kept for it. A monitor lets its owner write a
register of a stopped process, and move, load and unload its capabilities; and it ends the wait of a
process that is stopped. A wait that is over is ended when its process is run. And a capability may
be taken back by one from which it was derived.
-/

namespace SepKernel

variable {m m' m₁ : Machine} {roots : List Capability} {h : Hart} {p q : Pid} {x s : Slot}
  {op : Operation} {msg : Message}

/-! ## What a call asks for -/

theorem SharedCall.operation_for (c : SharedCall) (p : Pid) : (c.operation p).For p := by
  cases c <;> simp [operation, Operation.For, Operation.caller, Operation.target?]

/-- The calls that send. -/
theorem SharedCall.operation_of_sending {c : SharedCall}
    (hs : (c.operation p).sending? = some (s, msg)) :
    c.operation p = .send s msg ∨ c.operation p = .sendReceive s msg := by
  cases c <;> cases hs
  · exact .inl rfl
  · exact .inr rfl

namespace Machine

theorem performOwn_solo (h : Hart) (p : Pid) (c : OwnCall) : (performOwn h p c).Keeps (Solo p) :=
  performOwn_keeps Aside.solo expect_solo (fun _ => modifyProcess_solo p _) (modifyProcess_solo p _)
    (fun _ => modifyProcess_solo p _) h c

theorem lock_solo (h : Hart) : (lock h).Keeps (Solo p) :=
  lock_keeps (.modify fun _ => .of_processes rfl)

theorem handleTrap_solo (p : Pid) (t : Trap) : (handleTrap p t).Keeps (Solo p) :=
  .bind (note_solo _) fun _ => .bind (modifyProcess_solo p _) fun _ => .pure _

/-- Taking the lock changes no process. -/
theorem lock_processes (h : Hart) (m : Machine) :
    ((lock h).exec m).2.processes = m.processes := by
  unfold lock
  rw [Attempt.exec_bind_ok Attempt.exec_get]
  split <;> rfl

structure Carries (h : Hart) (p : Pid) (m : Machine) (op : Operation) (m₁ : Machine) : Prop where
  requested : m.requested? p = some op
  shared : ∃ c : SharedCall, op = c.operation p
  kernel : m₁.toKernel = (m.stepped p).toKernel
  board : m₁.board = m.board
  answer : ((respond h p).exec m).1 = ((op.perform h).exec m₁).1.map (·.outcome)
  machine : ((respond h p).exec m).2 = ((op.perform h).exec m₁).2

/-- How the first part of a call comes about: it cannot be read, it concerns the caller alone, the
lock is not to be had, or its operation is carried out. -/
inductive Responds (h : Hart) (p : Pid) (m : Machine) : Except Error Outcome → Machine → Prop
  | unread (e : Error) : Responds h p m (.error e) (m.stepped p)
  | own {c : OwnCall} {m₁ : Machine} : m₁.toKernel = (m.stepped p).toKernel → m₁.board = m.board →
      Responds h p m (.ok ((performOwn h p c).exec m₁).1) ((performOwn h p c).exec m₁).2
  | locked {m₁ : Machine} : m₁.toKernel = (m.stepped p).toKernel → m₁.board = m.board →
      Responds h p m (.error .preempted) ((lock h).exec m₁).2
  | carried {op : Operation} {m₁ : Machine} : Carries h p m op m₁ → m.lockHolder = none →
      Responds h p m ((respond h p).exec m).1 ((respond h p).exec m).2

/-- A call for an operation is carried out, unless the lock is not to be had. -/
theorem respond_shared (h : Hart) {c : SharedCall}
    (hd : Syscall.decode ((m.processes.get p).register .t0)
      (m.processes.get p).registers.arguments = .ok (.shared c)) :
    (m.lockHolder = none ∧ ∃ m₁, Carries h p m (c.operation p) m₁) ∨
      ∃ m₁, m₁.toKernel = (m.stepped p).toKernel ∧ m₁.board = m.board ∧
        (respond h p).exec m = (.error .preempted, ((lock h).exec m₁).2) := by
  obtain ⟨m₁, he⟩ : ∃ m₁, m₁ = ((note (.called p (.shared c))).exec (m.stepped p)).2 := ⟨_, rfl⟩
  have hkernel : m₁.toKernel = (m.stepped p).toKernel := by rw [he]; rfl
  have hboard : m₁.board = m.board := by rw [he]; rfl
  have hholder : m₁.lockHolder = m.lockHolder := by rw [he]; rfl
  have hrun : (respond h p).exec m = ((((c.operation p).run h).exec m₁).1.map (·.outcome),
      (((c.operation p).run h).exec m₁).2) := by
    rw [respond_exec, attemptCall_exec hd, ← he, perform_shared]
  -- the lock is free, or the call is interrupted while it waits
  rcases lock_cases h m₁ with hl | hl
  · rw [Operation.run, Attempt.exec_bind_ok hl] at hrun
    exact .inl ⟨hholder ▸ lockHolder_of_lock hl, m₁, requested?_eq hd, ⟨c, rfl⟩, hkernel, hboard,
      by rw [hrun], by rw [hrun]⟩
  · rw [Operation.run, Attempt.exec_bind_error (Prod.ext hl rfl)] at hrun
    exact .inr ⟨m₁, hkernel, hboard, hrun⟩

/-- The four ways in which a call is responded to. -/
theorem respond_responds (h : Hart) (p : Pid) (m : Machine) :
    Responds h p m ((respond h p).exec m).1 ((respond h p).exec m).2 := by
  -- unread, of one's own, or shared: only the last is carried out under the lock
  cases hd : Syscall.decode ((m.processes.get p).register .t0)
    (m.processes.get p).registers.arguments with
  | error e =>
    rw [respond_exec, attemptCall, hd]
    exact .unread e
  | ok c =>
    cases c with
    | own c =>
      obtain ⟨m₁, he⟩ : ∃ m₁, m₁ = ((note (.called p (.own c))).exec (m.stepped p)).2 := ⟨_, rfl⟩
      have hkernel : m₁.toKernel = (m.stepped p).toKernel := by rw [he]; rfl
      have hboard : m₁.board = m.board := by rw [he]; rfl
      rw [respond_exec, attemptCall_exec hd, ← he]
      exact .own hkernel hboard
    | shared c =>
      rcases respond_shared h hd with ⟨hfree, m₁, hc⟩ | ⟨m₁, hkernel, hboard, he⟩
      · exact .carried hc hfree
      · rw [he]
        exact .locked hkernel hboard

/-- The caller alone steps over its instruction. -/
theorem stepped_solo (hk : m₁.toKernel = (m.stepped p).toKernel) : Solo p m m₁ := by
  intro q hq
  rw [hk]
  exact Processes.get_put_of_ne _ _ hq.symm

/-- Before a call has carried out its operation, or if there is none, it concerns its caller. -/
theorem respond_cases (h : Hart) (p : Pid) (m : Machine) :
    (Solo p m ((respond h p).exec m).2 ∧ ((respond h p).exec m).2.table = m.table) ∨
      ∃ op m₁, Carries h p m op m₁ := by
  have htable : ∀ {m₁ : Machine}, m₁.toKernel = (m.stepped p).toKernel → m₁.table = m.table :=
    fun hk => by rw [hk]; rfl
  have hresponds := respond_responds h p m
  generalize (respond h p).exec m = r at hresponds ⊢
  obtain ⟨_, _⟩ := r
  -- only what is carried out goes beyond the caller
  cases hresponds with
  | unread => exact .inl ⟨stepped_solo rfl, rfl⟩
  | own hk =>
    exact .inl ⟨trans_of (Solo p) (stepped_solo hk) (performOwn_solo h p _ _),
      (performOwn_hushed h p _ _).table.trans (htable hk)⟩
  | locked hk =>
    exact .inl ⟨trans_of (Solo p) (stepped_solo hk) (lock_solo h _),
      (lock_hushed h _).table.trans (htable hk)⟩
  | carried hc => exact .inr ⟨_, _, hc⟩

theorem Carries.for (hc : Carries h p m op m₁) : op.For p := by
  obtain ⟨c, rfl⟩ := hc.shared
  exact c.operation_for p

/-- A call that sends was asked for. -/
theorem Carries.sends (hc : Carries h p m op m₁) (hs : op.sending? = some (s, msg)) :
    m.requested? p = some (.send s msg) ∨ m.requested? p = some (.sendReceive s msg) := by
  obtain ⟨c, rfl⟩ := hc.shared
  rw [hc.requested]
  exact (SharedCall.operation_of_sending hs).imp (congrArg some) (congrArg some)

theorem Carries.process (hc : Carries h p m op m₁) (hq : q ≠ p) :
    m₁.processes.get q = m.processes.get q := by
  rw [hc.kernel]
  exact Processes.get_put_of_ne _ _ hq.symm

theorem Carries.table (hc : Carries h p m op m₁) : m₁.table = m.table := by
  rw [hc.kernel]
  rfl

theorem Carries.registry (hc : Carries h p m op m₁) : m₁.registry = m.registry := by
  rw [hc.kernel]
  rfl

/-- What the monitor may edit is the same before and after the caller has stepped over its
instruction. -/
theorem Carries.edits (hc : Carries h p m op m₁) (hq : q ≠ p) (he : m₁.Edits s q) :
    m.Edits s q := by
  obtain ⟨hcontrols, hstopped⟩ := he
  rw [hc.table] at hcontrols
  rw [hc.process hq] at hstopped
  exact ⟨hcontrols, hstopped⟩

/-! ## Other processes -/

/-- Letting a process go on answers success. -/
theorem resume_answer {a : Operation.Answer}
    (ha : (((Operation.monResume s q).perform h).exec m).1 = .ok a) : a = .done := by
  rw [Operation.perform, Attempt.exec_bind] at ha
  split at ha
  · cases ha
    rfl
  · cases ha

/-- Until the operation of a call has answered, nothing becomes of another process, or the operation
touches it and is not refused; its protection registers aside. -/
theorem respond_meets (hl : m.table.Strung) (h : Hart) (hq : q ≠ p) :
    (∃ b, ((respond h p).exec m).2.processes.get q = { m.processes.get q with bank := b }) ∨
      ∃ op m₁ o x b, Carries h p m op m₁ ∧ ((respond h p).exec m).1 = .ok o ∧
        ((∃ s, op = .monResume s q) → o = .done) ∧ op.Touches h m₁ q x ∧
        ((respond h p).exec m).2.processes.get q = { x with bank := b } := by
  rcases respond_cases h p m with ⟨hs, _⟩ | ⟨op, m₁, hc⟩
  · exact .inl ⟨_, hs q hq⟩
  rw [hc.machine, ← hc.process hq]
  rcases op.aside_or_effect h m₁ with ha | ⟨he, hok⟩
  · exact .inl ⟨_, by rw [ha.kernel]⟩
  have hl₁ : m₁.table.Strung := by rwa [hc.table]
  have hwaits : ∀ s, op.WaitsAt s → q ≠ s.owner := fun s hs => by rwa [hc.for.of_waitsAt hs]
  obtain ⟨x, b, rfl | ht, hx⟩ := he.meets hl₁ hwaits
  · exact .inl ⟨b, hx⟩
  right
  -- an interrupted revocation touches nobody, although it is not refused
  rcases hok with ⟨a, ha⟩ | ⟨s, rfl⟩
  · refine ⟨op, m₁, a.outcome, x, b, hc, by rw [hc.answer, ha]; rfl, ?_, ht, hx⟩
    rintro ⟨s, rfl⟩
    rw [resume_answer ha]
    rfl
  · cases ht with
    | message hop => cases hop

theorem conclude_solo (p : Pid) (number : Word) (r : Except Error Outcome) :
    (conclude p number r).Keeps (Solo p) :=
  conclude_keeps Aside.solo (fun _ => modifyProcess_solo p _) number r

/-- The work after the operation of a call concerns its caller, unless the hart then looks for a
process. -/
theorem finish_cases (h : Hart) (number : Word) (r : Except Error Outcome) (hq : q ≠ p)
    (m : Machine) :
    ((finish h p number r).exec m).2.processes.get q = m.processes.get q ∨
      r ≠ .ok .done ∧ ∃ m₁, (finish h p number r).exec m = (nextProcess h).exec m₁ ∧
        m₁.processes.get q = m.processes.get q := by
  have hconclude := conclude_solo p number r m
  unfold finish
  rw [Action.exec_bind]
  generalize hc : (conclude p number r).exec m = c at hconclude ⊢
  obtain ⟨next, m₂⟩ := c
  have hrelease := trans_of (Solo p) hconclude (release_solo p m₂)
  cases next with
  | none =>
    refine .inr ⟨?_, ((release p).exec m₂).2, rfl, hrelease q hq⟩
    rintro rfl
    cases hc
  | some k => -- the hart goes on, with the caller or with whom it was lent to
    left
    dsimp only
    split
    · exact hconclude q hq
    · exact hrelease q hq

/-- A hart that looks for a process takes one, or none. -/
theorem nextProcess_cases (h : Hart) (q : Pid) (m : Machine) :
    ((nextProcess h).exec m).2.processes.get q = m.processes.get q ∨
      ((nextProcess h).exec m).1 = some q ∧ ∃ x deadline,
        (m.processes.get q).acquire? ((nextProcess h).exec m).2.board.time = some x ∧
        ((nextProcess h).exec m).2.processes.get q = { x with deadline } := by
  unfold nextProcess
  rw [Action.exec_bind]
  dsimp only [Action.exec_get]
  split
  · next c hc =>
    obtain ⟨x, hx, he⟩ := Schedule.acquire?_of_choose? hc
    -- the one that is taken is this process, or another one
    by_cases hq : c.pid = q
    · subst hq
      refine .inr ⟨rfl, x, c.process.deadline, ?_, ?_⟩
      · simpa [Board.setDeadline, Board.setTimer] using hx
      · simpa [setProcess] using he
    · left
      simp [setProcess, Processes.get_put_of_ne _ _ hq]
  · exact .inl rfl

/-- A hart that looks for a process in one slot takes it, or leaves it alone. -/
theorem fetch_cases (h : Hart) (slot now : Nat) (q : Pid) (m : Machine) :
    (((fetch h slot now).exec m).1 ≠ some q ∧
        ((fetch h slot now).exec m).2.processes.get q = m.processes.get q) ∨
      ∃ x deadline, (m.processes.get q).acquire? now = some x ∧
        ((fetch h slot now).exec m).2.processes.get q = { x with deadline } := by
  unfold fetch
  rw [Action.exec_bind]
  dsimp only [Action.exec_get]
  split
  · next p x hf =>
    obtain ⟨y, hy, hx⟩ := Schedule.acquire?_of_fetch? hf
    show (some p ≠ some q ∧ (m.processes.put p x).get q = _) ∨
      ∃ z deadline, _ ∧ (m.processes.put p x).get q = _
    -- only the process that is fetched changes
    by_cases hp : p = q
    · subst hp
      exact .inr ⟨y, x.deadline, hy, by rw [Processes.get_put_self, hx]⟩
    · exact .inl ⟨by simpa using hp, Processes.get_put_of_ne _ _ hp⟩
  · exact .inl ⟨by simp, rfl⟩

end Machine

/-! ## Registers -/

namespace Process

variable {a b : Process} {r : Register}

/-- To be taken changes a process only if its wait is over. -/
theorem register_of_acquire? {now : Nat} (h : a.acquire? now = some b)
    (hr : b.register r ≠ a.register r) :
    r = .t0 ∧ ∃ c, a.status = .waiting c ∧ c ≠ sleepChannel ∧ a.deadline ≤ now := by
  obtain ⟨_, rfl⟩ | ⟨c, hs, hd, rfl⟩ := acquire?_cases h
  · exact absurd rfl hr
  · split at hr
    · exact absurd rfl hr
    · next hc =>
      refine ⟨?_, c, hs, hc, hd⟩
      by_contra hne
      exact hr (Registers.get_set_of_ne _ _ (Ne.symm hne))

/-- To be stopped changes a process only if it waits. -/
theorem register_of_suspend (hr : a.suspend.register r ≠ a.register r) :
    r = .t0 ∧ ∃ c, a.status = .waiting c := by
  obtain ⟨⟨busy, suspended, wait⟩, deadline, registers, bank⟩ := a
  unfold suspend at hr
  dsimp only at hr
  split at hr
  · next hw =>
    simp only [Bool.and_eq_true, Bool.not_eq_true', Option.isSome_iff_exists] at hw
    obtain ⟨⟨rfl, rfl⟩, c, rfl⟩ := hw
    refine ⟨?_, c, rfl⟩
    -- a suspension writes no other register
    by_contra hne
    exact hr (Registers.get_set_of_ne _ _ (Ne.symm hne))
  · exact absurd rfl hr

end Process

namespace Machine

/-- How a system call of a process can write a register of another. -/
inductive CallWrites (h : Hart) (m : Machine) (p q : Pid) : Register → Prop
  /-- A message is delivered to whoever waits at the other end of the channel. -/
  | message {s : Slot} {msg : Message} {k : Socket} {w : Waiter} {o : Outcome} {r : Register} :
      m.requested? p = some (.send s msg) ∨ m.requested? p = some (.sendReceive s msg) →
      ((respond h p).exec m).1 = .ok o → s.owner = p → m.table.get s = .socket k →
      m.registry.waiter k.chan k.role.peer = some w → w.pid = q → r ∈ Register.filled →
      CallWrites h m p q r
  /-- A monitor writes a register of a stopped process. -/
  | edit {s : Slot} {r : Register} {w : Word} : m.requested? p = some (.monWriteRegister s q r w) →
      s.owner = p → m.Edits s q → CallWrites h m p q r
  /-- A monitor stops a process that waits. -/
  | suspend {s : Slot} {c : ChannelWord} : m.requested? p = some (.monSuspend s q) →
      s.owner = p → controls (m.table.get s) q = true → (m.processes.get q).status = .waiting c →
      CallWrites h m p q .t0
  /-- A monitor lends the hart to a process of which the wait is over. -/
  | lend {s : Slot} {c : ChannelWord} : m.requested? p = some (.monYield s q) →
      s.owner = p → controls (m.table.get s) q = true → (m.processes.get q).status = .waiting c →
      c ≠ sleepChannel → (m.processes.get q).deadline ≤ m.board.time → CallWrites h m p q .t0
  /-- The hart goes on with a process of which the wait is over. -/
  | dispatch {m₁ : Machine} {c : ChannelWord} : (handleCall h p).exec m = (nextProcess h).exec m₁ →
      ((handleCall h p).exec m).1 = some q → (m.processes.get q).status = .waiting c →
      c ≠ sleepChannel →
      (m.processes.get q).deadline ≤ ((handleCall h p).exec m).2.board.time → CallWrites h m p q .t0

/-- How a system call of a process can change the capability in a slot of another. -/
inductive CallAlters (h : Hart) (m : Machine) (p : Pid) (x : Slot) : Prop
  /-- The capability that goes along with a message lands where its receiver has kept a slot. -/
  | message {s b : Slot} {msg : Message} {k : Socket} {w : Waiter} {o : Outcome} :
      m.requested? p = some (.send s msg) ∨ m.requested? p = some (.sendReceive s msg) →
      ((respond h p).exec m).1 = .ok o → s.owner = p → m.table.get s = .socket k →
      m.registry.waiter k.chan k.role.peer = some w → w.pid = x.owner → w.buffer = x →
      msg.sendCap = true → b.owner = p → b.index.val = msg.buffer → m.table.get b ≠ .null →
      m.table.get x = .null →
      ((handleCall h p).exec m).2.table.get x = arriving b x (m.table.get b) → CallAlters h m p x
  /-- A monitor moves a capability from or to a slot of a stopped process. -/
  | move {s source target : Slot} : m.requested? p = some (.monCapMove s source target) →
      s.owner = p → m.Edits s x.owner → x = source ∨ x = target → CallAlters h m p x
  /-- A monitor loads a region of a stopped process. -/
  | load {s : Slot} {register : Nat} :
      m.requested? p = some (.monPmpLoad s x.owner x.index register) → s.owner = p →
      m.Edits s x.owner → CallAlters h m p x
  /-- A monitor unloads a region of a stopped process. -/
  | unload {s : Slot} : m.requested? p = some (.monPmpUnload s x.owner x.index) → s.owner = p →
      m.Edits s x.owner → CallAlters h m p x
  /-- A capability that stands before it in its line takes it back. -/
  | revoke {s : Slot} : m.requested? p = some (.capRevoke s) → s.owner = p →
      m.table.Before s x → (m.table.get s).mayRevoke (m.table.get x) = true →
      ((handleCall h p).exec m).2.table.get x = .null → CallAlters h m p x

/-! ## What calls do -/

/-- A register of another process is written by one of the ways. -/
theorem Carries.writes {o : Outcome} {y : Process} {r : Register} (hc : Carries h p m op m₁)
    (ho : ((respond h p).exec m).1 = .ok o) (hq : q ≠ p) (ht : op.Touches h m₁ q y)
    (hr : y.register r ≠ (m.processes.get q).register r) : CallWrites h m p q r := by
  have hprocess := hc.process hq
  rw [← hprocess] at hr
  cases ht with
  | @message _ s msg d m₂ _ _ hop hs hpid =>
    have hsocket : m.table.get s = .socket d.socket := by rw [← hc.table, hs.socket]
    have hwaiter : m.registry.waiter d.socket.chan d.socket.role.peer = some d.receiver := by
      rw [← hc.registry, ← congrArg Kernel.registry hs.aside.kernel]
      exact hs.prepared.waiter
    exact .message (hc.sends hop) ho (hc.for.of_sending hop) hsocket hwaiter hpid
      (d.register_of_received hr)
  | suspend hcontrols =>
    obtain ⟨rfl, c, hs⟩ := Process.register_of_suspend hr
    exact .suspend hc.requested hc.for.1 (by rwa [← hc.table]) (by rwa [← hprocess])
  | resume => exact absurd rfl hr -- being let go on changes no register
  | lend hcontrols hx =>
    obtain ⟨rfl, c, hs, hsleep, hd⟩ := Process.register_of_acquire? hx hr
    rw [hprocess] at hs hd
    exact .lend hc.requested hc.for.1 (by rwa [← hc.table]) hs hsleep (by rwa [← hc.board])
  | @write s r' w he =>
    have hrr : r' = r := by
      by_contra hne
      exact hr (Registers.get_set_of_ne _ _ hne)
    subst hrr
    exact .edit hc.requested hc.for.1 (hc.edits hq he)

/-- Whoever is touched does not wait then, unless it was let go on. -/
theorem status_of_touches {y : Process} {c : ChannelWord} (ht : op.Touches h m q y)
    (hop : ∀ s, op ≠ .monResume s q) : y.status ≠ .waiting c := by
  cases ht with
  | message =>
    unfold Delivery.received
    split <;> simp [Status.running, Status.ready, Status.waiting]
  | suspend =>
    intro hs
    have hsuspended : (m.processes.get q).suspend.status.suspended = true := by
      simp only [Process.suspend]
      split <;> rfl
    rw [hs] at hsuspended
    cases hsuspended
  | resume => exact absurd rfl (hop _)
  | lend _ hx =>
    intro hs
    rw [(Process.acquire?_status hx).2] at hs
    cases hs
  | write he => -- only a process that is stopped is written to
    intro hs
    have hstopped := he.stopped
    rw [Process.isStopped, beq_iff_eq] at hstopped
    rw [Process.setRegister, hstopped] at hs
    cases hs

/-- The whole of a call: after the operation, the hart may decide for somebody who has waited, and
tell it that its time is up. -/
theorem handleCall_writes (hl : m.table.Strung) (hq : q ≠ p) {r : Register}
    (hr : (((handleCall h p).exec m).2.processes.get q).register r ≠
      (m.processes.get q).register r) : CallWrites h m p q r := by
  have hmeets := respond_meets hl h hq
  by_cases hsame : (((respond h p).exec m).2.processes.get q).register r =
    (m.processes.get q).register r
  · -- the operation of the call wrote nothing, so it is the scheduler that did
    have hcall := handleCall_exec h p m
    rcases finish_cases h ((m.processes.get p).register .t0) ((respond h p).exec m).1 hq
      ((respond h p).exec m).2 with hf | ⟨hdone, m₁, he, hm₁⟩
    · rw [hcall, hf] at hr
      exact absurd hsame hr
    rw [← hsame, ← hm₁, hcall, he] at hr
    rcases nextProcess_cases h q m₁ with hn | ⟨hnext, x, deadline, hx, hget⟩
    · rw [hn] at hr
      exact absurd rfl hr
    rw [hget] at hr
    obtain ⟨rfl, c, hs, hsleep, hd⟩ := Process.register_of_acquire? hx hr
    rw [hm₁] at hs hd
    obtain ⟨b, hb⟩ : ∃ b, ((respond h p).exec m).2.processes.get q =
        { m.processes.get q with bank := b } := by
      rcases hmeets with hb | ⟨op, m₂, o, y, b, _, ho, hresume, ht, hy⟩
      · exact hb
      · have hop : ∀ s, op ≠ .monResume s q := by
          intro s hop
          rw [hresume ⟨s, hop⟩] at ho
          exact hdone ho
        rw [hy] at hs
        exact (status_of_touches ht hop hs).elim
    rw [hb] at hs hd
    rw [← he, ← hcall] at hnext hd
    exact .dispatch (hcall.trans he) hnext hs hsleep hd
  · rcases hmeets with ⟨b, hb⟩ | ⟨op, m₁, o, y, b, hc, ho, _, ht, hy⟩
    · rw [hb] at hsame
      exact absurd rfl hsame
    · rw [hy] at hsame
      exact hc.writes ho hq ht hsame

/-- The whole of a call: it changes no capability after its operation. -/
theorem handleCall_alters (hm : Reachable roots m) (hx : x.owner ≠ p)
    (hne : ((handleCall h p).exec m).2.table.get x ≠ m.table.get x) : CallAlters h m p x := by
  have htable : ((handleCall h p).exec m).2.table = ((respond h p).exec m).2.table := by
    rw [handleCall_exec]
    exact (finish_hushed h p _ _ _).table
  rcases respond_cases h p m with ⟨_, ht⟩ | ⟨op, m₁, hc⟩
  · rw [htable, ht] at hne
    exact absurd rfl hne
  rw [hc.machine] at htable
  -- refused, or with the effect of the operation
  rcases op.aside_or_effect h m₁ with ha | ⟨he, hok⟩
  · rw [htable, ha.kernel, hc.table] at hne
    exact absurd rfl hne
  have hl₁ : m₁.table.Lineal := by
    rw [hc.table]
    exact hm.lineal
  rcases he.spares hl₁ hc.for hx with hsame | halters
  · rw [htable, hsame, hc.table] at hne
    exact absurd rfl hne
  cases halters with
  | @message _ s msg d m₂ hop hs hsend hb hget =>
    have hkernel := hs.aside.kernel
    obtain ⟨hf, hfreight, hv⟩ := hs.prepared.freight hsend
    have hwaiter := hs.prepared.waiter
    rw [hf, hkernel, hc.table] at hfreight
    rw [hkernel, hc.table, hb] at hv
    rw [hkernel, hc.registry] at hwaiter
    rw [hc.table] at hget
    have hsource := hc.for.of_sending hop
    have hpid : d.receiver.pid = x.owner := by rw [← hm.owner_buffer hwaiter, hb]
    obtain ⟨o, ho⟩ : ∃ o, ((respond h p).exec m).1 = .ok o := by
      rcases hok with ⟨a, ha⟩ | ⟨_, rfl⟩
      · exact ⟨a.outcome, by rw [hc.answer, ha]; rfl⟩
      · cases hop
    exact .message (hc.sends hop) ho hsource (by rw [← hc.table, hs.socket]) hwaiter hpid hb
      (hs.message ▸ hsend) (hs.buffer.1.trans hsource) hs.buffer.2 hfreight hv
      (by rw [htable, hget])
  | move hxs hs => exact .move hc.requested hc.for.1 (hc.edits hx hs) hxs
  | load hs => exact .load hc.requested hc.for.1 (hc.edits hx hs)
  | unload hs => exact .unload hc.requested hc.for.1 (hc.edits hx hs)
  | revoke hb hr hnull =>
    rw [hc.table] at hb hr
    exact .revoke hc.requested hc.for.1 hb hr (by rw [htable, hnull])

end Machine

def Machine.primed (m : Machine) (p : Pid) (values : List (Register × Word)) : Machine :=
  let q := m.processes.get p
  { m with processes := m.processes.put p { q with registers := q.registers.setAll values } }

theorem Reachable.primed (hm : Reachable roots m) (p : Pid) (values : List (Register × Word)) :
    Reachable roots (m.primed p values) :=
  hm.step (.process p _ rfl)

/-- Processes are separated: in a system call of one, the registers of another are written only by a
message, by a monitor, or because its wait is over; and the capabilities in its slots change only by
a message, by a monitor, or because they are taken back. -/
theorem handleCall_separates (hm : Reachable roots m) (h : Hart) (hq : q ≠ p) :
    (∀ r, (((Machine.handleCall h p).exec m).2.processes.get q).register r ≠
        (m.processes.get q).register r → Machine.CallWrites h m p q r) ∧
      ∀ x, x.owner = q →
        ((Machine.handleCall h p).exec m).2.table.get x ≠ m.table.get x →
          Machine.CallAlters h m p x := by
  constructor
  · intro r hr
    exact Machine.handleCall_writes hm.lineal.strung hq hr
  · intro x hx hne
    subst hx
    exact Machine.handleCall_alters hm hq hne

/-- Process 0 sends its monitor and four words to the server that waits: the message is in the
registers of process 1, and the monitor in its slot 1. -/
theorem handleCall_separates_sent : ∃ m,
    Reachable [.wholeTime 0 0 64, .wholeMonitor 0 8, .wholeChannel 0 16] m ∧
      (((Machine.handleCall 0 0).exec m).2.processes.get 1).register .a2 ≠
        (m.processes.get 1).register .a2 ∧
      ((Machine.handleCall 0 0).exec m).2.table.get ⟨1, 1⟩ ≠ m.table.get ⟨1, 1⟩ ∧
      Machine.CallWrites 0 m 0 1 .a2 ∧ Machine.CallAlters 0 m 0 ⟨1, 1⟩ := by
  obtain ⟨m₀, hm₀, h₀⟩ := exists_meeting
  obtain ⟨m, he⟩ : ∃ m, m = m₀.primed 0
    [(.t0, 22), (.a0, 4), (.a1, 1), (.a2, 1), (.a3, 9), (.a4, 8), (.a5, 7), (.a6, 6)] := ⟨_, rfl⟩
  have hm : Reachable [.wholeTime 0 0 64, .wholeMonitor 0 8, .wholeChannel 0 16] m :=
    he ▸ hm₀.reachable.primed 0 _
  have hr : (((Machine.handleCall 0 0).exec m).2.processes.get 1).register .a2 ≠
      (m.processes.get 1).register .a2 := by rw [he, h₀]; decide +kernel
  have hx : ((Machine.handleCall 0 0).exec m).2.table.get ⟨1, 1⟩ ≠ m.table.get ⟨1, 1⟩ := by
    rw [he, h₀]; decide +kernel
  have hseparates := handleCall_separates hm 0 (p := 0) (q := 1) (by decide)
  exact ⟨m, hm, hr, hx, hseparates.1 _ hr, hseparates.2 _ rfl hx⟩

end SepKernel
