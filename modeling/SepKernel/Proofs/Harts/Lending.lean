import SepKernel.Proofs.Harts.Timers
import SepKernel.Proofs.Harts.Turn

/-!
# Lending

A process lends its hart for the rest of its run: whoever is taken for the hart in an operation gets
the deadline of the caller. The caller itself keeps its deadline unless it waits, and whoever is
held by another hart keeps its own.

A monitor breaks this rule if it lets a process go on that is held. The process loses its deadline,
although its run is not over.
-/

namespace SepKernel

variable {m m' m₁ m₂ : Machine} {h : Hart} {p q : Pid} {op : Operation} {s : Slot} {msg : Message}

/-- Work for a process that programs no timer. Whoever is held keeps its deadline, the process
itself unless it waits in the end; and whoever is taken gets the deadline of the process. -/
structure Lends (p : Pid) (m m' : Machine) : Prop where
  untimed : Untimed m m'
  kept : ∀ q, q ≠ p → m.Holds q → (m'.processes.get q).deadline = (m.processes.get q).deadline
  lent : ∀ q, q ≠ p → ¬ m.Holds q → m'.Holds q →
    (m'.processes.get q).deadline = (m.processes.get p).deadline
  own : (m'.processes.get p).status.wait = none →
    (m'.processes.get p).deadline = (m.processes.get p).deadline

/-! ## Closure -/

/-- Nobody is taken, and all keep their deadlines. -/
theorem Timeless.lends (ht : Timeless m m') (hh : ∀ q, m'.Holds q → m.Holds q) : Lends p m m' where
  untimed := ht.untimed
  kept q _ _ := ht.deadline q
  lent q _ hq hq' := absurd (hh q hq') hq
  own _ := ht.deadline p

/-- Clerical work changes no process but for its bank. -/
theorem Clerical.lends (hc : Clerical m m') : Lends p m m' := by
  apply hc.timeless.lends
  intro q hq
  rwa [Machine.Holds, hc.settled.calm q] at hq

/-- Before it, deadlines and statuses must stay as they are. -/
theorem Lends.after (ht : Timeless m m₁) (hc : Calm m m₁) (h : Lends p m₁ m') : Lends p m m' where
  untimed := trans_of Untimed ht.untimed h.untimed
  kept q hq hm := by
    rw [Machine.Holds, ← hc q] at hm
    rw [h.kept q hq hm, ht.deadline]
  lent q hq hm hm' := by
    rw [Machine.Holds, ← hc q] at hm
    rw [h.lent q hq hm hm', ht.deadline]
  own hw := by rw [h.own hw, ht.deadline]

theorem Lends.before (ha : Aside m m₁) (h : Lends p m₁ m') : Lends p m m' :=
  .after ha.timeless ha.calm h

/-- So they must after it. -/
theorem Lends.followed (h : Lends p m m₁) (ht : Timeless m₁ m') (hc : Calm m₁ m') :
    Lends p m m' where
  untimed := trans_of Untimed h.untimed ht.untimed
  kept q hq hm := by rw [ht.deadline, h.kept q hq hm]
  lent q hq hm hm' := by
    rw [Machine.Holds, hc q] at hm'
    rw [ht.deadline, h.lent q hq hm hm']
  own hw := by
    rw [hc p] at hw
    rw [ht.deadline, h.own hw]

/-- The process has told everybody else, and waits. -/
theorem Lends.waits (h : Lends p m m₁) (hu : Untimed m₁ m') (hs : Solo p m₁ m')
    (hw : (m'.processes.get p).status.wait ≠ none) : Lends p m m' where
  untimed := trans_of Untimed h.untimed hu
  kept q hq hm := by rw [hs q hq, h.kept q hq hm]
  lent q hq hm hm' := by
    rw [Machine.Holds, hs q hq] at hm'
    rw [hs q hq, h.lent q hq hm hm']
  own hnone := absurd hnone hw

/-- Somebody is changed who was not held, and gets the deadline of the process if it is taken. -/
theorem Lends.of_others (hu : Untimed m m') (hp : m.Holds p) (hq : ¬ m.Holds q)
    (ho : ∀ k, k ≠ q → ∃ b, m'.processes.get k = { m.processes.get k with bank := b })
    (hx : m'.Holds q → (m'.processes.get q).deadline = (m.processes.get p).deadline) :
    Lends p m m' := by
  have hpq : p ≠ q := by
    rintro rfl
    exact hq hp
  -- the process is not the one that changes, for it is held
  refine ⟨hu, fun k _ hk => ?_, fun k _ hk hk' => ?_, fun _ => ?_⟩
  · obtain ⟨b, hb⟩ := ho k (by rintro rfl; exact hq hk)
    rw [hb]
  · by_cases hkq : k = q
    · subst hkq
      exact hx hk'
    · obtain ⟨b, hb⟩ := ho k hkq
      rw [Machine.Holds, hb] at hk'
      exact absurd hk' hk
  · obtain ⟨b, hb⟩ := ho p hpq
    rw [hb]

/-- Only one process changes, and it was not held. -/
theorem Lends.of_put {x : Process} (hu : Untimed m m') (hp : m.Holds p) (hq : ¬ m.Holds q)
    (hm : m'.processes = m.processes.put q x)
    (hx : x.status.busy = true → x.deadline = (m.processes.get p).deadline) : Lends p m m' := by
  refine Lends.of_others hu hp hq (fun k hk => ⟨(m.processes.get k).bank, ?_⟩) ?_
  · rw [hm, Processes.get_put_of_ne _ _ hk.symm]
  · rw [Machine.Holds, hm, Processes.get_put_self]
    exact hx

/-- Somebody is changed who keeps its deadline, and is not taken. -/
theorem Lends.of_edit {x : Process} (hu : Untimed m m')
    (hm : m'.processes = m.processes.put q x) (hd : x.deadline = (m.processes.get q).deadline)
    (hb : x.status.busy = (m.processes.get q).status.busy) : Lends p m m' := by
  -- no deadline changes, neither that of the process nor that of another
  have ht : Timeless m m' := by
    refine ⟨hu, fun k => ?_⟩
    rw [hm, Processes.get_put]
    split
    · next hk => rw [hd, hk]
    · rfl
  apply ht.lends
  intro k hk
  rw [Machine.Holds, hm, Processes.get_put] at hk
  split at hk
  · next hqk => rwa [hb, hqk] at hk
  · exact hk

namespace Machine

/-! ## Messages -/

/-- A server waits in the end. -/
theorem awaitClient_waiting (k : Socket) (p : Pid) (b : Slot) (m : Machine) :
    (((awaitClient k p b).exec m).2.processes.get p).status.wait ≠ none := by
  simp [awaitClient, awaitForever, await_process, Process.await, Process.report,
    Process.setRegister]

/-- So does a client. -/
theorem awaitAnswer_waiting (k : Socket) (p : Pid) (b : Slot) (lent : Option Pid) (m : Machine) :
    (((awaitAnswer k p b lent).exec m).2.processes.get p).status.wait ≠ none := by
  unfold awaitAnswer
  split <;> simp [awaitForever, await_process, Process.await, Process.report, Process.setRegister]

/-- The receiver of a message goes on with the deadline of its sender, or is given back. -/
theorem deliver_lends {d : Delivery} (hs : Sends h s msg m d m₁) (hl : m.table.Strung)
    (hp : m.Holds s.owner) : Lends s.owner m ((deliver d).exec m₁).2 := by
  apply Lends.before hs.aside
  have hkernel := hs.aside.kernel
  have hp₁ : m₁.Holds s.owner := by rwa [Holds, hkernel]
  have hl₁ : m₁.table.Strung := by rwa [hkernel]
  obtain ⟨_, hd⟩ := deliver_delivered hs.prepared hl₁
  obtain ⟨hidle, _⟩ := Process.receive?_status hs.prepared.taken
  have hreceiver : ¬ m₁.Holds d.receiver.pid := by
    rw [Holds, hidle]
    exact Bool.false_ne_true
  -- a receiver waits, so it was not held
  refine .of_others (deliver_untimed d m₁) hp₁ hreceiver hd.others fun hheld => ?_
  obtain ⟨b, hb⟩ := hd.receiver
  rw [Holds, hb] at hheld
  rw [hb, ← hs.sender]
  unfold Delivery.received at hheld ⊢
  split
  · rfl
  · next hmode =>
    rw [hmode] at hheld
    cases hheld

/-- A client that is answered goes on with the deadline of its server. -/
theorem Answers.lends {n : Next} (ha : Answers h s msg m n m') (hl : m.table.Strung)
    (hp : m.Holds s.owner) : Lends s.owner m m' := by
  cases ha with
  | deliver hs => exact deliver_lends hs hl hp
  | drop h₁ => exact .before h₁ (dropAnswer_clerical _ _ _).lends

end Machine

/-! ## Operations -/

/-- An operation for a process that is held, and that lets nobody go on who is held, lends at most
the hart of that process. -/
theorem Operation.Effect.lends (he : op.Effect h m m') (hl : m.table.Strung)
    (hp : m.Holds op.caller)
    (hr : ∀ s q, op = .monResume s q → Machine.controls (m.table.get s) q = true → ¬ m.Holds q) :
    Lends op.caller m m' := by
  induction he with
  | move => exact (Machine.relocate_clerical _ _ _ m).lends
  | delete => exact (Machine.discardCapability_clerical _ _ m).lends
  | derive => exact (Machine.bear_clerical _ _ _ _ m).lends
  | @revoke s =>
    apply (Machine.revokeCapability_timeless h s m).lends
    intro q hq
    rwa [Machine.Holds, (Machine.revokeCapability_settled h s m).calm q] at hq
  | load => exact (Machine.install_clerical _ _ _ m).lends
  | unload => exact (Machine.uninstall_clerical _ _ m).lends
  | suspend =>
    exact .of_edit (fun _ => rfl) rfl (Process.deadline_suspend _) (Process.busy_suspend _)
  | @resume s q hc =>
    -- a process that is let go on while it is held loses its deadline
    refine .of_put (q := q) (fun _ => rfl) hp (hr s q rfl hc) rfl fun hbusy => ?_
    exact absurd hbusy (hr s q rfl hc)
  | @yield s q x hc hx =>
    obtain ⟨hidle, _⟩ := Process.acquire?_status hx
    have hq : ¬ m.Holds q := by
      rw [Machine.Holds, hidle]
      exact Bool.false_ne_true
    -- the hart is lent to somebody else
    have hqs : q ≠ s.owner := by
      rintro rfl
      exact hq hp
    refine .of_put (fun _ => rfl) hp hq (Processes.put_put ..) fun _ => ?_
    show ((m.processes.put q x).get s.owner).deadline = _
    rw [Processes.get_put_of_ne _ _ hqs]
    rfl
  | write => exact .of_edit (fun _ => rfl) rfl rfl rfl
  | moveOf _ _ he =>
    cases he
    exact (Machine.relocate_clerical _ _ _ m).lends
  | loadOf _ he =>
    cases he
    exact (Machine.install_clerical _ _ _ m).lends
  | unloadOf _ he =>
    cases he
    exact (Machine.uninstall_clerical _ _ m).lends
  | send hs => exact Machine.deliver_lends hs hl hp
  | reply _ ih => exact ih hp (by rintro _ _ ⟨⟩)
  | receive h₁ =>
    exact Lends.waits (.before h₁ (refl_of Clerical _).lends) (Machine.awaitClient_untimed _ _ _ _)
      (Machine.awaitClient_solo _ _ _ _) (Machine.awaitClient_waiting _ _ _ _)
  | call hs =>
    exact (Machine.deliver_lends hs hl hp).waits (Machine.awaitAnswer_untimed _ _ _ _ _)
      (Machine.awaitAnswer_solo _ _ _ _ _) (Machine.awaitAnswer_waiting _ _ _ _ _)
  | replyReceive _ _ _ _ ha =>
    exact (ha.lends hl hp).waits (Machine.awaitClient_untimed _ _ _ _)
      (Machine.awaitClient_solo _ _ _ _) (Machine.awaitClient_waiting _ _ _ _)
  | exchange _ ih => exact ih hp (by rintro _ _ ⟨⟩)
  | exchangeBack _ ih => exact ih hp (by rintro _ _ ⟨⟩)

/-! ## System calls -/

namespace Machine

def Resumes (m : Machine) (p q : Pid) : Prop :=
  m.lockHolder = none ∧
    ∃ s, m.requested? p = some (.monResume s q) ∧ controls (m.table.get s) q = true

/-- Calls that concern the caller alone program no timer. -/
theorem performOwn_untimed (h : Hart) (p : Pid) (c : OwnCall) :
    (performOwn h p c).Keeps Untimed :=
  performOwn_keeps (fun ha => ha.timeless.untimed)
    (fun f b => (expect_timeless f b).mono Timeless.untimed) (fun _ => modifyProcess_untimed p _)
    (modifyProcess_untimed p _) (fun _ => modifyProcess_untimed p _) h c

/-- A call that concerns its caller alone changes the deadline of the caller only if the hart looks
for a process then. -/
theorem performOwn_lends (h : Hart) (p : Pid) (c : OwnCall) (m : Machine) :
    ((performOwn h p c).exec m).1 = .schedule ∨ Lends p m ((performOwn h p c).exec m).2 := by
  have hrefl : Lends p m m := (refl_of Clerical m).lends
  cases c with
  | getInfo i => cases i <;> exact .inr hrefl
  | readRegister => exact .inr hrefl
  | writeRegister => exact .inr (.of_edit (fun _ => rfl) rfl rfl rfl)
  | sync yields =>
    cases yields with
    | false => exact .inr hrefl
    | true => exact .inl rfl
  | sleep => -- whoever sleeps gives up its hart, and its deadline is that of the sleep
    left
    rw [performOwn, Action.exec_bind, Action.exec_bind]
    dsimp only
    split <;> rfl

/-- The machine on which a call is carried out, for timers and deadlines. -/
theorem stepped_even (hk : m₁.toKernel = (m.stepped p).toKernel) (hb : m₁.board = m.board) :
    Timeless m m₁ ∧ Calm m m₁ := by
  let step (x : Process) := x.setRegister .pc (x.register .pc + 4)
  have ht : Timeless m (m.stepped p) := modifyProcess_timeless p (f := step) (fun _ => rfl) m
  have hc : Calm m (m.stepped p) := modifyProcess_calm p (f := step) (fun _ => rfl) m
  have hprocesses : m₁.processes = (m.stepped p).processes := by rw [hk]
  refine ⟨⟨.of_board hb, fun q => ?_⟩, fun q => ?_⟩
  · rw [hprocesses, ht.deadline]
  · rw [hprocesses, hc q]

/-- Until the operation of a call has answered, the caller lends at most its hart; or the hart is to
look for a process, and only the caller has changed. -/
theorem respond_lends (hl : m.table.Strung) (hp : m.Holds p)
    (hr : ∀ q, m.Resumes p q → ¬ m.Holds q) :
    Lends p m ((respond h p).exec m).2 ∨ ((respond h p).exec m).1 = .ok .schedule ∧
      Untimed m ((respond h p).exec m).2 ∧ Solo p m ((respond h p).exec m).2 := by
  have hresponds := respond_responds h p m
  generalize (respond h p).exec m = r at hresponds ⊢
  obtain ⟨_, _⟩ := r
  cases hresponds with
  | unread e =>
    -- stepping over the instruction changes a register only
    obtain ⟨ht, hc⟩ := stepped_even (m := m) (p := p) rfl rfl
    exact .inl (.after ht hc (refl_of Clerical _).lends)
  | @own c m₁ hk hb =>
    obtain ⟨ht, hc⟩ := stepped_even hk hb
    rcases performOwn_lends h p c m₁ with hs | hlends
    · exact .inr ⟨by rw [hs], trans_of Untimed ht.untimed (performOwn_untimed h p c m₁),
        trans_of (Solo p) (stepped_solo hk) (performOwn_solo h p c m₁)⟩
    · exact .inl (.after ht hc hlends)
  | @locked m₁ hk hb =>
    obtain ⟨ht, hc⟩ := stepped_even hk hb
    refine .inl (.after ht hc ?_)
    apply (lock_timeless h m₁).lends
    intro q hq
    rwa [Holds, lock_calm h m₁ q] at hq
  | @carried op m₁ hc hfree =>
    obtain ⟨ht, hcalm⟩ := stepped_even hc.kernel hc.board
    refine .inl (.after ht hcalm ?_)
    rw [hc.machine]
    rcases op.aside_or_effect h m₁ with ha | ⟨he, _⟩
    · exact ha.clerical.lends
    · obtain rfl := hc.for.1
      have hheld : ∀ q, m₁.Holds q ↔ m.Holds q := fun q => by rw [Holds, Holds, hcalm q]
      refine he.lends (by rwa [hc.table]) ((hheld _).2 hp) fun s q hop hcontrols => ?_
      rw [hheld]
      exact hr q ⟨hfree, s, by rw [hc.requested, hop], by rwa [← hc.table]⟩

end Machine
end SepKernel
