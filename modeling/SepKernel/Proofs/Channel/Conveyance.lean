import SepKernel.Proofs.Channel.Buffer
import SepKernel.Proofs.Harts.Hands
import SepKernel.Proofs.Machine.Rest

/-!
# Messages are conveyed

A message that is sent comes to one process, which waited for it on the channel, in time and held by
nobody. It finds all of the message in its registers, and in the slot that it has kept the
capability that came along; nothing else of it is written, and no register of anybody else. It is
not waited for any more, and until it acts itself no other message comes to it.

Only a server that answers and waits for the next client may speak to nobody.
-/

namespace SepKernel

open Relation (ReflTransGen)

variable {m m' m₁ : Machine} {roots : List Capability} {h : Hart} {op : Operation} {s b : Slot}
  {msg : Message} {k : Socket} {d : Machine.Delivery} {n : Next} {waits : Prop}

/-- The process that an answer gives the hart to, if it does. -/
def Next.heir : Next → Option Pid
  | caller => none
  | yield p => some p
  | blocked q => q

/-! ## After the delivery -/

namespace Machine

/-- The end of an operation over a socket: its caller waits, if it does so at all, and finds in `t0`
that nobody came. -/
structure Lingers (waits : Prop) (s : Slot) (k : Socket) (m m' : Machine) : Prop where
  table : m'.table = m.table
  peer : m'.registry.waiter k.chan k.role.peer = m.registry.waiter k.chan k.role.peer
  others : ∀ q, (waits → q ≠ s.owner) → m'.processes.get q = m.processes.get q
  kept : ∀ r, r ≠ .t0 →
    (m'.processes.get s.owner).register r = (m.processes.get s.owner).register r
  told : waits → (m'.processes.get s.owner).register .t0 = Error.timeout.word

theorem Lingers.refl (s : Slot) (k : Socket) (m : Machine) : Lingers False s k m m :=
  ⟨rfl, rfl, fun _ _ => rfl, fun _ _ => rfl, False.elim⟩

/-- A process that begins to wait keeps what it was sent, other than the reason in `t0`. -/
theorem await_lingers (hw : waits) (s b : Slot) (k : Socket) (m : Machine) :
    Lingers waits s k m ((await k s.owner b).exec m).2 where
  table := (await_quiet k s.owner b m).table
  peer := by cases hr : k.role <;> simp [await, Registry.waiter_setWaiter, Role.peer, hr]
  others q hq := await_solo k s.owner b m q (hq hw)
  kept r hr := by
    simp [await, Process.register, Process.report, Process.setRegister, Process.await,
      Registers.get_set_of_ne _ _ hr.symm]
  told _ := by simp [await, Process.register, Process.report, Process.setRegister]

/-- The deadline of the wait may be lifted after that. -/
theorem Lingers.forever (hl : Lingers waits s k m m₁) (hw : waits) :
    Lingers waits s k m ((awaitForever s.owner).exec m₁).2 where
  table := hl.table
  peer := hl.peer
  others q hq := (awaitForever_solo s.owner m₁ q (hq hw)).trans (hl.others q hq)
  kept r hr := by
    rw [← hl.kept r hr]
    simp [awaitForever, Process.register]
  told hw := by
    rw [← hl.told hw]
    simp [awaitForever, Process.register]

theorem awaitClient_lingers (hw : waits) (s b : Slot) (k : Socket) (m : Machine) :
    Lingers waits s k m ((awaitClient k s.owner b).exec m).2 :=
  have hl := (await_lingers hw s b k m).forever hw
  ⟨hl.table, hl.peer, hl.others, hl.kept, hl.told⟩

/-- Whether the wait has a deadline makes no difference to that. -/
theorem awaitAnswer_lingers (hw : waits) (s b : Slot) (k : Socket) (lent : Option Pid)
    (m : Machine) : Lingers waits s k m ((awaitAnswer k s.owner b lent).exec m).2 := by
  have hl := await_lingers hw s b k m
  unfold awaitAnswer
  rw [Action.exec_bind]
  split
  · exact hl.forever hw
  · exact hl

/-! ## Sending -/

/-- A message over the socket in a slot is delivered, and then its sender may wait. -/
def Passes (waits : Prop) (h : Hart) (s : Slot) (msg : Message) (m : Machine) (n : Next)
    (m' : Machine) : Prop :=
  ∃ d m₁, Sends h s msg m d m₁ ∧ Lingers waits s d.socket ((deliver d).exec m₁).2 m' ∧
    (n = ((deliver d).exec m₁).1 ∨ n = .blocked ((deliver d).exec m₁).1.lent)

def Misses (h : Hart) (s : Slot) (m : Machine) : Prop :=
  ∃ k, m.table.get s = .socket k ∧ k.role = .server ∧ m.Unattended h k

/-- If a send succeeds, a message has passed, and the sender does not wait. -/
theorem send_passes (h : Hart) (s : Slot) (msg : Message) (m : Machine) :
    (send h s msg).Decides m (Passes False h s msg m) := by
  apply (send_decides h s msg m).mono
  intro n m' ⟨d, m₁, hs, hd⟩
  obtain ⟨rfl, rfl⟩ := Prod.mk.inj hd
  exact ⟨d, m₁, hs, .refl s d.socket _, .inl rfl⟩

/-- If a reply succeeds, a message has passed, and the server does not wait. -/
theorem reply_passes (h : Hart) (s : Slot) (msg : Message) (m : Machine) :
    (reply h s msg).Decides m (Passes False h s msg m) := by
  unfold reply
  apply Attempt.Decides.bind (requireRole_aside s _)
  intro _ m₁ hr _
  obtain ⟨rfl, _⟩ := requireRole_ok hr
  exact send_passes h s msg m₁

/-- A call hands over a message, and then its caller waits. -/
theorem call_passes (hw : waits) (h : Hart) (s : Slot) (msg : Message) (m : Machine) :
    (call h s msg).Decides m (Passes waits h s msg m) := by
  apply (call_decides h s msg m).mono
  intro n m' ⟨d, m₁, n₀, m₂, hs, _, hd, hn, hm'⟩
  obtain ⟨rfl, rfl⟩ := Prod.mk.inj hd
  subst hm'
  exact ⟨d, m₁, hs, awaitAnswer_lingers hw s d.buffer d.socket _ _, .inr hn⟩

/-- An answer hands over a message as well, unless it misses its client. -/
theorem replyReceive_passes (hw : waits) (h : Hart) (s : Slot) (msg : Message) (m : Machine) :
    (replyReceive h s msg).Decides m fun n m' => Passes waits h s msg m n m' ∨ Misses h s m := by
  apply (replyReceive_decides h s msg m).mono
  intro n m' ⟨k, b, n₀, m₁, hk, hr, _, _, ha, hn, hm'⟩
  subst hm'
  cases ha with
  | @deliver d m₂ hs =>
    have hsocket := hs.socket -- the answer left through the socket that is waited over
    rw [hk] at hsocket
    cases hsocket
    exact .inl ⟨d, m₂, hs, awaitClient_lingers hw s b d.socket _, .inr hn⟩
  | drop _ _ _ hk' hu =>
    rw [hk] at hk'
    cases hk'
    exact .inr ⟨k, hk, hr, hu⟩

/-- The two kinds of exchanges, by the end of the socket. -/
theorem sendReceive_passes (hw : waits) (h : Hart) (s : Slot) (msg : Message) (m : Machine) :
    (sendReceive h s msg).Decides m fun n m' => Passes waits h s msg m n m' ∨ Misses h s m := by
  unfold sendReceive
  apply Attempt.Decides.bind (requireSocket_aside s)
  intro k m₁ hk _
  obtain ⟨rfl, _⟩ := requireSocket_ok hk
  split
  · exact replyReceive_passes hw h s msg m₁
  · exact (call_passes hw h s msg m₁).mono fun _ _ => .inl

end Machine

open Machine (Passes Misses)

/-- An operation that sends a message delivers it, or has nobody to answer to. -/
theorem Operation.sending_decides (hop : op.sending? = some (s, msg)) (h : Hart) (m : Machine) :
    (op.perform h).Decides m fun a m' => ∃ n, a = .next n ∧
      (Passes (op.WaitsAt s) h s msg m n m' ∨ op.WaitsAt s ∧ Misses h s m) := by
  -- five operations send; only those that answer and receive may find nobody
  cases op <;> cases hop
  case send =>
    apply (Machine.send_passes h s msg m).complete
    exact fun n m' hP => ⟨.next n, m', rfl, n, rfl, .inl hP⟩
  case reply =>
    apply (Machine.reply_passes h s msg m).complete
    exact fun n m' hP => ⟨.next n, m', rfl, n, rfl, .inl hP⟩
  case call =>
    apply (Machine.call_passes rfl h s msg m).complete
    exact fun n m' hP => ⟨.next n, m', rfl, n, rfl, .inl hP⟩
  case replyReceive =>
    apply (Machine.replyReceive_passes rfl h s msg m).complete
    exact fun n m' hP => ⟨.next n, m', rfl, n, rfl, hP.imp_right fun hu => ⟨rfl, hu⟩⟩
  case sendReceive =>
    apply (Machine.sendReceive_passes rfl h s msg m).complete
    exact fun n m' hP => ⟨.next n, m', rfl, n, rfl, hP.imp_right fun hu => ⟨rfl, hu⟩⟩

/-! ## What is conveyed -/

/-- What an operation that sends a message over a socket makes of the machine, and of the process
that it finds waiting at the other end of the channel. -/
structure Operation.Conveyed (op : Operation) (s : Slot) (msg : Message) (k : Socket) (w : Waiter)
    (n : Next) (m m' : Machine) : Prop where
  waiter : m.registry.waiter k.chan k.role.peer = some w
  waiting : (m.processes.get w.pid).status = .waiting (k.chan.setWidth 32)
  inTime : m.board.time < (m.processes.get w.pid).deadline
  keeps : w.buffer.owner = w.pid
  result : (m'.processes.get w.pid).register .t0 = 0
  tag : (m'.processes.get w.pid).register .a0 = k.tag.setWidth 64
  capability : (m'.processes.get w.pid).register .a1 =
    if msg.sendCap then (m'.table.get w.buffer).toWord else 0
  data : ∀ i : Fin 4, (m'.processes.get w.pid).register Register.payload[i] =
    if k.permission.data k.role then msg.data[i] else 0
  unfilled : ∀ r, r ∉ Register.filled →
    (m'.processes.get w.pid).register r = (m.processes.get w.pid).register r
  /-- Nobody else finds anything, except that a sender which waits is told that nobody came. -/
  others : ∀ p r, p ≠ w.pid → (p = s.owner → op.WaitsAt s → r ≠ .t0) →
    (m'.processes.get p).register r = (m.processes.get p).register r
  told : op.WaitsAt s →
    s.owner ≠ w.pid ∧ (m'.processes.get s.owner).register .t0 = Error.timeout.word
  freight : msg.sendCap = true → ∃ b : Slot, b.owner = s.owner ∧ b.index.val = msg.buffer ∧
    m.table.get b ≠ .null ∧ m.table.get w.buffer = .null ∧ m'.table.get b = .null ∧
    m'.table.get w.buffer = Machine.arriving b w.buffer (m.table.get b) ∧
    ∀ x, x ≠ b → x ≠ w.buffer → m'.table.get x = m.table.get x
  plain : msg.sendCap = false → m'.table = m.table
  consumed : m'.registry.waiter k.chan k.role.peer = none
  yields : k.mode = .yield → n.heir = some w.pid ∧ (m'.processes.get w.pid).status = .running
  stays : k.mode = .keep → n.heir = none ∧ (m'.processes.get w.pid).status = .ready

/-! ## Everything that is sent is conveyed -/

section Sends
variable {m₂ : Machine}

/-- The process that a message comes to, as it is after the delivery. -/
theorem Machine.Sends.received (hs : Machine.Sends h s msg m d m₁)
    (hd : Machine.Delivered d m₁ m₂) : ∃ deadline b, m₂.processes.get d.receiver.pid =
      { d.received (m.processes.get d.receiver.pid) deadline (d.landed m₂) with bank := b } := by
  obtain ⟨b, hb⟩ := hd.receiver
  rw [hs.aside.kernel] at hb
  exact ⟨_, b, hb⟩

/-- Everybody else has the same registers as before. -/
theorem Machine.Sends.others (hs : Machine.Sends h s msg m d m₁)
    (hd : Machine.Delivered d m₁ m₂) {p : Pid} (hp : p ≠ d.receiver.pid) :
    (m₂.processes.get p).registers = (m.processes.get p).registers := by
  obtain ⟨b, hb⟩ := hd.others p hp
  rw [hb, hs.aside.kernel]

/-- A capability that goes along leaves its slot and lands where the receiver wants it; nothing else
changes slots. -/
theorem Machine.Sends.freight (hs : Machine.Sends h s msg m d m₁) (hl : m.table.Strung)
    (hd : Machine.Delivered d m₁ m₂) (hc : msg.sendCap = true) :
    m.table.get d.buffer ≠ .null ∧ m.table.get d.receiver.buffer = .null ∧
      m₂.table.get d.buffer = .null ∧ m₂.table.get d.receiver.buffer =
        Machine.arriving d.buffer d.receiver.buffer (m.table.get d.buffer) ∧
      ∀ x, x ≠ d.buffer → x ≠ d.receiver.buffer → m₂.table.get x = m.table.get x := by
  rw [← hs.message] at hc
  obtain ⟨hf, hn, hv⟩ := hs.prepared.freight hc
  rw [hf] at hn
  have htable := hd.table
  rw [if_pos hc] at htable
  rw [hs.aside.kernel] at hn hv htable
  -- a delivery moves one capability
  have hget : ∀ x, m₂.table.get x = if d.buffer = x then .null
      else if d.receiver.buffer = x then
        Machine.arriving d.buffer d.receiver.buffer (m.table.get d.buffer)
      else m.table.get x := by
    intro x
    rw [htable, hl.get_relink hv]
  refine ⟨hn, hv, ?_, ?_, ?_⟩
  · rw [hget, if_pos rfl]
  · rw [hget, if_neg (Table.ne_of_vacant hn hv), if_pos rfl]
  · intro x hb hr
    rw [hget, if_neg hb.symm, if_neg hr.symm]

end Sends

/-- What passes is conveyed to the process that waits at the other end of the channel. -/
theorem Machine.Passes.conveyed (hp : Passes (op.WaitsAt s) h s msg m n m')
    (hm : Reachable roots m) (hheld : op.WaitsAt s → m.Holds s.owner) :
    ∃ k w, m.table.get s = .socket k ∧ op.Conveyed s msg k w n m m' := by
  obtain ⟨d, m₁, hs, hlingers, hn⟩ := hp
  have hl := hm.lineal.strung
  obtain ⟨hanswer, hd⟩ := deliver_delivered hs.prepared (by rwa [hs.aside.kernel])
  obtain ⟨hwaits, htime, _⟩ := Process.receive?_eq hs.prepared.taken
  have hwaiter := hs.prepared.waiter
  rw [hs.aside.kernel] at hwaits htime hwaiter
  rw [hs.aside.board] at htime
  -- whoever sends and then waits is held, and whoever is sent to is not
  have hother : op.WaitsAt s → d.receiver.pid ≠ s.owner := by
    intro hw he
    have hbusy := hheld hw
    rw [← he, Holds, hwaits] at hbusy
    cases hbusy
  have hsame := hlingers.others d.receiver.pid hother
  obtain ⟨deadline, bank, hreceived⟩ := hs.received hd
  rw [hreceived] at hsame
  have hregister : ∀ r, (m'.processes.get d.receiver.pid).register r =
      (d.received (m.processes.get d.receiver.pid) deadline
        (d.landed ((deliver d).exec m₁).2)).register r := by
    intro r
    rw [hsame]
    rfl
  refine ⟨d.socket, d.receiver, hs.socket, ?_⟩
  constructor
  case waiter => exact hwaiter
  case waiting => exact hwaits
  case inTime => exact htime
  case keeps => exact hm.owner_buffer hwaiter
  case result => rw [hregister, d.register_received _ _ (w := 0) (by simp [Delivery.contents])]
  case tag =>
    rw [hregister, d.register_received _ _ (w := d.socket.tag.setWidth 64)
      (by simp [Delivery.contents])]
  case capability =>
    rw [hregister, d.register_received _ _ (w := (d.landed ((deliver d).exec m₁).2).toWord)
      (by simp [Delivery.contents]), Delivery.landed, hs.message, hlingers.table]
    split <;> rfl
  case data =>
    intro i
    rw [hregister, d.register_received _ _ (d.data_mem_contents _ i), hs.message]
  case unfilled =>
    intro r hr
    rw [hregister]
    by_contra hne
    exact hr (d.register_of_received hne)
  case others =>
    intro p r hp hr
    have hdelivered : (((deliver d).exec m₁).2.processes.get p).register r =
        (m.processes.get p).register r := by
      rw [Process.register, Process.register, hs.others hd hp]
    rw [← hdelivered]
    by_cases hps : p = s.owner
    · by_cases hw : op.WaitsAt s
      · rw [hps]
        exact hlingers.kept r (hr hps hw)
      · rw [hlingers.others p fun hw' => absurd hw' hw]
    · rw [hlingers.others p fun _ => hps]
  case told => exact fun hw => ⟨(hother hw).symm, hlingers.told hw⟩
  case freight =>
    intro hc
    rw [hlingers.table]
    exact ⟨d.buffer, hs.buffer.1, hs.buffer.2, hs.freight hl hd hc⟩
  case plain =>
    intro hc
    rw [hlingers.table, hd.table, hs.message, hc, hs.aside.kernel]
    rfl
  case consumed => rw [hlingers.peer, hd.waiter]
  case yields =>
    intro hmode
    rw [hsame]
    simp only [hanswer, Delivery.answer, hmode, Delivery.received] at hn ⊢
    rcases hn with rfl | rfl <;> exact ⟨rfl, trivial⟩
  case stays =>
    intro hmode
    rw [hsame]
    simp only [hanswer, Delivery.answer, hmode, Delivery.received] at hn ⊢
    rcases hn with rfl | rfl <;> exact ⟨rfl, trivial⟩

/-- Whoever got a message does not wait any more. -/
theorem Operation.Conveyed.wait_none {w : Waiter} (hc : op.Conveyed s msg k w n m m') :
    (m'.processes.get w.pid).status.wait = none := by
  cases hmode : k.mode with
  | yield => rw [(hc.yields hmode).2]; rfl
  | keep => rw [(hc.stays hmode).2]; rfl

/-- A message that is sent is conveyed to the process that waits at the other end of the channel,
and until that process acts itself nobody writes its registers, apart from monitors that edit it. An
operation that sends a message succeeds without only if a server answers and nobody is there. A
sender that waits afterwards must be held by its hart, as whoever makes a system call is. -/
theorem message_conveyed {a : Operation.Answer} (hm : Reachable roots m)
    (hop : op.sending? = some (s, msg)) (hheld : op.WaitsAt s → m.Holds s.owner)
    (hr : (op.run h).exec m = (.ok a, m')) :
    ∃ k n, m.table.get s = .socket k ∧ a = .next n ∧
      ((∃ w, op.Conveyed s msg k w n m m' ∧
        ∀ m₁ m₂ p o, ReflTransGen (Machine.Beside w.pid) m' m₁ → m₁.Acts p o m₂ →
          p ≠ some w.pid →
          (m₂.processes.get w.pid).registers ≠ (m₁.processes.get w.pid).registers →
          Operation.WritesTo o w.pid) ∨
        op.WaitsAt s ∧ k.role = .server ∧ m.Unattended h k) := by
  have hm' : Reachable roots m' := by
    have hstep := Machine.Step.operation (m := m) h op
    rw [hr] at hstep
    exact hm.step hstep
  -- the operation is carried out under the lock, and its answer says what it has done
  have hdecides := op.sending_decides hop h m
  rcases Machine.lock_cases h m with hlock | hlock
  · rw [Operation.run, Attempt.exec_bind_ok hlock] at hr
    rw [Attempt.Decides, hr] at hdecides
    obtain ⟨n, rfl, hp | ⟨hw, k, hk, hrole, hu⟩⟩ := hdecides
    · obtain ⟨k, w, hk, hc⟩ := hp.conveyed hm hheld
      refine ⟨k, n, hk, rfl, .inl ⟨w, hc, ?_⟩⟩
      intro m₁ m₂ p o hrun hs hp hne
      -- the receiver does not wait, so that nobody has anything to tell it
      exact hm'.undisturbed hc.wait_none hrun hs hp hne
    · exact ⟨k, n, hk, rfl, .inr ⟨hw, hrole, hu⟩⟩
  · rw [Operation.run, Attempt.exec_bind_error (Prod.ext hlock rfl)] at hr
    cases hr

/-- Process 0 sends its monitor and four words to the server that waits, and waits for the answer.
Process 1 has the hart, the tag of the client and the words in its registers, and the monitor in its
slot 1. -/
theorem message_conveyed_monitor : ∃ m m' k n,
    Reachable [.wholeTime 0 0 64, .wholeMonitor 0 8, .wholeChannel 0 16] m ∧ m.Holds 0 ∧
      ((Operation.call ⟨0, 4⟩ ⟨1, true, #v[9, 8, 7, 6]⟩).run 0).exec m = (.ok (.next n), m') ∧
      (Operation.call ⟨0, 4⟩ ⟨1, true, #v[9, 8, 7, 6]⟩).Conveyed ⟨0, 4⟩ ⟨1, true, #v[9, 8, 7, 6]⟩ k
        ⟨1, ⟨1, 1⟩⟩ n m m' ∧ n.heir = some 1 ∧ m'.table.get ⟨1, 1⟩ = .wholeMonitor 0 8 ∧
      (m'.processes.get 1).register .a0 = 5 ∧ (m'.processes.get 1).register .a3 = 8 := by
  obtain ⟨m, hplain, he⟩ := exists_meeting
  obtain ⟨op, hop⟩ : ∃ op, op = Operation.call ⟨0, 4⟩ ⟨1, true, #v[9, 8, 7, 6]⟩ := ⟨_, rfl⟩
  have hm := hplain.reachable
  have hheld : m.Holds 0 := by rw [he, Machine.Holds]; decide +kernel
  have hk : m.table.get ⟨0, 4⟩ = .socket ⟨3, .yield, .ofBits 15, 5⟩ := by rw [he]; decide +kernel
  have hw : m.registry.waiter 3 .server = some ⟨1, ⟨1, 1⟩⟩ := by rw [he]; decide +kernel
  have hanswer : ((op.run 0).exec m).1 = .ok (.next (.blocked (some 1))) := by
    rw [he, hop]; decide +kernel
  -- the monitor is in slot 1 of the client, and the server receives into slot 1
  have hmonitor : ((op.run 0).exec m).2.table.get ⟨1, 1⟩ = .wholeMonitor 0 8 := by
    rw [he, hop]; decide +kernel
  have hr : (op.run 0).exec m = (.ok (.next (.blocked (some 1))), ((op.run 0).exec m).2) :=
    Prod.ext hanswer rfl
  have hsending : op.sending? = some (⟨0, 4⟩, ⟨1, true, #v[9, 8, 7, 6]⟩) := by rw [hop]; rfl
  obtain ⟨k, n, hsocket, hn, ⟨w, hc, _⟩ | ⟨_, hserver, _⟩⟩ :=
    message_conveyed hm hsending (fun _ => hheld) hr
  · cases hk.symm.trans hsocket
    cases hn
    cases hw.symm.trans hc.waiter
    have htag := hc.tag
    have hdata := hc.data 1
    rw [← hop]
    exact ⟨m, _, _, _, hm, hheld, hr, hc, (hc.yields rfl).1, hmonitor, htag, hdata⟩
  · cases hk.symm.trans hsocket
    cases hserver

end SepKernel
