import SepKernel.Proofs.Channel.Conveyance

/-!
# Calls that are granted

A process that calls for an operation may be refused. Whether it is decides what others notice of
the call: who is sent a message by it, stopped or lent the hart. A process that is stopped is
refused whenever it is to wait for a message in the end.
-/

namespace SepKernel

variable {m m' m₁ : Machine} {h : Hart} {p q : Pid} {s : Slot} {op : Operation} {msg : Message}
  {c : ChannelWord}

/-! ## Callers that are stopped -/

namespace Machine

open Attempt (Decides)

/-- The message of a process that is stopped is refused, and not for want of a receiver. -/
theorem prepare_stopped (hp : (m.processes.get p).status.suspended = true) (h : Hart) (k : Socket)
    (msg : Message) (b : Slot) :
    ∃ e, ((prepare h p k msg b).exec m).1 = .error e ∧ e ≠ .noReceiver := by
  unfold prepare
  rw [Attempt.exec_bind]
  cases hs : (requireSendable k msg).exec m with
  | mk r m₁ =>
    cases r with
    | error e => exact ⟨e, rfl, by rw [requireSendable_error hs]; decide⟩
    | ok _ =>
      dsimp only
      rw [Attempt.exec_bind]
      cases hg : (requireGoing p).exec m₁ with
      | mk r m₂ =>
        cases r with
        -- the sender is looked at before the receiver is
        | error e => exact ⟨e, rfl, by rw [requireGoing_error hg]; decide⟩
        | ok _ =>
          have ha := requireSendable_aside k msg m
          rw [hs] at ha
          obtain ⟨_, hgoing⟩ := requireGoing_ok hg
          rw [ha.kernel, hp] at hgoing
          cases hgoing

/-- Whoever is to be stopped sends nothing. -/
theorem transmit_stopped {k : Socket} (hp : (m.processes.get s.owner).status.suspended = true)
    (hs : m.table.get s = .socket k) (h : Hart) (msg : Message) (b : Slot) :
    (transmit h s.owner k msg b).Decides m fun _ _ => False := by
  rw [transmit_eq]
  refine .bind_at (prepare_aside hs _ _ _ _) fun d m₁ hd _ => ?_
  obtain ⟨e, he, _⟩ := prepare_stopped hp h k msg b
  rw [hd] at he
  cases he

/-- Nor does it receive. -/
theorem receive_stopped (hp : (m.processes.get s.owner).status.suspended = true) (b : Nat) :
    (receive s b).Decides m fun _ _ => False := by
  unfold receive
  refine .bind (requireRole_aside s _) fun k m₁ hk _ => ?_
  obtain ⟨rfl, _⟩ := requireRole_ok hk
  refine .bind (requireGoing_aside _) fun _ m₂ hg _ => ?_
  obtain ⟨_, hgoing⟩ := requireGoing_ok hg
  rw [hp] at hgoing
  cases hgoing

/-- Nor does it call. -/
theorem call_stopped (hp : (m.processes.get s.owner).status.suspended = true) (h : Hart)
    (msg : Message) : (call h s msg).Decides m fun _ _ => False := by
  unfold call
  refine .bind (requireRole_aside s _) fun k m₁ hk _ => ?_
  obtain ⟨rfl, hs, _⟩ := requireRole_ok hk
  refine .bind (slotAt_aside _ _) fun b m₁ hb _ => ?_
  obtain ⟨rfl, hbuffer⟩ := slotAt_ok hb
  refine .bind (requireSendable_aside _ _) fun _ m₂ _ h₂ => ?_
  refine .bind (requireBuffer_aside _ _ _) fun _ m₃ _ h₃ => ?_
  rw [← (trans_of Aside h₂ h₃).kernel] at hp hs
  exact (transmit_stopped hp hs h msg b).complete fun _ _ => False.elim

/-- Nor does it answer, which would come before receiving: the message is refused for the
suspension, and not because nobody is there. -/
theorem replyReceive_stopped (hp : (m.processes.get s.owner).status.suspended = true) (h : Hart)
    (msg : Message) : (replyReceive h s msg).Decides m fun _ _ => False := by
  unfold replyReceive
  refine .bind (requireRole_aside s _) fun k m₁ hk _ => ?_
  obtain ⟨rfl, hs, _⟩ := requireRole_ok hk
  refine .bind (slotAt_aside _ _) fun b m₁ hb _ => ?_
  obtain ⟨rfl, _⟩ := slotAt_ok hb
  refine .bind (requireSendable_aside _ _) fun _ m₂ _ h₂ => ?_
  refine .bind (requireBuffer_aside _ _ _) fun _ m₃ _ h₃ => ?_
  rw [← (trans_of Aside h₂ h₃).kernel] at hp hs
  obtain ⟨e, he, hne⟩ := prepare_stopped hp h k msg b
  -- so the answer is not dropped either
  have hanswer : (answer h s.owner k msg b).Decides m₃ fun _ _ => False := by
    rw [answer_eq]
    refine .bind_at (Attempt.Keeps.observing_at (prepare_aside hs _ _ _ _)) fun r m₄ hr _ => ?_
    rw [Attempt.exec_observing, he] at hr
    cases hr
    split
    · next hd => cases hd
    · next hd => exact absurd (Except.error.inj hd) hne
    · exact .throw _ _
  exact hanswer.complete fun _ _ => False.elim

/-- Either exchange is refused. -/
theorem sendReceive_stopped (hp : (m.processes.get s.owner).status.suspended = true) (h : Hart)
    (msg : Message) : (sendReceive h s msg).Decides m fun _ _ => False := by
  unfold sendReceive
  refine .bind (requireSocket_aside s) fun k m₁ hk _ => ?_
  obtain ⟨rfl, _⟩ := requireSocket_ok hk
  split
  · exact replyReceive_stopped hp h msg
  · exact call_stopped hp h msg

end Machine

/-- An operation is refused at the end of which a process would wait that is stopped. -/
theorem Operation.perform_stopped (hop : op.WaitsAt s)
    (hs : (m.processes.get s.owner).status.suspended = true) (h : Hart) :
    (op.perform h).Decides m fun _ _ => False := by
  -- the answer that an operation would give does not matter
  have refused : ∀ {α : Type} {f : α → Answer} {a : Attempt α},
      (a.Decides m fun _ _ => False) →
      (a >>= fun x => pure (f x)).Decides m fun _ _ => False :=
    fun ha => .map ha _
  cases op with
  | receive =>
    obtain rfl := hop
    exact refused (Machine.receive_stopped hs _)
  | call =>
    obtain rfl := hop
    exact refused (Machine.call_stopped hs h _)
  | replyReceive =>
    obtain rfl := hop
    exact refused (Machine.replyReceive_stopped hs h _)
  | sendReceive =>
    obtain rfl := hop
    exact refused (Machine.sendReceive_stopped hs h _)
  | _ => exact hop.elim

/-! ## Messages that find somebody -/

/-- Does the message of an operation find a process that waits for one at the other end of the
channel, and that can be had? -/
def Operation.Finds (h : Hart) (m : Machine) (q : Pid) (c : ChannelWord) (op : Operation) : Prop :=
  ∃ s msg k w, op.sending? = some (s, msg) ∧ m.table.get s = .socket k ∧ k.chan.setWidth 32 = c ∧
    m.registry.waiter k.chan k.role.peer = some w ∧ w.pid = q ∧
    ((m.processes.get q).receive? c m.board.time (m.board.deadline h)).isSome = true

namespace Operation.Finds

/-- The process that a message finds waits, on the channel of the message. -/
theorem waiting (hf : op.Finds h m q c) : (m.processes.get q).status = .waiting c := by
  obtain ⟨_, _, _, _, _, _, _, _, _, hx⟩ := hf
  obtain ⟨x, hx⟩ := Option.isSome_iff_exists.1 hx
  exact (Process.receive?_eq hx).1

/-- Nothing else matters of the machine. -/
theorem congr (hf : op.Finds h m q c) (ht : m₁.table = m.table) (hr : m₁.registry = m.registry)
    (hb : m₁.board = m.board) (hq : m₁.processes.get q = m.processes.get q) :
    op.Finds h m₁ q c := by
  rwa [Finds, ht, hr, hb, hq]

/-- A message that is sent finds its receiver. -/
theorem of_sends {d : Machine.Delivery} (hop : op.sending? = some (s, msg))
    (hs : Machine.Sends h s msg m d m₁) :
    op.Finds h m d.receiver.pid (d.socket.chan.setWidth 32) := by
  have hwaiter := hs.prepared.waiter
  have htaken := hs.prepared.taken
  rw [hs.aside.kernel] at hwaiter htaken
  rw [hs.aside.board] at htaken
  exact ⟨s, msg, d.socket, d.receiver, hop, hs.socket, rfl, hwaiter, rfl, by rw [htaken]; rfl⟩

/-- If the operation is not refused, the message is delivered to whom it finds. -/
theorem delivered {a : Operation.Answer} (hf : op.Finds h m q c) (hl : m.table.Strung)
    (hq : op.caller ≠ q) (ha : ((op.perform h).exec m).1 = .ok a) :
    ∃ (d : Machine.Delivery) (deadline : Nat) (c : Capability) (b : Bank),
      ((op.perform h).exec m).2.processes.get q =
        { d.received (m.processes.get q) deadline c with bank := b } := by
  obtain ⟨s, msg, k, w, hop, hk, rfl, hw, rfl, hx⟩ := hf
  obtain ⟨n, _, ⟨d, m₁, hs, hlingers, _⟩ | ⟨_, k', hk', _, hu⟩⟩ :=
    (op.sending_decides hop h m).of_ok ha
  · -- it was sent from the socket that was looked at
    have hsocket := hs.socket
    rw [hk] at hsocket
    cases hsocket
    have hwaiter := hs.prepared.waiter
    rw [hs.aside.kernel, hw] at hwaiter
    cases hwaiter
    have hl₁ : m₁.table.Strung := by rwa [hs.aside.kernel]
    obtain ⟨_, hd⟩ := Machine.deliver_delivered hs.prepared hl₁
    obtain ⟨deadline, b, hb⟩ := hs.received hd
    refine ⟨d, deadline, d.landed ((Machine.deliver d).exec m₁).2, b, ?_⟩
    rw [hlingers.others, hb]
    intro _ he
    exact hq ((caller_of_sending hop).trans he.symm)
  · -- an answer is dropped only if there is nobody to be found
    rw [hk] at hk'
    cases hk'
    rw [hu w hw] at hx
    cases hx

end Operation.Finds

/-! ## Calls -/

namespace Machine

/-- Does a process call for an operation, and is it not refused? -/
def Obtains (m : Machine) (h : Hart) (p : Pid) (op : Operation) : Prop :=
  m.requested? p = some op ∧ ∃ o, ((respond h p).exec m).1 = .ok o

/-- An operation that a process obtains was carried out, and succeeded. -/
theorem Obtains.carries (ho : m.Obtains h p op) :
    ∃ m₁ a, Carries h p m op m₁ ∧ ((op.perform h).exec m₁).1 = .ok a := by
  obtain ⟨hop, o, ho⟩ := ho
  simp only [requested?] at hop
  split at hop
  · next c hd =>
    cases hop
    rcases respond_shared h hd with ⟨_, m₁, hc⟩ | ⟨m₁, _, _, he⟩
    · have hanswer := hc.answer
      rw [ho] at hanswer
      cases ha : (((c.operation p).perform h).exec m₁).1 with
      | error e =>
        rw [ha] at hanswer
        cases hanswer
      | ok a => exact ⟨m₁, a, hc, ha⟩
    · -- whoever waits for the lock and is interrupted obtains nothing
      rw [he] at ho
      cases ho
  · cases hop

end Machine
end SepKernel
