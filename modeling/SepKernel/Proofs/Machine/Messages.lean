import SepKernel.Proofs.Machine.Checks

/-!
# Messages

What the operations on channels do once their checks have passed: hand a prepared message over, or
drop it, and let the owner of the socket wait.
-/

namespace SepKernel

variable {m m' m₀ m₁ : Machine} {s : Slot} {h : Hart} {msg : Message} {d : Delivery}

/-- The process that the hart is lent to, by an answer. -/
def Next.lent : Next → Option Pid
  | yield p => some p
  | _ => none

namespace Machine

open Attempt (exec_bind_ok exec_bind_error exec_bind_eq_ok exec_bind_eq_error Decides)

/-! ## Preparing -/

/-- What the checks of a delivery have found out about it. -/
structure Prepared (h : Hart) (d : Delivery) (m : Machine) : Prop where
  waiter : m.registry.waiter d.socket.chan d.socket.role.peer = some d.receiver
  taken : (m.processes.get d.receiver.pid).receive? (d.socket.chan.setWidth 32) m.board.time
    (m.board.deadline h) = some d.taken
  freight : d.message.sendCap = true → d.freight = m.table.get d.buffer ∧ d.freight ≠ .null ∧
    m.table.get d.receiver.buffer = .null

/-- What has been found out when a message is prepared: that its receiver waits and can be taken,
and that there is room for what it ships. -/
theorem prepare_ok {sender : Pid} {k : Socket} {buffer : Slot}
    (hp : (prepare h sender k msg buffer).exec m = (.ok d, m')) :
    Prepared h d m' ∧ d = { d with sender, socket := k, message := msg, buffer } := by
  unfold prepare at hp
  obtain ⟨_, m₁, _, hp⟩ := exec_bind_eq_ok.1 hp
  obtain ⟨_, m₂, _, hp⟩ := exec_bind_eq_ok.1 hp
  obtain ⟨_, m₃, _, hp⟩ := exec_bind_eq_ok.1 hp
  obtain ⟨_, m₄, hm, hp⟩ := exec_bind_eq_ok.1 hp
  cases hm
  split at hp
  · next w hw => -- somebody waits at the other end
    obtain ⟨m₅, ha, hp⟩ := (requireGoing_aside w.pid).guarded_ok hp
    obtain ⟨freight, m₆, hf, hrest⟩ := exec_bind_eq_ok.1 hp
    obtain ⟨rfl, hf⟩ := requireFreight_ok hf
    rw [exec_bind_ok Attempt.exec_get, exec_bind_ok (Attempt.exec_lift _)] at hrest
    split at hrest
    · next ht =>
      cases hrest
      refine ⟨⟨?_, ht, hf⟩, rfl⟩
      show m₆.registry.waiter k.chan k.role.peer = some w
      rw [ha.kernel, hw]
    · cases hrest
  · cases hp

/-! ## Late checks

What goes along with a message is looked at when the message is prepared, and again when it is moved
or deleted. These late checks never fail: between the two the receiver is taken for the hart, which
leaves the table alone. So handing over and dropping are actions, although they are made of parts
that may be refused.
-/

def deliver (d : Delivery) : Action Next := do
  setProcess d.receiver.pid d.taken
  let c ← if d.message.sendCap then relocate d.buffer d.receiver.buffer d.freight else pure .null
  hand d c

def dropAnswer (m : Message) (buffer : Slot) : Action Unit := do
  let c ← capability buffer
  if m.sendCap && !c.isNull then
    discardCapability buffer c

/-- A slot of a capability that goes along and is there is deleted without a check. -/
theorem dropAnswer_eq (msg : Message) (b : Slot) (m : Machine) :
    (dropAnswer msg b).exec m =
      if msg.sendCap && !(m.table.get b).isNull then (discardCapability b (m.table.get b)).exec m
      else ((), m) := by
  show (if msg.sendCap && !(m.table.get b).isNull then discardCapability b (m.table.get b)
    else pure () : Action Unit).exec m = _
  split <;> rfl

theorem transferCapability_exec {source target : Slot} (hs : m.table.get source ≠ .null)
    (ht : m.table.get target = .null) :
    (transferCapability source target).exec m =
      (.ok ((relocate source target (m.table.get source)).exec m).1,
        ((relocate source target (m.table.get source)).exec m).2) := by
  rw [transferCapability, exec_bind_ok (requireSource_exec hs),
    exec_bind_ok (requireVacant_exec ht), Attempt.exec_lift]

theorem deleteCapability_exec (hs : m.table.get s ≠ .null) :
    (deleteCapability s).exec m =
      (.ok (), ((discardCapability s (m.table.get s)).exec m).2) := by
  rw [deleteCapability, exec_bind_ok (readCapability_occupied hs), Attempt.exec_lift]

/-- The move that a message makes is not refused, as its checks were made when the message was
prepared. -/
theorem transmit_eq (h : Hart) (sender : Pid) (k : Socket) (msg : Message) (b : Slot) :
    transmit h sender k msg b = (do deliver (← prepare h sender k msg b) : Attempt Next) := by
  funext m
  show (transmit h sender k msg b).exec m = Attempt.exec (prepare h sender k msg b >>= _) m
  cases hp : (prepare h sender k msg b).exec m with
  | mk r m₁ =>
    cases r with
    | error e => rw [transmit, exec_bind_error hp, exec_bind_error hp]
    | ok d =>
      obtain ⟨hd, he⟩ := prepare_ok hp
      have hmessage : d.message = msg := by rw [he]
      have hbuffer : d.buffer = b := by rw [he]
      rw [transmit, exec_bind_ok hp, exec_bind_ok hp, exec_bind_ok (Attempt.exec_lift _)]
      rw [deliver, hmessage, hbuffer]
      split
      · next hc =>
        obtain ⟨hf, hne, hv⟩ := hd.freight (hmessage ▸ hc)
        rw [hf, hbuffer] at hne ⊢
        dsimp only
        -- taking the receiver left the table alone
        rw [exec_bind_ok (transferCapability_exec (by exact hne) (by exact hv))]
        rfl
      · rfl

/-- An answer that nobody waits for is dropped without a check that could fail. -/
theorem answer_eq (h : Hart) (sender : Pid) (k : Socket) (msg : Message) (b : Slot) :
    answer h sender k msg b = (do
      match ← observing (prepare h sender k msg b) with
      | .ok d => deliver d
      | .error .noReceiver =>
        dropAnswer msg b
        return .caller
      | .error e => throw e : Attempt Next) := by
  funext m
  show (answer h sender k msg b).exec m =
    Attempt.exec (observing (prepare h sender k msg b) >>= _) m
  rw [answer, transmit_eq, exec_bind_ok (Attempt.exec_observing _),
    exec_bind_ok (Attempt.exec_observing _)]
  cases hp : (prepare h sender k msg b).exec m with
  | mk r m₁ =>
    cases r with
    | ok d =>
      rw [exec_bind_ok hp]
      rfl
    | error e =>
      rw [exec_bind_error hp]
      cases e
      case noReceiver => -- the deletion passes its check, for it is made only if there is something
        dsimp only
        rw [exec_bind_ok (Attempt.exec_lift _), capability_exec, exec_bind_ok (Attempt.exec_lift _),
          dropAnswer_eq]
        dsimp only
        split
        · next hc =>
          have hne : m₁.table.get b ≠ .null := by
            simp only [Bool.and_eq_true, Bool.not_eq_true', Bool.eq_false_iff] at hc
            exact mt (Capability.isNull_iff _).2 hc.2
          rw [exec_bind_ok (deleteCapability_exec hne)]
        · rfl
      all_goals rfl

/-- Can nobody be had who waits at the other end of the channel of a socket? -/
def Unattended (m : Machine) (h : Hart) (k : Socket) : Prop :=
  ∀ w, m.registry.waiter k.chan k.role.peer = some w →
    (m.processes.get w.pid).receive? (k.chan.setWidth 32) m.board.time (m.board.deadline h) = none

/-- Whether there is a receiver is a matter of the registry, the processes and the clock. -/
theorem Unattended.congr {k : Socket} (hk : m₀.toKernel = m.toKernel) (hb : m₀.board = m.board)
    (hu : m₀.Unattended h k) : m.Unattended h k := by
  intro w hw
  have hreceive := hu w (by rw [hk, hw])
  rwa [hk, hb] at hreceive

theorem Unattended.before {k : Socket} (h₀ : Aside m m₀) (hu : m₀.Unattended h k) :
    m.Unattended h k :=
  hu.congr h₀.kernel h₀.board

/-- Only one check of a message looks for its receiver, and it refuses only if there is none. -/
theorem prepare_noReceiver {sender : Pid} {k : Socket} {buffer : Slot}
    (hp : (prepare h sender k msg buffer).exec m = (.error .noReceiver, m')) :
    m.Unattended h k := by
  unfold prepare at hp
  rcases exec_bind_eq_error.1 hp with hp | ⟨_, m₁, h₁, hp⟩
  · cases requireSendable_error hp
  have ha := requireSendable_aside k msg m
  rw [h₁] at ha
  apply Unattended.before ha
  rcases exec_bind_eq_error.1 hp with hp | ⟨_, m₂, h₂, hp⟩
  · cases requireGoing_error hp
  have ha := requireGoing_aside sender m₁
  rw [h₂] at ha
  apply Unattended.before ha
  rw [exec_bind_ok (Attempt.exec_lift _)] at hp
  suffices hu : ((expect .channel (decide (k.chan.toNat < channelCount))).exec
      m₂).2.Unattended h k from hu.congr (by rw [expect_exec]) (by rw [expect_exec])
  rw [exec_bind_ok Attempt.exec_get] at hp
  intro w hw
  rw [hw] at hp
  -- the other checks give other reasons
  have hgoing : ∀ m', (requireGoing w.pid).exec
      ((expect .channel (decide (k.chan.toNat < channelCount))).exec m₂).2 ≠
        (.error .noReceiver, m') := by
    intro _ he
    cases requireGoing_error he
  obtain ⟨m₃, ha, hp⟩ := (requireGoing_aside w.pid).guarded_error hgoing hp
  rcases exec_bind_eq_error.1 hp with hf | ⟨freight, m₄, hf, hrest⟩
  · rcases requireFreight_error hf with he | he <;> cases he
  obtain ⟨rfl, _⟩ := requireFreight_ok hf
  rw [exec_bind_ok Attempt.exec_get, exec_bind_ok (Attempt.exec_lift _)] at hrest
  rw [← ha.kernel, ← ha.board]
  split at hrest
  · cases hrest
  · next hnone => exact hnone

structure Sends (h : Hart) (s : Slot) (msg : Message) (m : Machine) (d : Delivery) (m₁ : Machine) :
    Prop where
  aside : Aside m m₁
  socket : m.table.get s = .socket d.socket
  sender : d.sender = s.owner
  message : d.message = msg
  buffer : d.buffer.owner = s.owner ∧ d.buffer.index.val = msg.buffer
  prepared : Prepared h d m₁

/-- Asides may come before a message is sent. -/
theorem Sends.before (h₀ : Aside m m₀) (hs : Sends h s msg m₀ d m₁) : Sends h s msg m d m₁ :=
  { hs with
    aside := trans_of Aside h₀ hs.aside
    socket := by rw [← h₀.kernel, hs.socket] }

/-! ## Operations -/

/-- A message over a socket is prepared and handed over. -/
theorem transmit_decides {k : Socket} {b : Slot} (hs : m.table.get s = .socket k)
    (hb : b.owner = s.owner ∧ b.index.val = msg.buffer) (h : Hart) :
    (transmit h s.owner k msg b).Decides m fun n m' =>
      ∃ d m₁, Sends h s msg m d m₁ ∧ d.socket = k ∧ d.buffer = b ∧
        (deliver d).exec m₁ = (n, m') := by
  rw [transmit_eq]
  refine .bind_at (prepare_aside hs _ _ _ _) fun d m₁ hd h₁ => ?_
  obtain ⟨hd, he⟩ := prepare_ok hd
  have hsocket : d.socket = k := by rw [he]
  have hbuffer : d.buffer = b := by rw [he]
  refine ⟨d, m₁, ⟨h₁, ?_, by rw [he], by rw [he], ?_, hd⟩, hsocket, hbuffer, rfl⟩
  · rw [hsocket, hs]
  · rw [hbuffer]
    exact hb

/-- A message is prepared and delivered, or it is refused. -/
theorem send_decides (h : Hart) (s : Slot) (msg : Message) (m : Machine) :
    (send h s msg).Decides m fun n m' =>
      ∃ d m₁, Sends h s msg m d m₁ ∧ (deliver d).exec m₁ = (n, m') := by
  unfold send
  refine .bind (requireSocket_aside s) fun k m₁ hk _ => ?_
  obtain ⟨rfl, hs⟩ := requireSocket_ok hk
  refine .bind (slotAt_aside _ _) fun b m₁ hb _ => ?_
  obtain ⟨rfl, hbuffer⟩ := slotAt_ok hb
  exact (transmit_decides hs hbuffer h).mono fun n m' ⟨d, m₂, hd, _, _, hdeliver⟩ =>
    ⟨d, m₂, hd, hdeliver⟩

/-- The owner of a server waits for a client. -/
theorem receive_decides (s : Slot) (buffer : Nat) (m : Machine) :
    (receive s buffer).Decides m fun n m' => n = .blocked none ∧ ∃ k b m₁,
      Aside m m₁ ∧ m.table.get s = .socket k ∧ k.role = .server ∧ b.owner = s.owner ∧
        b.index.val = buffer ∧ m' = ((awaitClient k s.owner b).exec m₁).2 := by
  unfold receive
  refine .bind (requireRole_aside s _) fun k m₁ hk _ => ?_
  obtain ⟨rfl, hs, hr⟩ := requireRole_ok hk
  refine .bind (requireGoing_aside _) fun _ m₂ _ h₂ => ?_
  refine .bind (slotAt_aside _ _) fun b m₃ hb _ => ?_
  obtain ⟨rfl, hbo, hbi⟩ := slotAt_ok hb
  refine .guarded (requireVacant_aside b) fun m₄ h₄ => ?_
  exact ⟨rfl, k, b, m₄, trans_of Aside h₂ h₄, hs, hr, hbo, hbi, rfl⟩

/-- Wait for the answer to a message. The wait has a deadline only if the hart was lent. -/
def awaitAnswer (k : Socket) (p : Pid) (b : Slot) (lent : Option Pid) : Action Unit := do
  await k p b
  if lent = none then
    awaitForever p

/-- The owner of a client hands a message over and waits for the answer. -/
theorem call_decides (h : Hart) (s : Slot) (msg : Message) (m : Machine) :
    (call h s msg).Decides m fun n m' => ∃ d m₁ n₀ m₂,
      Sends h s msg m d m₁ ∧ d.socket.role = .client ∧ (deliver d).exec m₁ = (n₀, m₂) ∧
        n = .blocked n₀.lent ∧
        m' = ((awaitAnswer d.socket s.owner d.buffer n₀.lent).exec m₂).2 := by
  unfold call
  refine .bind (requireRole_aside s _) fun k m₁ hk _ => ?_
  obtain ⟨rfl, hs, hr⟩ := requireRole_ok hk
  refine .bind (slotAt_aside _ _) fun b m₁ hb _ => ?_
  obtain ⟨rfl, hbuffer⟩ := slotAt_ok hb
  refine .bind (requireSendable_aside _ _) fun _ m₂ _ h₂ => ?_
  refine .bind (requireBuffer_aside _ _ _) fun _ m₃ _ h₃ => ?_
  have hs₃ : m₃.table.get s = .socket k := by rw [(trans_of Aside h₂ h₃).kernel, hs]
  -- past its checks, a client transmits its message and waits
  refine (transmit_decides hs₃ hbuffer h).complete ?_
  rintro n₀ m₅ ⟨d, m₄, hsends, rfl, rfl, hdeliver⟩
  rw [exec_bind_ok (Attempt.exec_lift _)]
  refine ⟨.blocked n₀.lent, ((awaitAnswer d.socket s.owner d.buffer n₀.lent).exec m₅).2, ?_,
    d, m₄, n₀, m₅, hsends.before (trans_of Aside h₂ h₃), hr, hdeliver, rfl, rfl⟩
  cases n₀ <;> rfl

inductive Answers (h : Hart) (s : Slot) (msg : Message) (m : Machine) : Next → Machine → Prop
  | deliver {d : Delivery} {m₁ : Machine} : Sends h s msg m d m₁ →
      Answers h s msg m ((deliver d).exec m₁).1 ((deliver d).exec m₁).2
  | drop {b : Slot} {m₁ : Machine} {k : Socket} : Aside m m₁ → b.owner = s.owner →
      b.index.val = msg.buffer → m.table.get s = .socket k → m.Unattended h k →
      Answers h s msg m .caller ((dropAnswer msg b).exec m₁).2

/-- Asides may come before a message is answered. -/
theorem Answers.before {n : Next} (h₀ : Aside m m₀) (ha : Answers h s msg m₀ n m') :
    Answers h s msg m n m' := by
  cases ha with
  | deliver hs => exact .deliver (hs.before h₀)
  | drop h₁ hbo hbi hs hu =>
    exact .drop (trans_of Aside h₀ h₁) hbo hbi (by rw [← h₀.kernel, hs]) (hu.before h₀)

/-- An answer is delivered, dropped or refused. -/
theorem answer_decides {k : Socket} {b : Slot} (hs : m.table.get s = .socket k)
    (hbo : b.owner = s.owner) (hbi : b.index.val = msg.buffer) (h : Hart) :
    (answer h s.owner k msg b).Decides m (Answers h s msg m) := by
  rw [answer_eq]
  refine .bind_at (Attempt.Keeps.observing_at (prepare_aside hs _ _ _ _)) fun r m₁ hr h₁ => ?_
  rw [Attempt.exec_observing] at hr
  obtain ⟨hr, hm⟩ := Prod.mk.inj hr
  -- the answer is delivered, or dropped if nobody is there
  cases r with
  | ok d =>
    obtain ⟨hd, he⟩ := prepare_ok (Prod.ext (Except.ok.inj hr) hm)
    exact .deliver ⟨h₁, by rw [he, hs], by rw [he], by rw [he], by rw [he]; exact ⟨hbo, hbi⟩, hd⟩
  | error e =>
    split
    · next he => cases he
    · next he =>
      cases he
      exact .drop h₁ hbo hbi hs (prepare_noReceiver (Prod.ext (Except.ok.inj hr) hm))
    · exact .throw _ m₁

/-- The owner of a server answers a client and waits for the next. -/
theorem replyReceive_decides (h : Hart) (s : Slot) (msg : Message) (m : Machine) :
    (replyReceive h s msg).Decides m fun n m' => ∃ k b n₀ m₁,
      m.table.get s = .socket k ∧ k.role = .server ∧ b.owner = s.owner ∧
        b.index.val = msg.buffer ∧ Answers h s msg m n₀ m₁ ∧ n = .blocked n₀.lent ∧
        m' = ((awaitClient k s.owner b).exec m₁).2 := by
  unfold replyReceive
  refine .bind (requireRole_aside s _) fun k m₁ hk _ => ?_
  obtain ⟨rfl, hs, hr⟩ := requireRole_ok hk
  refine .bind (slotAt_aside _ _) fun b m₁ hb _ => ?_
  obtain ⟨rfl, hbo, hbi⟩ := slotAt_ok hb
  refine .bind (requireSendable_aside _ _) fun _ m₂ _ h₂ => ?_
  refine .bind (requireBuffer_aside _ _ _) fun _ m₃ _ h₃ => ?_
  have h₃ : Aside m₁ m₃ := trans_of Aside h₂ h₃
  -- past its checks, a server answers and waits, whether anybody was there or not
  refine .complete (answer_decides (by rw [h₃.kernel, hs]) hbo hbi h) ?_
  intro n₀ m₄ hanswer
  rw [exec_bind_ok (Attempt.exec_lift _)]
  refine ⟨.blocked n₀.lent, ((awaitClient k s.owner b).exec m₄).2, ?_, k, b, n₀, m₄, hs, hr, hbo,
    hbi, hanswer.before h₃, rfl, rfl⟩
  cases n₀ <;> rfl

end Machine
end SepKernel
