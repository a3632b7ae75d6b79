import SepKernel.Proofs.Machine.Carried

/-!
# Answering and waiting in one call

A server may answer its client and wait for the next one in two calls, or in one. The one call makes
the checks of both before it delivers, so that it is refused if the second call would be: after the
answer there is no going back. Where an answer is delivered, the one call succeeds if the two do,
and leaves the same machine behind. Where nobody is there to be answered, it drops the capability
that was to go along and waits.

This needs that the server is held, so that the answer cannot come to itself, and that the
capability that goes along is not the socket it waits at.
-/

namespace SepKernel

variable {m m' m₁ n : Machine} {roots : List Capability} {h : Hart} {p : Pid} {s b : Slot}
  {msg : Message} {k : Socket} {d : Machine.Delivery}

namespace Machine

open Attempt (exec_bind_ok exec_bind_error exec_bind_eq_ok exec_bind_eq_error)

/-! ## Checks -/

def Room (m : Machine) (k : Socket) (msg : Message) (b : Slot) : Prop :=
  k.permission.clientCap = true → msg.sendCap = false → m.table.get b = .null

/-- A server with room for what may come passes the check of its buffer. -/
theorem requireBuffer_exec (hr : k.role = .server) (hroom : m.Room k msg b) :
    (requireBuffer k msg b).exec m = (.ok (), m) := by
  unfold requireBuffer
  rw [hr]
  show (if k.permission.clientCap && !msg.sendCap then requireVacant b else pure ()).exec m = _
  split
  · next hc =>
    simp only [Bool.and_eq_true, Bool.not_eq_true'] at hc
    exact requireVacant_exec (hroom hc.1 hc.2)
  · rfl

/-- The check looks at the buffer only if a client may send a capability and the server sends none
itself. -/
theorem requireBuffer_refused (hr : k.role = .server) (hcap : k.permission.clientCap = true)
    (hplain : msg.sendCap = false) (hb : m.table.get b ≠ .null) :
    (requireBuffer k msg b).exec m = (.error .dstOccupied, m) := by
  unfold requireBuffer
  rw [hr]
  show (if k.permission.clientCap && !msg.sendCap then requireVacant b else pure ()).exec m = _
  rw [if_pos (by simp [hcap, hplain])]
  exact requireVacant_refused hb

/-- If the check of the buffer passes, there is room, and nothing has happened. -/
theorem requireBuffer_ok (hr : k.role = .server)
    (hb : (requireBuffer k msg b).exec m = (.ok (), m')) : m' = m ∧ m.Room k msg b := by
  by_cases hroom : m.Room k msg b
  · rw [requireBuffer_exec hr hroom] at hb
    cases hb
    exact ⟨rfl, hroom⟩
  · simp only [Room, Classical.not_imp] at hroom
    obtain ⟨hcap, hplain, hocc⟩ := hroom
    rw [requireBuffer_refused hr hcap hplain hocc] at hb
    cases hb

/-- A message that gets as far as its receiver may be sent, and its sender is not stopped. -/
theorem prepare_passed {r : Except Error Delivery} (hp : (prepare h p k msg b).exec m = (r, m₁))
    (hr : (∃ d, r = .ok d) ∨ r = .error .noReceiver) :
    (requireSendable k msg).exec m = (.ok (), m) ∧
      (m.processes.get p).status.suspended = false := by
  have hne : ∀ e, e ≠ .noReceiver → r ≠ .error e := by
    rintro e he rfl
    obtain ⟨_, ⟨⟩⟩ | ⟨⟨⟩⟩ := hr
    exact he rfl
  unfold prepare at hp
  -- the two checks come first, and the reasons that they give are others
  cases hsend : (requireSendable k msg).exec m with
  | mk x m₂ =>
    cases x with
    | error e =>
      obtain rfl := requireSendable_error hsend
      rw [exec_bind_error hsend] at hp
      exact absurd (congrArg Prod.fst hp).symm (hne _ (by decide))
    | ok x =>
      obtain rfl := requireSendable_ok hsend
      rw [exec_bind_ok hsend] at hp
      refine ⟨rfl, ?_⟩
      cases hgoing : (requireGoing p).exec m₂ with
      | mk y m₃ =>
        cases y with
        | error e =>
          obtain rfl := requireGoing_error hgoing
          rw [exec_bind_error hgoing] at hp
          exact absurd (congrArg Prod.fst hp).symm (hne _ (by decide))
        | ok y => exact (requireGoing_ok hgoing).2

/-! ## The operations on a server -/

theorem send_exec (hs : m.table.get s = .socket k) (ho : b.owner = s.owner)
    (hi : b.index.val = msg.buffer) :
    (send h s msg).exec m = (do deliver (← prepare h s.owner k msg b) : Attempt Next).exec m := by
  rw [send, exec_bind_ok (requireSocket_exec hs), exec_bind_ok (slotAt_exec ho hi), transmit_eq]

section Server
variable (hs : m.table.get s = .socket k) (hr : k.role = .server) (ho : b.owner = s.owner)
include hs hr ho

/-- Past its checks, a server waits. That cannot fail. -/
theorem receive_exec {buffer : Nat} (hi : b.index.val = buffer)
    (hgoing : (m.processes.get s.owner).status.suspended = false)
    (hroom : k.permission.clientCap = true → m.table.get b = .null) :
    (receive s buffer).exec m = (.ok (.blocked none), ((awaitClient k s.owner b).exec m).2) := by
  rw [receive, exec_bind_ok (requireRole_exec hs hr), exec_bind_ok (requireGoing_exec hgoing),
    exec_bind_ok (slotAt_exec ho hi)]
  split
  · next hcap =>
    rw [exec_bind_ok (requireVacant_exec (hroom hcap))]
    rfl
  · rfl

theorem receive_refused {buffer : Nat} (hi : b.index.val = buffer)
    (hgoing : (m.processes.get s.owner).status.suspended = false)
    (hcap : k.permission.clientCap = true) (hb : m.table.get b ≠ .null) :
    (receive s buffer).exec m = (.error .dstOccupied, m) := by
  rw [receive, exec_bind_ok (requireRole_exec hs hr), exec_bind_ok (requireGoing_exec hgoing),
    exec_bind_ok (slotAt_exec ho hi), if_pos hcap, exec_bind_error (requireVacant_refused hb)]

/-- A server that waits has room for what may come. -/
theorem receive_ok {buffer : Nat} (hi : b.index.val = buffer) {x : Next}
    (hx : (receive s buffer).exec m = (.ok x, m')) :
    (m.processes.get s.owner).status.suspended = false ∧
      (k.permission.clientCap = true → m.table.get b = .null) := by
  rw [receive, exec_bind_ok (requireRole_exec hs hr)] at hx
  obtain ⟨_, m₁, hgoing, hrest⟩ := exec_bind_eq_ok.1 hx
  obtain ⟨rfl, hgoing⟩ := requireGoing_ok hgoing
  refine ⟨hgoing, fun hcap => ?_⟩
  rw [exec_bind_ok (slotAt_exec ho hi), if_pos hcap] at hrest
  obtain ⟨_, m₂, hvacant, _⟩ := exec_bind_eq_ok.1 hrest
  exact (requireVacant_ok hvacant).2

/-- Past its checks, a server answers and waits. -/
theorem replyReceive_exec (hi : b.index.val = msg.buffer)
    (hsend : (requireSendable k msg).exec m = (.ok (), m)) (hroom : m.Room k msg b) {a : Next}
    (ha : (answer h s.owner k msg b).exec m = (.ok a, m₁)) :
    (replyReceive h s msg).exec m =
      (.ok (.blocked a.lent), ((awaitClient k s.owner b).exec m₁).2) := by
  rw [replyReceive, exec_bind_ok (requireRole_exec hs hr), exec_bind_ok (slotAt_exec ho hi),
    exec_bind_ok hsend, exec_bind_ok (requireBuffer_exec hr hroom), exec_bind_ok ha]
  cases a <;> rfl

/-- What a server that answered and waits has passed, up to the answer itself. -/
theorem replyReceive_ok (hi : b.index.val = msg.buffer) {x : Next}
    (hx : (replyReceive h s msg).exec m = (.ok x, m')) :
    (requireSendable k msg).exec m = (.ok (), m) ∧ m.Room k msg b ∧
      ∃ a m₁, (answer h s.owner k msg b).exec m = (.ok a, m₁) := by
  rw [replyReceive, exec_bind_ok (requireRole_exec hs hr), exec_bind_ok (slotAt_exec ho hi)] at hx
  obtain ⟨_, m₁, hsend, hrest⟩ := exec_bind_eq_ok.1 hx
  obtain rfl := requireSendable_ok hsend
  obtain ⟨_, m₂, hbuffer, hanswer⟩ := exec_bind_eq_ok.1 hrest
  obtain ⟨rfl, hroom⟩ := requireBuffer_ok hr hbuffer
  obtain ⟨a, m₃, ha, _⟩ := exec_bind_eq_ok.1 hanswer
  exact ⟨hsend, hroom, a, m₃, ha⟩

end Server

/-- An answer that was prepared is handed over. -/
theorem answer_delivers (hd : (prepare h p k msg b).exec m = (.ok d, m₁)) :
    (answer h p k msg b).exec m = (.ok ((deliver d).exec m₁).1, ((deliver d).exec m₁).2) := by
  have hob : (observing (prepare h p k msg b)).exec m = (.ok (.ok d), m₁) := by
    rw [Attempt.exec_observing, hd]
  rw [answer_eq, exec_bind_ok hob]
  rfl

/-- An answer that finds no receiver is dropped, and that is a success. -/
theorem answer_drops (hd : (prepare h p k msg b).exec m = (.error .noReceiver, m₁)) :
    (answer h p k msg b).exec m = (.ok .caller, ((dropAnswer msg b).exec m₁).2) := by
  have hob : (observing (prepare h p k msg b)).exec m = (.ok (.error .noReceiver), m₁) := by
    rw [Attempt.exec_observing, hd]
  rw [answer_eq, exec_bind_ok hob]
  rfl

/-- An answer is delivered or dropped, or refused. -/
theorem answer_ok {a : Next} (ha : (answer h p k msg b).exec m = (.ok a, m')) :
    (∃ d m₁, (prepare h p k msg b).exec m = (.ok d, m₁)) ∨
      ∃ m₁, (prepare h p k msg b).exec m = (.error .noReceiver, m₁) := by
  cases hp : (prepare h p k msg b).exec m with
  | mk r m₁ =>
    have hob : (observing (prepare h p k msg b)).exec m = (.ok r, m₁) := by
      rw [Attempt.exec_observing, hp]
    rw [answer_eq, exec_bind_ok hob] at ha
    cases r with
    | ok d => exact .inl ⟨d, m₁, rfl⟩
    | error e =>
      cases e
      case noReceiver => exact .inr ⟨m₁, rfl⟩ -- the one refusal that an answer survives
      all_goals cases ha

/-! ## After the answer -/

/-- What a server finds once its answer is delivered or dropped: its own socket, and its buffer
vacant if a capability was to go along. -/
structure Answered (s b : Slot) (msg : Message) (m m' : Machine) : Prop where
  socket : m'.table.get s = m.table.get s
  status : (m'.processes.get s.owner).status = (m.processes.get s.owner).status
  emptied : msg.sendCap = true → m'.table.get b = .null
  kept : msg.sendCap = false → m'.table = m.table

/-- If there was room for a capability before, there is now, whatever went along. -/
theorem Answered.room (ha : Answered s b msg m m') (hroom : m.Room k msg b)
    (hcap : k.permission.clientCap = true) : m'.table.get b = .null := by
  cases hc : msg.sendCap with
  | true => exact ha.emptied hc
  | false =>
    rw [ha.kept hc]
    exact hroom hcap hc

/-- If the buffer is vacant after the answer, it was vacant before, or what was in it went along. -/
theorem Answered.room_before (ha : Answered s b msg m m')
    (hvacant : k.permission.clientCap = true → m'.table.get b = .null) : m.Room k msg b := by
  intro hcap hplain
  rw [← ha.kept hplain]
  exact hvacant hcap

/-- Is a process that waited at the other end of a channel let go? -/
def Relieves (k : Socket) (m m' : Machine) : Prop :=
  ∃ w, m.registry.waiter k.chan k.role.peer = some w ∧
    (m.processes.get w.pid).status = .waiting (k.chan.setWidth 32) ∧
    (m'.processes.get w.pid).status ≠ .waiting (k.chan.setWidth 32)

/-- The delivery is that of the socket and of the buffer that the message was prepared for. -/
theorem prepare_sends (hs : m.table.get s = .socket k) (ho : b.owner = s.owner)
    (hi : b.index.val = msg.buffer) (hd : (prepare h s.owner k msg b).exec m = (.ok d, m₁)) :
    Sends h s msg m d m₁ ∧ d.socket = k ∧ d.buffer = b := by
  have ha := prepare_aside hs h s.owner msg b
  rw [hd] at ha
  obtain ⟨hprepared, he⟩ := prepare_ok hd
  exact ⟨⟨ha, by rw [he, hs], by rw [he], by rw [he], by rw [he]; exact ⟨ho, hi⟩, hprepared⟩,
    by rw [he], by rw [he]⟩

section Sent
variable (hm : Reachable roots m) (hd : Sends h s msg m d m₁)
include hm hd

/-- The process that gets the message waited for it, and does not wait any more. -/
theorem Sends.relieves : Relieves d.socket m ((deliver d).exec m₁).2 := by
  have hl : m₁.table.Strung := by
    rw [hd.aside.kernel]
    exact hm.lineal.strung
  obtain ⟨_, hdelivered⟩ := deliver_delivered hd.prepared hl
  obtain ⟨hwaits, _⟩ := Process.receive?_eq hd.prepared.taken
  have hwaiter := hd.prepared.waiter
  rw [hd.aside.kernel] at hwaits hwaiter
  refine ⟨d.receiver, hwaiter, hwaits, ?_⟩
  obtain ⟨_, hreceiver⟩ := hdelivered.receiver
  rw [hreceiver]
  -- in either mode the receiver runs or is ready
  show (Delivery.received d _ _ _).status ≠ _
  unfold Delivery.received
  split
  · exact fun he => by cases he
  · exact fun he => by cases he

/-- After an answer was delivered, the server finds its own socket as it was, and its buffer vacant
if a capability went along. It is held, so that it is not the receiver. -/
theorem Sends.answered (hheld : m.Holds s.owner) (hbs : d.buffer ≠ s) :
    Answered s d.buffer msg m ((deliver d).exec m₁).2 := by
  have hl : m₁.table.Strung := by
    rw [hd.aside.kernel]
    exact hm.lineal.strung
  obtain ⟨_, hdelivered⟩ := deliver_delivered hd.prepared hl
  have hplain : msg.sendCap = false → ((deliver d).exec m₁).2.table = m.table := by
    intro hc
    rw [hdelivered.table, hd.message, hc, if_neg Bool.false_ne_true, hd.aside.kernel]
  constructor
  case socket =>
    cases hc : msg.sendCap with
    | true =>
      obtain ⟨_, hvacant, _, _, hothers⟩ := hd.freight hm.lineal.strung hdelivered hc
      apply hothers s hbs.symm
      intro he
      rw [← he, hd.socket] at hvacant
      cases hvacant
    | false => rw [hplain hc]
  case status =>
    -- who is held does not wait to be sent a message
    have hne : s.owner ≠ d.receiver.pid := by
      intro he
      obtain ⟨hidle, _⟩ := Process.receive?_status hd.prepared.taken
      rw [hd.aside.kernel, ← he] at hidle
      rw [Holds, hidle] at hheld
      cases hheld
    obtain ⟨_, hothers⟩ := hdelivered.others s.owner hne
    rw [hothers, hd.aside.kernel]
  case emptied =>
    intro hc
    obtain ⟨_, _, hempty, _⟩ := hd.freight hm.lineal.strung hdelivered hc
    exact hempty
  case kept => exact hplain

end Sent

/-- After an answer was dropped, the server finds the same: what was to go along is gone. -/
theorem dropAnswer_answered (hbs : b ≠ s) :
    Answered s b msg m ((dropAnswer msg b).exec m).2 := by
  have hstatus := (dropAnswer_clerical msg b m).settled.calm s.owner
  rw [dropAnswer_eq] at hstatus ⊢
  split at hstatus
  · next hc =>
    simp only [Bool.and_eq_true, Bool.not_eq_true'] at hc
    rw [if_pos (by simp [hc])]
    constructor
    case socket => rw [discard_table, Table.get_unlink, if_neg hbs]
    case status => exact hstatus
    case emptied =>
      intro _
      rw [discard_table, Table.get_unlink, if_pos rfl]
    case kept =>
      intro hplain
      rw [hplain] at hc
      cases hc.1
  · next hc =>
    rw [if_neg hc]
    -- the buffer is vacant already, or nothing goes along
    refine ⟨rfl, rfl, fun hsend => ?_, fun _ => rfl⟩
    simp only [hsend, Bool.true_and, Bool.not_eq_true', Bool.not_eq_false] at hc
    exact (Capability.isNull_iff _).1 hc

/-! ## What was noted makes no difference -/

/-- Deleting does the same on equal kernels. -/
theorem kernel_discard (hk : m.toKernel = n.toKernel) (c : Capability) :
    ((discardCapability b c).exec m).2.toKernel = ((discardCapability b c).exec n).2.toKernel := by
  have hprocesses : m.processes = n.processes := congrArg Kernel.processes hk
  apply Kernel.ext
  case table => rw [discard_table, discard_table, congrArg Kernel.table hk]
  case registry => rw [discard_registry, discard_registry, congrArg Kernel.registry hk]
  case processes =>
    ext p : 1
    -- only the bank of a process changes, and by the table and the banks of before
    obtain ⟨x, hx⟩ := (discardCapability_clerical b c m).settled p
    obtain ⟨y, hy⟩ := (discardCapability_clerical b c n).settled p
    have hbank : x = _ := (congrArg Process.bank hx).symm.trans (discard_bank m b c p)
    have hbank' : y = _ := (congrArg Process.bank hy).symm.trans (discard_bank n b c p)
    rw [hx, hy, hbank, hbank', hprocesses]
  case schedule =>
    ext hart col : 2
    rw [discard_schedule, discard_schedule, congrArg Kernel.schedule hk]

/-- Dropping an answer does the same on equal kernels. -/
theorem kernel_dropAnswer (hk : m.toKernel = n.toKernel) :
    ((dropAnswer msg b).exec m).2.toKernel = ((dropAnswer msg b).exec n).2.toKernel := by
  have htable : m.table = n.table := congrArg Kernel.table hk
  rw [dropAnswer_eq, dropAnswer_eq, htable]
  split
  · exact kernel_discard hk _
  · exact hk

/-- What waiting changes: an entry of the registry, and the status, the deadline and one register of
the server. -/
theorem awaitClient_kernel (k : Socket) (p : Pid) (b : Slot) (m : Machine) :
    ((awaitClient k p b).exec m).2.toKernel =
      { m.toKernel with
        registry := m.registry.setWaiter k.chan k.role (some ⟨p, b⟩)
        processes := m.processes.put p
          { ((m.processes.get p).await (k.chan.setWidth 32)).report .timeout with
            deadline := never } } := by
  simp [awaitClient, await, awaitForever, Processes.put_put]

theorem kernel_awaitClient (hk : m.toKernel = n.toKernel) :
    ((awaitClient k p b).exec m).2.toKernel = ((awaitClient k p b).exec n).2.toKernel := by
  rw [awaitClient_kernel, awaitClient_kernel, hk]

theorem awaitClient_board (k : Socket) (p : Pid) (b : Slot) (m : Machine) :
    ((awaitClient k p b).exec m).2.board = m.board := by
  simp [awaitClient, await, awaitForever]

/-! ## In two calls -/

/-- Delete the capability that was to go along with an answer, if it is there, and wait. -/
def deleteAndReceive (s b : Slot) (msg : Message) : Attempt Next := do
  if msg.sendCap && !(← capability b).isNull then
    deleteCapability b
  receive s msg.buffer

/-- Deleting what is there, with all checks of a deletion, is what dropping the answer does. -/
theorem deleteAndReceive_exec (s b : Slot) (msg : Message) (m : Machine) :
    (deleteAndReceive s b msg).exec m =
      (receive s msg.buffer).exec ((dropAnswer msg b).exec m).2 := by
  rw [deleteAndReceive, exec_bind_ok (Attempt.exec_lift _), capability_exec, dropAnswer_eq]
  dsimp only
  split
  · next hc =>
    have hne : m.table.get b ≠ .null := by
      simp only [Bool.and_eq_true, Bool.not_eq_true', Bool.eq_false_iff] at hc
      exact mt (Capability.isNull_iff _).2 hc.2
    rw [exec_bind_ok (deleteCapability_exec hne)]
  · rfl

structure Alike (r r' : Except Error Next × Machine) : Prop where
  answer : r.1 = r'.1
  kernel : r.2.toKernel = r'.2.toKernel
  board : r.2.board = r'.2.board

section Composed
variable (hs : m.table.get s = .socket k) (hr : k.role = .server) (ho : b.owner = s.owner)
  (hi : b.index.val = msg.buffer) (hbs : b ≠ s)
include hs hr ho hi hbs

/-- An answer that one call delivers is delivered by two. -/
theorem exists_send_of_replyReceive (hm : Reachable roots m) (hheld : m.Holds s.owner) {x : Next}
    (hx : (replyReceive h s msg).exec m = (.ok x, m'))
    (hrelieves : m.Relieves k m') : ∃ a m₁,
      (send h s msg).exec m = (.ok a, m₁) ∧
      (receive s msg.buffer).exec m₁ = (.ok (.blocked none), m') ∧
      x = .blocked a.lent ∧ (a = .caller ∨ ∃ c, a = .yield c) := by
  obtain ⟨hsend, hroom, a, m₁, ha⟩ := replyReceive_ok hs hr ho hi hx
  rw [replyReceive_exec hs hr ho hi hsend hroom ha] at hx
  cases hx
  obtain ⟨d, m₀, hd⟩ | ⟨m₀, hd⟩ := answer_ok ha
  · -- the answer is delivered, by the first of the two calls
    obtain ⟨hsends, hsocket, hbuffer⟩ := prepare_sends hs ho hi hd
    have hanswered := hsends.answered hm hheld (hbuffer ▸ hbs)
    rw [hbuffer] at hanswered
    rw [answer_delivers hd] at ha
    cases ha
    obtain ⟨_, hgoing⟩ := prepare_passed hd (.inl ⟨d, rfl⟩)
    refine ⟨((deliver d).exec m₀).1, ((deliver d).exec m₀).2, ?_, ?_, rfl, ?_⟩
    · rw [send_exec hs ho hi, exec_bind_ok hd]
      rfl
    · exact receive_exec (hanswered.socket.trans hs) hr ho hi (by rw [hanswered.status, hgoing])
        (hanswered.room hroom)
    · have hl : m₀.table.Strung := by
        rw [hsends.aside.kernel]
        exact hm.lineal.strung
      rw [(deliver_delivered hsends.prepared hl).1, Delivery.answer]
      split
      · exact .inr ⟨_, rfl⟩
      · exact .inl rfl
  · -- where nobody is answered, nobody is let go
    exfalso
    rw [answer_drops hd] at ha
    cases ha
    obtain ⟨w, hw, hwaits, hgone⟩ := hrelieves
    apply hgone
    have hne : w.pid ≠ s.owner := by
      intro he
      rw [Holds, ← he, hwaits] at hheld
      cases hheld
    have haside := prepare_aside hs h s.owner msg b
    rw [hd] at haside
    rw [awaitClient_solo k s.owner b _ w.pid hne, (dropAnswer_clerical msg b m₀).settled.calm,
      haside.kernel, hwaits]

/-- What two calls do, one does. -/
theorem replyReceive_of_send (hm : Reachable roots m) (hheld : m.Holds s.owner) {a y : Next}
    (ha : (send h s msg).exec m = (.ok a, m₁))
    (hy : (receive s msg.buffer).exec m₁ = (.ok y, m')) :
    (replyReceive h s msg).exec m = (.ok (.blocked a.lent), m') ∧ m.Relieves k m' := by
  rw [send_exec hs ho hi] at ha
  obtain ⟨d, m₀, hd, hdeliver⟩ := exec_bind_eq_ok.1 ha
  rw [Attempt.exec_lift] at hdeliver
  obtain ⟨hanswer, rfl⟩ := Prod.mk.inj hdeliver
  obtain rfl := Except.ok.inj hanswer
  obtain ⟨hsends, hsocket, hbuffer⟩ := prepare_sends hs ho hi hd
  have hanswered := hsends.answered hm hheld (hbuffer ▸ hbs)
  rw [hbuffer] at hanswered
  have hs₁ := hanswered.socket.trans hs
  obtain ⟨hgoing, hvacant⟩ := receive_ok hs₁ hr ho hi hy
  -- the second call has found room, so there was room before the first
  rw [receive_exec hs₁ hr ho hi hgoing hvacant] at hy
  cases hy
  obtain ⟨hsend, _⟩ := prepare_passed hd (.inl ⟨d, rfl⟩)
  refine ⟨replyReceive_exec hs hr ho hi hsend (hanswered.room_before hvacant)
    (answer_delivers hd), ?_⟩
  obtain ⟨w, hw, hwaits, hgone⟩ := hsends.relieves hm
  rw [hsocket] at hw hwaits hgone
  refine ⟨w, hw, hwaits, ?_⟩
  have hne : w.pid ≠ s.owner := by
    intro he
    rw [Holds, ← he, hwaits] at hheld
    cases hheld
  rwa [awaitClient_solo k s.owner b _ w.pid hne]

/-- An answer for nobody is as good as deleting what was to go along, and waiting. -/
theorem replyReceive_of_noReceiver
    (hn : (send h s msg).exec m = (.error .noReceiver, m₁)) :
    Alike ((replyReceive h s msg).exec m) ((deleteAndReceive s b msg).exec m) := by
  have hd : (prepare h s.owner k msg b).exec m = (.error .noReceiver, m₁) := by
    rw [send_exec hs ho hi] at hn
    obtain hd | ⟨d, m₀, _, hdeliver⟩ := exec_bind_eq_error.1 hn
    · exact hd
    · cases hdeliver
  obtain ⟨hsend, hgoing⟩ := prepare_passed hd (.inr rfl)
  have haside := prepare_aside hs h s.owner msg b
  rw [hd] at haside
  have hdropped : Answered s b msg m ((dropAnswer msg b).exec m).2 := dropAnswer_answered hbs
  rw [deleteAndReceive_exec]
  by_cases hroom : m.Room k msg b
  · rw [replyReceive_exec hs hr ho hi hsend hroom (answer_drops hd),
      receive_exec (hdropped.socket.trans hs) hr ho hi (by rw [hdropped.status, hgoing])
        (hdropped.room hroom)]
    constructor
    case answer => rfl
    case kernel => exact kernel_awaitClient (kernel_dropAnswer haside.kernel)
    case board =>
      show ((awaitClient k s.owner b).exec _).2.board = ((awaitClient k s.owner b).exec _).2.board
      rw [awaitClient_board, awaitClient_board, (dropAnswer_clerical msg b m₁).board,
        (dropAnswer_clerical msg b m).board, haside.board]
  · -- without room both are refused, and nothing was dropped, for nothing was to go along
    simp only [Room, Classical.not_imp] at hroom
    obtain ⟨hcap, hplain, hocc⟩ := hroom
    have hidle : ((dropAnswer msg b).exec m).2 = m := by
      rw [dropAnswer_eq, hplain]
      rfl
    have hrefused : (replyReceive h s msg).exec m = (.error .dstOccupied, m) := by
      rw [replyReceive, exec_bind_ok (requireRole_exec hs hr), exec_bind_ok (slotAt_exec ho hi),
        exec_bind_ok hsend, exec_bind_error (requireBuffer_refused hr hcap hplain hocc)]
    rw [hidle, hrefused, receive_refused hs hr ho hi hgoing hcap hocc]
    exact ⟨rfl, rfl, rfl⟩

end Composed

end Machine

open Machine (Relieves deleteAndReceive Alike)

/-- A server that is held answers and waits in one call just when it can do so in two, unless it
sends the socket away that it waits at. A call that lets a client go ends well if the two calls do,
in the same state, and gives the hart to whom the first would give it. Where the first finds nobody,
the one call does what deleting the capability and then waiting does. -/
theorem replyReceive_two_calls (hm : Reachable roots m) (hs : m.table.get s = .socket k)
    (hr : k.role = .server) (hheld : m.Holds s.owner) (hbuffer : msg.buffer ≠ s.index.val) :
    (∀ x m', ((Machine.replyReceive h s msg).exec m = (.ok x, m') ∧ m.Relieves k m') ↔
      ∃ a m₁ y, (Machine.send h s msg).exec m = (.ok a, m₁) ∧
        (Machine.receive s msg.buffer).exec m₁ = (.ok y, m') ∧
        ((a = .caller ∧ x = .blocked none) ∨ ∃ c, a = .yield c ∧ x = .blocked (some c))) ∧
    ∀ m₁, (Machine.send h s msg).exec m = (.error .noReceiver, m₁) →
      ∃ b : Slot, b.owner = s.owner ∧ b.index.val = msg.buffer ∧
        Alike ((Machine.replyReceive h s msg).exec m) ((deleteAndReceive s b msg).exec m) := by
  by_cases hi : msg.buffer < 32
  case pos =>
    obtain ⟨b, ho, hb⟩ : ∃ b : Slot, b.owner = s.owner ∧ b.index.val = msg.buffer :=
      ⟨⟨s.owner, ⟨msg.buffer, hi⟩⟩, rfl, rfl⟩
    have hbs : b ≠ s := by
      rintro rfl
      exact hbuffer hb.symm
    refine ⟨fun x m' => ⟨?split, ?join⟩, fun m₁ hn => ⟨b, ho, hb, ?dropped⟩⟩
    case split =>
      intro ⟨hx, hrelieves⟩
      obtain ⟨a, m₁, ha, hy, rfl, hends⟩ :=
        Machine.exists_send_of_replyReceive hs hr ho hb hbs hm hheld hx hrelieves
      refine ⟨a, m₁, _, ha, hy, ?_⟩
      obtain rfl | ⟨c, rfl⟩ := hends
      · exact .inl ⟨rfl, rfl⟩
      · exact .inr ⟨c, rfl, rfl⟩
    case join =>
      intro ⟨a, m₁, y, ha, hy, hx⟩
      have hboth := Machine.replyReceive_of_send hs hr ho hb hbs hm hheld ha hy
      obtain ⟨rfl, rfl⟩ | ⟨c, rfl, rfl⟩ := hx
      · exact hboth
      · exact hboth
    case dropped => exact Machine.replyReceive_of_noReceiver hs hr ho hb hbs hn
  case neg => -- the buffer does not exist: all three are refused for that
    have hslot := Machine.slotAt_refused (p := s.owner) (m := m) (Nat.le_of_not_lt hi)
    have hsend : (Machine.send h s msg).exec m = (.error .invalidIndex, m) := by
      rw [Machine.send, Attempt.exec_bind_ok (Machine.requireSocket_exec hs),
        Attempt.exec_bind_error hslot]
    have hreply : (Machine.replyReceive h s msg).exec m = (.error .invalidIndex, m) := by
      rw [Machine.replyReceive, Attempt.exec_bind_ok (Machine.requireRole_exec hs hr),
        Attempt.exec_bind_error hslot]
    rw [hsend, hreply]
    constructor
    · intro x m'
      constructor
      · rintro ⟨⟨⟩, _⟩
      · rintro ⟨a, m₁, y, ⟨⟩, _⟩
    · rintro m₁ ⟨⟩

/-- A client has sent its monitor to process 1 and waits. The server sends the monitor back and
waits, and the hart goes on with the client. -/
theorem replyReceive_two_calls_monitor : ∃ m m' m₁,
    Reachable [.wholeTime 0 0 64, .wholeMonitor 0 8, .wholeChannel 0 16] m ∧
      (Machine.send 0 ⟨1, 0⟩ ⟨1, true, .replicate 4 0⟩).exec m = (.ok (.yield 0), m₁) ∧
      (Machine.receive ⟨1, 0⟩ 1).exec m₁ = (.ok (.blocked none), m') ∧
      (Machine.replyReceive 0 ⟨1, 0⟩ ⟨1, true, .replicate 4 0⟩).exec m =
        (.ok (.blocked (some 0)), m') := by
  obtain ⟨m₀, hplain, he⟩ := exists_meeting
  obtain ⟨m, hm⟩ : ∃ m, m = ((Machine.release 0).exec (m₀.asked 0 ⟨0, 4⟩ 1)).2 := ⟨_, rfl⟩
  have hreachable : Reachable [.wholeTime 0 0 64, .wholeMonitor 0 8, .wholeChannel 0 16] m :=
    hm ▸ (hplain.reachable.step (.operation 0 _)).step (.release 0)
  -- a client has called with a monitor, waits, and has lent the server its hart
  have hs : m.table.get ⟨1, 0⟩ = .socket ⟨3, .yield, .ofBits 15, 0⟩ := by
    rw [hm, he]
    decide +kernel
  have hheld : m.Holds 1 := by
    rw [hm, he, Machine.Holds]
    decide +kernel
  obtain ⟨m₁, h₁⟩ : ∃ m₁, m₁ =
    ((Machine.send 0 ⟨1, 0⟩ ⟨1, true, .replicate 4 0⟩).exec m).2 := ⟨_, rfl⟩
  have hyields : ((Machine.send 0 ⟨1, 0⟩ ⟨1, true, .replicate 4 0⟩).exec m).1 =
      .ok (.yield 0) := by
    rw [hm, he]
    decide +kernel
  have hwaits : ((Machine.receive ⟨1, 0⟩ 1).exec m₁).1 = .ok (.blocked none) := by
    rw [h₁, hm, he]
    decide +kernel
  have hsent : (Machine.send 0 ⟨1, 0⟩ ⟨1, true, .replicate 4 0⟩).exec m = (.ok (.yield 0), m₁) :=
    Prod.ext hyields h₁.symm
  have hreceived : (Machine.receive ⟨1, 0⟩ 1).exec m₁ =
      (.ok (.blocked none), ((Machine.receive ⟨1, 0⟩ 1).exec m₁).2) := Prod.ext hwaits rfl
  obtain ⟨hanswered, _⟩ := ((replyReceive_two_calls hreachable hs rfl hheld (by decide)).1
    (.blocked (some 0)) _).2 ⟨_, m₁, _, hsent, hreceived, .inr ⟨0, rfl, rfl⟩⟩
  exact ⟨m, _, m₁, hreachable, hsent, hreceived, hanswered⟩

end SepKernel
