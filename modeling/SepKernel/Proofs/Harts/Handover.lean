import SepKernel.Proofs.Harts.Hands

/-!
# What operations answer

The answer of an operation says everything about the hart: which process was taken for it, and
whether the caller waits. An operation that is refused takes nobody and lets nobody wait.
-/

namespace SepKernel

variable {α β : Type} {m m' m₁ m₂ : Machine} {p : Pid} {s : Slot}

/-! ## Answers -/

def Next.taken : Next → Option Pid
  | caller => none
  | yield p => some p
  | blocked p => p

def Next.waiting (p : Pid) : Next → Option Pid
  | blocked _ => some p
  | _ => none

def Outcome.taken : Outcome → Option Pid
  | next n => n.taken
  | _ => none

def Outcome.waiting (p : Pid) : Outcome → Option Pid
  | next n => n.waiting p
  | schedule => some p
  | _ => none

/-- The answers say who was taken and who waits, and a refusal says that nobody was and nobody
does. -/
def Ended (taken waiting : α → Option Pid) : Except Error α → Machine → Machine → Prop
  | .ok x => Hands (taken x) (waiting x)
  | .error _ => Steady

/-- Steady work may come before an operation ends. -/
theorem Ended.before {taken waiting : α → Option Pid} {r : Except Error α} (h : Steady m m₁)
    (h' : Ended taken waiting r m₁ m₂) : Ended taken waiting r m m₂ := by
  cases r with
  | error => exact trans_of Steady h h'
  | ok => exact h.hands h'

/-- On a machine, the answer of an attempt says who was taken and who waits. -/
def Attempt.HandsAt (taken waiting : α → Option Pid) (a : Attempt α) (m : Machine) : Prop :=
  Ended taken waiting (a.exec m).1 m (a.exec m).2

namespace Attempt.HandsAt

variable {taken waiting : β → Option Pid}

theorem throw (e : Error) (m : Machine) : (throw e : Attempt β).HandsAt taken waiting m :=
  refl_of Steady m

/-- What comes before is steady. -/
theorem bind_from {a : Attempt α} {f : α → Attempt β} (ha : Steady m (a.exec m).2)
    (hf : ∀ x m', a.exec m = (.ok x, m') → (f x).HandsAt taken waiting m') :
    (a >>= f).HandsAt taken waiting m := by
  rw [HandsAt, exec_bind]
  cases hx : (a.exec m).1 with
  | error e => exact ha
  | ok x => exact .before ha (hf x _ (Prod.ext hx rfl))

theorem bind {a : Attempt α} {f : α → Attempt β} (ha : a.Keeps Steady)
    (hf : ∀ x m', (f x).HandsAt taken waiting m') (m : Machine) :
    (a >>= f).HandsAt taken waiting m :=
  bind_from (ha m) fun x m' _ => hf x m'

/-- Only the answer is put in another form. -/
theorem map {a : Attempt α} {f : α → β}
    (ha : a.HandsAt (fun x => taken (f x)) (fun x => waiting (f x)) m) :
    (a >>= fun x => pure (f x)).HandsAt taken waiting m := by
  rw [HandsAt, exec_bind]
  rw [HandsAt] at ha
  generalize a.exec m = r at ha ⊢
  obtain ⟨_ | x, m'⟩ := r <;> exact ha

/-- An attempt that is refused after nothing but asides, unless its answer says what it did. -/
theorem of_decides {a : Attempt β} {Q : β → Machine → Prop} (ha : a.Decides m Q)
    (hQ : ∀ x m', Q x m' → Hands (taken x) (waiting x) m m') : a.HandsAt taken waiting m := by
  rw [Attempt.Decides] at ha
  rw [HandsAt]
  generalize a.exec m = r at ha ⊢
  obtain ⟨_ | x, m'⟩ := r
  · exact Aside.hands ha
  · exact hQ x m' ha

/-- A steady attempt, of which the answer says that nobody was taken and nobody waits. -/
theorem of_steady {a : Attempt β} (ha : Steady m (a.exec m).2) (ht : ∀ x, taken x = none)
    (hw : ∀ x, waiting x = none) : a.HandsAt taken waiting m := by
  rw [HandsAt]
  generalize a.exec m = r at ha ⊢
  obtain ⟨_ | x, m'⟩ := r
  · exact ha
  · rw [Ended, ht, hw]
    exact ha

end Attempt.HandsAt

namespace Machine

open Attempt.HandsAt

/-- A deadline is no status. -/
theorem setDeadline_calm (p : Pid) (deadline : Nat) :
    (modifyProcess p fun q => { q with deadline }).Keeps Calm :=
  modifyProcess_calm p fun _ => rfl

/-! ## Monitors -/

theorem suspendProcess_steady (monitor : Slot) (p : Pid) :
    (suspendProcess monitor p).Keeps Steady :=
  .bind ((requireControl_aside monitor p).mono Aside.hands) fun _ =>
    .bind (.lift (modifyProcess_hands Process.busy_suspend fun _ x hb hw => by
      rw [(Process.suspend_status hb).2, hw])) fun _ => .lift ((note_calm _).mono Calm.hands)

theorem resumeProcess_steady (monitor : Slot) (p : Pid) :
    (resumeProcess monitor p).Keeps Steady :=
  .bind ((requireControl_aside monitor p).mono Aside.hands) fun _ =>
    .bind (.lift (modifyProcess_hands (fun _ => rfl) fun _ _ _ hw => hw)) fun _ =>
      .lift ((note_calm _).mono Calm.hands)

/-- A process that is edited is held only meanwhile. -/
theorem writeRegister_steady (monitor : Slot) (p : Pid) (r : Register) (w : Word) :
    (writeRegister monitor p r w).Keeps Steady := by
  unfold writeRegister
  refine .bind ((requireControl_aside monitor p).mono Aside.hands) fun _ =>
    .bind_of (.lift ((process_aside p).mono Aside.hands)) ?_
  rintro m _ _ ⟨⟩
  cases hq : (m.processes.get p).acquireStopped? with
  | none => exact refl_of Steady m
  | some q =>
    obtain ⟨hidle, hb, hw⟩ := Process.acquireStopped?_status hq
    -- it is taken for as long as the register is written
    have htakes : Hands (some p) none m ((setProcess p (q.setRegister r w)).exec m).2 :=
      setProcess_takes hidle hb hw
    exact htakes.returned (release_returns p _)

/-- Whom a monitor lends the hart to is taken, and the answer names it. -/
theorem yieldTo_hands (monitor : Slot) (p c : Pid) (m : Machine) :
    (yieldTo monitor p).HandsAt Next.taken (Next.waiting c) m := by
  unfold yieldTo
  refine bind_from ((requireControl_aside monitor p).mono Aside.hands m) fun _ m₀ _ => ?_
  refine bind_from (Aside.hands (process_aside p m₀)) ?_
  rintro _ m ⟨⟩
  refine bind_from (refl_of Steady m₀) ?_
  rintro _ m ⟨⟩
  dsimp only
  -- only a process that can be had is taken
  cases hq : (m₀.processes.get p).acquire? m₀.board.time with
  | none => exact throw _ _
  | some q =>
    obtain ⟨hidle, hrun⟩ := Process.acquire?_status hq
    have htakes : Hands (some p) none m₀ ((setProcess p q).exec m₀).2 :=
      setProcess_takes hidle (by rw [hrun]; rfl) (by rw [hrun]; rfl)
    exact htakes.steady (setDeadline_calm p _ _).hands

/-! ## Messages -/

/-- The receiver of a message is lent the hart, or given back. -/
structure Passed (n : Next) (m m' : Machine) : Prop where
  hands : Hands n.lent none m m'
  goes : ∀ p, n ≠ .blocked p

/-- A message that passed hands the hart to whoever its answer names. -/
theorem Passed.handed {n : Next} (h : Passed n m m') (p : Pid) :
    Hands n.taken (n.waiting p) m m' := by
  cases n with
  | blocked q => exact absurd rfl (h.goes q)
  | _ => exact h.hands

/-- An action with a first part that depends on a condition. -/
theorem branch_leads {c : Prop} [Decidable c] {a b : Action α} {f : α → Action β}
    {P : Machine → Prop} {Q : β → Machine → Prop} (ha : c → P (a.exec m).2)
    (hb : ¬ c → P (b.exec m).2)
    (hf : ∀ x m', P m' → Q ((f x).exec m').1 ((f x).exec m').2) :
    Q ((if c then a >>= f else b >>= f).exec m).1 ((if c then a >>= f else b >>= f).exec m).2 := by
  split
  · next hc => exact hf _ _ (ha hc)
  · next hc => exact hf _ _ (hb hc)

/-- The receiver is taken when it is handed its message. If the sender does not yield, it is given
back right away. -/
theorem deliver_passed {h : Hart} {d : Delivery} (hd : Prepared h d m) :
    Passed ((deliver d).exec m).1 m ((deliver d).exec m).2 := by
  obtain ⟨hidle, hrun⟩ := Process.receive?_status hd.taken
  have htakes : Hands (some d.receiver.pid) none m ((setProcess d.receiver.pid d.taken).exec m).2 :=
    setProcess_takes hidle (by rw [hrun]; rfl) (by rw [hrun]; rfl)
  unfold deliver
  rw [Action.exec_bind]
  -- a capability may go along; the rest is the same in both cases
  refine branch_leads (P := Hands (some d.receiver.pid) none m) (Q := fun n => Passed n m) ?_ ?_ ?_
  · exact fun _ => htakes.steady (relocate_clerical _ _ _ _).settled.calm.hands
  · exact fun _ => htakes
  · intro c m₁ h₁
    have h₂ := h₁.steady (modifyProcess_calm d.receiver.pid (f := fun q =>
      { q with registers := q.registers.setAll (d.contents c) }) (fun _ => rfl) m₁).hands
    have h₃ := h₂.steady (modifyRegistry_calm
      (·.setWaiter d.socket.chan d.socket.role.peer none) _).hands
    have h₄ := h₃.steady (note_calm (.delivered d.socket.chan d.sender d.receiver.pid) _).hands
    show Passed ((hand d c).exec m₁).1 m ((hand d c).exec m₁).2
    rw [hand, Action.exec_bind, Action.exec_bind, Action.exec_bind]
    split
    · exact ⟨h₄.steady (setDeadline_calm _ _ _).hands, by rintro _ ⟨⟩⟩
    · exact ⟨h₄.returned (release_returns _ _), by rintro _ ⟨⟩⟩

/-- The answer of a message says whether the receiver goes on in place of the sender. -/
theorem send_hands (h : Hart) (s : Slot) (msg : Message) (p : Pid) (m : Machine) :
    (send h s msg).HandsAt Next.taken (Next.waiting p) m := by
  refine of_decides (send_decides h s msg m) ?_
  rintro n m' ⟨d, m₁, hs, hdeliver⟩
  have hpassed := deliver_passed hs.prepared
  rw [hdeliver] at hpassed
  exact (hpassed.handed p).before hs.aside

theorem reply_hands (h : Hart) (s : Slot) (msg : Message) (p : Pid) (m : Machine) :
    (reply h s msg).HandsAt Next.taken (Next.waiting p) m :=
  bind ((requireRole_aside s _).mono Aside.hands) (fun _ => send_hands h s msg p) m

/-! ## Operations at the end of which somebody waits -/

theorem awaitClient_waits (k : Socket) (p : Pid) (b : Slot) :
    (awaitClient k p b).Keeps (Hands none (some p)) :=
  .bind (await_waits k p b) fun _ => .bind ((awaitForever_calm p).mono Calm.hands) fun _ =>
    (note_calm _).mono Calm.hands

/-- A client waits, with or without a deadline. -/
theorem awaitAnswer_waits (k : Socket) (p : Pid) (b : Slot) (lent : Option Pid) :
    (awaitAnswer k p b lent).Keeps (Hands none (some p)) := by
  refine .bind (await_waits k p b) fun _ => ?_
  split
  · exact (awaitForever_calm p).mono Calm.hands
  · exact .pure _

/-- A server waits, and nobody is taken. -/
theorem receive_hands (s : Slot) (buffer : Nat) (m : Machine) :
    (receive s buffer).HandsAt Next.taken (Next.waiting s.owner) m := by
  refine of_decides (receive_decides s buffer m) ?_
  rintro _ m' ⟨rfl, k, b, m₁, h₁, _, _, _, _, rfl⟩
  exact Hands.before h₁ (awaitClient_waits k s.owner b m₁)

/-- A client waits, and its server is taken or not. -/
theorem call_hands (h : Hart) (s : Slot) (msg : Message) (m : Machine) :
    (call h s msg).HandsAt Next.taken (Next.waiting s.owner) m := by
  refine of_decides (call_decides h s msg m) ?_
  rintro _ m' ⟨d, m₁, n, m₂, hs, _, hdeliver, rfl, rfl⟩
  have hpassed := deliver_passed hs.prepared
  rw [hdeliver] at hpassed
  exact (hpassed.hands.before hs.aside).waits (awaitAnswer_waits _ _ _ _ m₂)

/-- The client that is answered is lent the hart, or given back. -/
theorem Answers.hands {h : Hart} {msg : Message} {n : Next} (ha : Answers h s msg m n m') :
    Hands n.lent none m m' := by
  cases ha with
  | deliver hs => exact (deliver_passed hs.prepared).hands.before hs.aside
  | drop h₁ => exact (dropAnswer_clerical _ _ _).settled.calm.hands.before h₁

/-- A server waits, and its client is taken or not. -/
theorem replyReceive_hands (h : Hart) (s : Slot) (msg : Message) (m : Machine) :
    (replyReceive h s msg).HandsAt Next.taken (Next.waiting s.owner) m := by
  refine of_decides (replyReceive_decides h s msg m) ?_
  rintro _ m' ⟨k, b, n, m₁, _, _, _, _, hanswer, rfl, rfl⟩
  exact hanswer.hands.waits (awaitClient_waits k s.owner b m₁)

/-- The two exchanges, by the end of the socket. -/
theorem sendReceive_hands (h : Hart) (s : Slot) (msg : Message) (m : Machine) :
    (sendReceive h s msg).HandsAt Next.taken (Next.waiting s.owner) m := by
  unfold sendReceive
  refine bind ((requireSocket_aside s).mono Aside.hands) (fun k m => ?_) m
  split
  · exact replyReceive_hands h s msg m
  · exact call_hands h s msg m

end Machine

/-! ## All operations -/

/-- Whoever waits at the end of an operation is its caller, and the answer says whether it does. -/
theorem Operation.perform_hands (h : Hart) (op : Operation) (hp : ∀ s, op.WaitsAt s → s.owner = p)
    (m : Machine) :
    (op.perform h).HandsAt (fun a => a.outcome.taken) (fun a => a.outcome.waiting p) m := by
  have does : ∀ {a : Attempt Unit}, Machine.Does a → a.Keeps Steady :=
    fun ha => ha.keeps acrossDeeds_steady.aside fun hs => acrossDeeds_steady.deed hs.deed
  -- most operations take nobody and let nobody wait, and differ in their answers
  have plain : ∀ {α : Type} {f : α → Answer} {a : Attempt α}, a.Keeps Steady →
      (∀ x, (f x).outcome.taken = none ∧ (f x).outcome.waiting p = none) →
      (a >>= fun x => pure (f x)).HandsAt (fun a => a.outcome.taken)
        (fun a => a.outcome.waiting p) m :=
    fun ha hf => .map (.of_steady (ha m) (fun x => (hf x).1) fun x => (hf x).2)
  cases op with
  | capRead => exact plain ((Machine.readCapability_aside _).mono Aside.hands) fun _ => ⟨rfl, rfl⟩
  | capMove => exact plain (does (Machine.moveCapability_does _ _)) fun _ => ⟨rfl, rfl⟩
  | capDelete => exact plain (does (Machine.deleteCapability_does _)) fun _ => ⟨rfl, rfl⟩
  | capDerive =>
    exact plain (Machine.deriveCapability_keeps acrossDeeds_steady _ _ _) fun _ => ⟨rfl, rfl⟩
  | capRevoke =>
    exact plain ((Machine.revokeCapability_settled h _).mono fun hs => hs.calm.hands)
      fun _ => ⟨rfl, rfl⟩
  | pmpLoad => exact plain (does (Machine.loadRegion_does _ _)) fun _ => ⟨rfl, rfl⟩
  | pmpUnload => exact plain (does (Machine.unloadRegion_does _)) fun _ => ⟨rfl, rfl⟩
  | monSuspend => exact plain (Machine.suspendProcess_steady _ _) fun _ => ⟨rfl, rfl⟩
  | monResume => exact plain (Machine.resumeProcess_steady _ _) fun _ => ⟨rfl, rfl⟩
  | monState => exact plain ((Machine.processStatus_aside _ _).mono Aside.hands) fun _ => ⟨rfl, rfl⟩
  | monYield => exact .map (Machine.yieldTo_hands _ _ p m)
  | monReadRegister =>
    exact plain ((Machine.readRegister_aside _ _ _).mono Aside.hands) fun _ => ⟨rfl, rfl⟩
  | monWriteRegister => exact plain (Machine.writeRegister_steady _ _ _ _) fun _ => ⟨rfl, rfl⟩
  | monCapRead =>
    exact plain ((Machine.readCapabilityOf_aside _ _ _).mono Aside.hands) fun _ => ⟨rfl, rfl⟩
  | monCapMove => exact plain (does (Machine.moveCapabilityOf_does _ _ _)) fun _ => ⟨rfl, rfl⟩
  | monPmpLoad => exact plain (does (Machine.loadRegionOf_does _ _ _ _)) fun _ => ⟨rfl, rfl⟩
  | monPmpUnload => exact plain (does (Machine.unloadRegionOf_does _ _ _)) fun _ => ⟨rfl, rfl⟩
  | send => exact .map (Machine.send_hands h _ _ p m)
  | reply => exact .map (Machine.reply_hands h _ _ p m)
  | receive s =>
    obtain rfl := hp s rfl
    exact .map (Machine.receive_hands s _ m)
  | call s =>
    obtain rfl := hp s rfl
    exact .map (Machine.call_hands h s _ m)
  | replyReceive s =>
    obtain rfl := hp s rfl
    exact .map (Machine.replyReceive_hands h s _ m)
  | sendReceive s =>
    obtain rfl := hp s rfl
    exact .map (Machine.sendReceive_hands h s _ m)

end SepKernel
