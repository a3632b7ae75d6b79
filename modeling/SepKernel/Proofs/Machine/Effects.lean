import SepKernel.Proofs.Machine.Operations

/-!
# What operations do

Everything that an operation can do to the machine, in one place: each operation has one effect, and
an operation that is refused has none. What is said about all operations can be read off here.

A monitor does what the process could do itself, on conditions. An exchange over a socket is a call
or an answer, by the end of the channel that the socket is.
-/

namespace SepKernel

variable {m m' : Machine} {h : Hart} {op : Operation}

/-- What an operation makes of a machine, if it is not refused and does not just look at it. -/
inductive Operation.Effect (h : Hart) (m : Machine) : Operation → Machine → Prop
  | move {source target : Slot} : m.table.get source ≠ .null → m.table.get target = .null →
      Effect h m (.capMove source target)
        ((Machine.relocate source target (m.table.get source)).exec m).2
  | delete {s : Slot} : m.table.get s ≠ .null →
      Effect h m (.capDelete s) ((Machine.discardCapability s (m.table.get s)).exec m).2
  | derive {source target : Slot} {c : Capability} : (m.table.get source).Derivation c →
      m.table.get target = .null → Effect h m (.capDerive source target c)
        ((Machine.bear source target (m.table.get source) c).exec m).2
  /-- A revocation also has an effect if it is interrupted. -/
  | revoke {s : Slot} : Effect h m (.capRevoke s) ((Machine.revokeCapability h s).exec m).2
  | load {s : Slot} {r : Region} {k : RegionIndex} : m.table.get s = .pmp r → r.loaded = false →
      ((m.processes.get s.owner).bank.get k).isFree = true →
      Effect h m (.pmpLoad s k) ((Machine.install s r k).exec m).2
  | unload {s : Slot} {r : Region} : m.table.get s = .pmp r → r.loaded = true →
      Effect h m (.pmpUnload s) ((Machine.uninstall s r).exec m).2
  | suspend {s : Slot} {p : Pid} : Machine.controls (m.table.get s) p = true →
      Effect h m (.monSuspend s p)
        (((do Machine.modifyProcess p .suspend; Machine.note (.suspended s p)) :
          Action Unit).exec m).2
  | resume {s : Slot} {p : Pid} : Machine.controls (m.table.get s) p = true →
      Effect h m (.monResume s p)
        (((do Machine.modifyProcess p .resume; Machine.note (.resumed s p)) : Action Unit).exec m).2
  | yield {s : Slot} {p : Pid} {q : Process} : Machine.controls (m.table.get s) p = true →
      (m.processes.get p).acquire? m.board.time = some q →
      Effect h m (.monYield s p) { m with
        processes := (m.processes.put p q).put p
          { q with deadline := ((m.processes.put p q).get s.owner).deadline } }
  | write {s : Slot} {p : Pid} {r : Register} {w : Word} : m.Edits s p →
      Effect h m (.monWriteRegister s p r w)
        { m with processes := m.processes.put p ((m.processes.get p).setRegister r w) }
  | moveOf {s source target : Slot} {m' : Machine} :
      (source.owner ≠ s.owner → m.Edits s source.owner) →
      (target.owner ≠ s.owner → m.Edits s target.owner) →
      Effect h m (.capMove source target) m' → Effect h m (.monCapMove s source target) m'
  | loadOf {s x : Slot} {register : Nat} {m' : Machine} : m.Edits s x.owner →
      Effect h m (.pmpLoad x register) m' →
      Effect h m (.monPmpLoad s x.owner x.index register) m'
  | unloadOf {s x : Slot} {m' : Machine} : m.Edits s x.owner → Effect h m (.pmpUnload x) m' →
      Effect h m (.monPmpUnload s x.owner x.index) m'
  | send {s : Slot} {msg : Message} {d : Machine.Delivery} {m₁ : Machine} :
      Machine.Sends h s msg m d m₁ → Effect h m (.send s msg) ((Machine.deliver d).exec m₁).2
  | reply {s : Slot} {msg : Message} {m' : Machine} : Effect h m (.send s msg) m' →
      Effect h m (.reply s msg) m'
  | receive {s b : Slot} {k : Socket} {m₁ : Machine} : Aside m m₁ →
      m.table.get s = .socket k → k.role = .server → b.owner = s.owner →
      Effect h m (.receive s b.index) ((Machine.awaitClient k s.owner b).exec m₁).2
  | call {s : Slot} {msg : Message} {d : Machine.Delivery} {m₁ : Machine} :
      Machine.Sends h s msg m d m₁ → d.socket.role = .client →
      Effect h m (.call s msg)
        ((Machine.awaitAnswer d.socket s.owner d.buffer ((Machine.deliver d).exec m₁).1.lent).exec
          ((Machine.deliver d).exec m₁).2).2
  | replyReceive {s b : Slot} {msg : Message} {k : Socket} {n : Next} {m₁ : Machine} :
      m.table.get s = .socket k → k.role = .server → b.owner = s.owner →
      b.index.val = msg.buffer → Machine.Answers h s msg m n m₁ →
      Effect h m (.replyReceive s msg) ((Machine.awaitClient k s.owner b).exec m₁).2
  | exchange {s : Slot} {msg : Message} {m' : Machine} : Effect h m (.call s msg) m' →
      Effect h m (.sendReceive s msg) m'
  | exchangeBack {s : Slot} {msg : Message} {m' : Machine} :
      Effect h m (.replyReceive s msg) m' → Effect h m (.sendReceive s msg) m'

namespace Machine

open Attempt (Decides exec_bind_ok)
open Operation (Effect)

/-! ## Monitors -/

/-- A condition is checked only of another process. -/
theorem guarded_decides {α : Type} {p : Prop} [Decidable p] {s : Slot} {q : Pid}
    {f : Unit → Attempt α} {Q : α → Machine → Prop}
    (hf : (p → m.Edits s q) → (f ()).Decides m Q) :
    (if p then requireStopped s q >>= f else f ()).Decides m Q := by
  split
  · apply Decides.bind (requireStopped_aside s q)
    intro _ m₁ hs _
    obtain ⟨rfl, hs⟩ := requireStopped_ok hs
    exact hf fun _ => hs
  · next hp => exact hf fun hp' => absurd hp' hp

/-- Each operation of a monitor has its effect if it is not refused; this is the first. -/
theorem suspendProcess_decides (s : Slot) (p : Pid) (m : Machine) :
    (suspendProcess s p).Decides m fun _ => Effect h m (.monSuspend s p) := by
  unfold suspendProcess
  apply Decides.bind (requireControl_aside s p)
  intro _ m₁ hc _
  obtain ⟨rfl, hc⟩ := requireControl_ok hc
  exact .suspend hc

/-- A process is resumed, or nothing has happened. -/
theorem resumeProcess_decides (s : Slot) (p : Pid) (m : Machine) :
    (resumeProcess s p).Decides m fun _ => Effect h m (.monResume s p) := by
  unfold resumeProcess
  apply Decides.bind (requireControl_aside s p)
  intro _ m₁ hc _
  obtain ⟨rfl, hc⟩ := requireControl_ok hc
  exact .resume hc

/-- Lending the hart succeeds if the process can be acquired. -/
theorem yieldTo_decides (s : Slot) (p : Pid) (m : Machine) :
    (yieldTo s p).Decides m fun _ => Effect h m (.monYield s p) := by
  unfold yieldTo
  apply Decides.bind (requireControl_aside s p)
  intro _ m₁ hc _
  obtain ⟨rfl, hc⟩ := requireControl_ok hc
  apply Decides.bind (.lift (process_aside p))
  intro q m₂ hq _
  cases hq
  apply Decides.bind .get
  intro m₃ m₄ hm _
  cases hm
  -- the process is had, or the request is refused
  split
  · next q hq =>
    apply Decides.of_exec (x := .yield p) _ (.yield hc hq)
    simp [Attempt.exec_bind, setProcess, Except.map]
  · exact .throw _ m₁

/-- Whoever is edited is stopped as before. -/
theorem release_edited {q : Process} (hq : q.isStopped = true) (r : Register) (w : Word) :
    ({ q with status.busy := true }.setRegister r w).release = q.setRegister r w := by
  rw [Process.isStopped, beq_iff_eq] at hq
  simp [Process.release, Process.setRegister, hq, Status.stopped]

/-- The process is acquired, written to and given back, so that all in all a register has
changed. -/
theorem writeRegister_decides (s : Slot) (p : Pid) (r : Register) (w : Word) (m : Machine) :
    (writeRegister s p r w).Decides m fun _ => Effect h m (.monWriteRegister s p r w) := by
  unfold writeRegister
  apply Decides.bind (requireControl_aside s p)
  intro _ m₁ hc _
  obtain ⟨rfl, hc⟩ := requireControl_ok hc
  apply Decides.bind (.lift (process_aside p))
  intro q m₂ hq _
  cases hq
  split
  · next q hq =>
    -- only a stopped process is written to
    unfold Process.acquireStopped? at hq
    split at hq
    · next hs =>
      cases hq
      apply Decides.of_exec (x := ()) _ (.write ⟨hc, hs⟩)
      rw [← release_edited hs]
      simp [Attempt.exec_bind, setProcess, release, Processes.put_put, Process.setRegister]
    · cases hq
  · exact .throw _ m₁

/-- Moving the capabilities of others is moving, under the condition that their owners may be
edited. -/
theorem moveCapabilityOf_decides (s source target : Slot) (m : Machine) :
    (moveCapabilityOf s source target).Decides m fun _ =>
      Effect h m (.monCapMove s source target) := by
  unfold moveCapabilityOf
  apply guarded_decides
  intro hs
  apply guarded_decides
  intro ht
  apply (moveCapability_decides source target m).mono
  rintro _ _ ⟨hn, hv, rfl⟩
  exact .moveOf hs ht (.move hn hv)

/-- Loading a region of another process is loading it, under that condition. -/
theorem loadRegionOf_decides (s : Slot) (p : Pid) (index register : Nat) (m : Machine) :
    (loadRegionOf s p index register).Decides m fun _ =>
      Effect h m (.monPmpLoad s p index register) := by
  unfold loadRegionOf
  apply Decides.bind (requireStopped_aside s p)
  intro _ m₁ hs _
  obtain ⟨rfl, hs⟩ := requireStopped_ok hs
  dsimp only
  split
  · exact .throw _ m₁
  · apply Decides.bind (slotAt_aside p index)
    intro x m₂ hx _
    obtain ⟨rfl, rfl, rfl⟩ := slotAt_ok hx
    -- the region is then loaded as its owner would load it
    apply (loadRegion_decides x register m₂).mono
    rintro _ _ ⟨r, k, hr, hl, rfl, hf, rfl⟩
    exact .loadOf hs (.load hr hl hf)

/-- A region of another process is unloaded, or nothing has happened. -/
theorem unloadRegionOf_decides (s : Slot) (p : Pid) (index : Nat) (m : Machine) :
    (unloadRegionOf s p index).Decides m fun _ => Effect h m (.monPmpUnload s p index) := by
  unfold unloadRegionOf
  apply Decides.bind (requireStopped_aside s p)
  intro _ m₁ hs _
  obtain ⟨rfl, hs⟩ := requireStopped_ok hs
  apply Decides.bind (slotAt_aside p index)
  intro x m₂ hx _
  obtain ⟨rfl, rfl, rfl⟩ := slotAt_ok hx
  -- the region is then unloaded as its owner would unload it
  apply (unloadRegion_decides x m₂).mono
  rintro _ _ ⟨r, hr, hl, rfl⟩
  exact .unloadOf hs (.unload hr hl)

/-! ## Messages -/

/-- A message that is delivered has the effect of a delivery. -/
theorem send_effect (h : Hart) (s : Slot) (msg : Message) (m : Machine) :
    (send h s msg).Decides m fun _ => Effect h m (.send s msg) := by
  apply (send_decides h s msg m).mono
  rintro n m' ⟨d, m₁, hs, hd⟩
  rw [show m' = ((deliver d).exec m₁).2 by rw [hd]]
  exact .send hs

theorem reply_effect (h : Hart) (s : Slot) (msg : Message) (m : Machine) :
    (reply h s msg).Decides m fun _ => Effect h m (.reply s msg) := by
  unfold reply
  apply Decides.bind (requireRole_aside s _)
  intro _ m₁ hr _
  obtain ⟨rfl, _⟩ := requireRole_ok hr
  exact (send_effect h s msg m₁).mono fun _ _ => .reply

theorem receive_effect (s : Slot) (buffer : Nat) (m : Machine) :
    (receive s buffer).Decides m fun _ => Effect h m (.receive s buffer) := by
  apply (receive_decides s buffer m).mono
  rintro _ _ ⟨_, k, b, m₁, h₁, hk, hr, hb, rfl, rfl⟩
  exact .receive h₁ hk hr hb

theorem call_effect (h : Hart) (s : Slot) (msg : Message) (m : Machine) :
    (call h s msg).Decides m fun _ => Effect h m (.call s msg) := by
  apply (call_decides h s msg m).mono
  rintro _ _ ⟨d, m₁, n, m₂, hs, hr, hd, _, rfl⟩
  obtain ⟨rfl, rfl⟩ := Prod.mk.inj hd
  exact .call hs hr

theorem replyReceive_effect (h : Hart) (s : Slot) (msg : Message) (m : Machine) :
    (replyReceive h s msg).Decides m fun _ => Effect h m (.replyReceive s msg) := by
  apply (replyReceive_decides h s msg m).mono
  rintro _ _ ⟨k, b, n, m₁, hk, hr, hbo, hbi, ha, _, rfl⟩
  exact .replyReceive hk hr hbo hbi ha

/-- The role of the socket decides which of the two exchanges it is. -/
theorem sendReceive_effect (h : Hart) (s : Slot) (msg : Message) (m : Machine) :
    (sendReceive h s msg).Decides m fun _ => Effect h m (.sendReceive s msg) := by
  unfold sendReceive
  apply Decides.bind (requireSocket_aside s)
  intro k m₁ hk _
  obtain ⟨rfl, _⟩ := requireSocket_ok hk
  split
  · exact (replyReceive_effect h s msg m₁).mono fun _ _ => .exchangeBack
  · exact (call_effect h s msg m₁).mono fun _ _ => .exchange

end Machine

/-! ## All operations -/

/-- An operation that is not refused has its effect, or just looks; one that is refused has none,
unless it is a revocation. -/
theorem Operation.perform_decides (h : Hart) (op : Operation) (m : Machine)
    (hop : ∀ s, op ≠ .capRevoke s) :
    (op.perform h).Decides m fun _ m' => Aside m m' ∨ op.Effect h m m' := by
  -- some operations look
  have looks : ∀ {α : Type} {f : α → Answer} {a : Attempt α}, a.Keeps Aside →
      (a >>= fun x => pure (f x)).Decides m fun _ m' => Aside m m' ∨ op.Effect h m m' :=
    fun ha => .map ((Attempt.Decides.of_aside ha m).mono fun _ _ => .inl) _
  -- the others do something
  have does : ∀ {α : Type} {f : α → Answer} {a : Attempt α},
      (a.Decides m fun _ => op.Effect h m) →
      (a >>= fun x => pure (f x)).Decides m fun _ m' => Aside m m' ∨ op.Effect h m m' :=
    fun ha => .map (ha.mono fun _ _ => .inr) _
  cases op with
  | capRead => exact looks (Machine.readCapability_aside _)
  | capMove =>
    exact does ((Machine.moveCapability_decides _ _ m).mono fun _ _ ⟨hs, ht, he⟩ =>
      he ▸ .move hs ht)
  | capDelete =>
    exact does ((Machine.deleteCapability_decides _ m).mono fun _ _ ⟨hs, he⟩ => he ▸ .delete hs)
  | capDerive =>
    exact does ((Machine.deriveCapability_decides _ _ _ m).mono fun _ _ ⟨hd, ht, he⟩ =>
      he ▸ .derive hd ht)
  | capRevoke s => exact absurd rfl (hop s)
  | pmpLoad =>
    exact does ((Machine.loadRegion_decides _ _ m).mono fun _ _ ⟨_, _, hs, hl, hk, hf, he⟩ =>
      he ▸ hk ▸ .load hs hl hf)
  | pmpUnload =>
    exact does ((Machine.unloadRegion_decides _ m).mono fun _ _ ⟨_, hs, hl, he⟩ =>
      he ▸ .unload hs hl)
  | monSuspend => exact does (Machine.suspendProcess_decides _ _ m)
  | monResume => exact does (Machine.resumeProcess_decides _ _ m)
  | monState => exact looks (Machine.processStatus_aside _ _)
  | monYield => exact does (Machine.yieldTo_decides _ _ m)
  | monReadRegister => exact looks (Machine.readRegister_aside _ _ _)
  | monWriteRegister => exact does (Machine.writeRegister_decides _ _ _ _ m)
  | monCapRead => exact looks (Machine.readCapabilityOf_aside _ _ _)
  | monCapMove => exact does (Machine.moveCapabilityOf_decides _ _ _ m)
  | monPmpLoad => exact does (Machine.loadRegionOf_decides _ _ _ _ m)
  | monPmpUnload => exact does (Machine.unloadRegionOf_decides _ _ _ m)
  | send => exact does (Machine.send_effect h _ _ m)
  | reply => exact does (Machine.reply_effect h _ _ m)
  | receive => exact does (Machine.receive_effect _ _ m)
  | call => exact does (Machine.call_effect h _ _ m)
  | replyReceive => exact does (Machine.replyReceive_effect h _ _ m)
  | sendReceive => exact does (Machine.sendReceive_effect h _ _ m)

/-- Whatever an operation answers, it has its effect or none; only a revocation may have one and not
succeed. -/
theorem Operation.aside_or_effect (h : Hart) (op : Operation) (m : Machine) :
    Aside m ((op.perform h).exec m).2 ∨ op.Effect h m ((op.perform h).exec m).2 ∧
      ((∃ a, ((op.perform h).exec m).1 = .ok a) ∨ ∃ s, op = .capRevoke s) := by
  -- a revoke that is stopped has had its effect too
  by_cases hop : ∃ s, op = .capRevoke s
  · refine .inr ⟨?_, .inr hop⟩
    obtain ⟨s, rfl⟩ := hop
    rw [Operation.perform, bind_pure_comp, Attempt.exec_map]
    exact .revoke
  · have hdecides := op.perform_decides h m fun s hs => hop ⟨s, hs⟩
    rw [Attempt.Decides] at hdecides
    generalize (op.perform h).exec m = r at hdecides ⊢
    obtain ⟨_ | a, m'⟩ := r
    · exact .inl hdecides
    · exact hdecides.imp_right fun he => ⟨he, .inl ⟨a, rfl⟩⟩

end SepKernel
