import SepKernel.Proofs.Machine.Reachable
import SepKernel.Proofs.Syscall.Reading

/-!
# What is checked at the boundary

Whatever a system call names is checked when the call is read, and not found wrong again. The
operations do check positions and numbers for themselves, and the two dispatchers refuse a call of
the other kind; but a call that was read passes all of these. What it may be refused for then lies
in the state of the kernel: what the slots hold, who waits, who is stopped.
-/

namespace SepKernel

variable {α β : Type} {p : Pid} {e : Error}

/-! ## Reasons -/

/-- Does the reason lie in the state of the kernel? The others say that there is no such thing as
the call names, or are not given by operations at all. -/
def Error.isInner : Error → Bool
  | .invalidSyscall | .invalidIndex | .invalidPid | .invalidRegister | .invalidSlot
  | .invalidCapability | .timeout => false
  | _ => true

/-- Whatever the machine, the attempt is refused only for reasons that lie in its state. -/
def Attempt.Inner (a : Attempt α) : Prop :=
  ∀ m e m', a.exec m = (.error e, m') → e.isInner = true

namespace Attempt.Inner

theorem throw (he : e.isInner = true) : (throw e : Attempt α).Inner := by
  rintro m _ _ ⟨⟩
  exact he

theorem pure (x : α) : (pure x : Attempt α).Inner := by
  rintro m _ _ ⟨⟩

theorem lift (a : Action α) : (liftM a : Attempt α).Inner := by
  rintro m _ _ ⟨⟩

theorem get : (get : Attempt Machine).Inner := by
  rintro m _ _ ⟨⟩

/-- An attempt in two parts is refused for a reason of the first or of the second. -/
theorem bind {a : Attempt α} {f : α → Attempt β} (ha : a.Inner) (hf : ∀ x, (f x).Inner) :
    (a >>= f).Inner := by
  intro m e m' he
  rcases exec_bind_eq_error.1 he with he | ⟨x, m₁, _, he⟩
  · exact ha m e m' he
  · exact hf x m₁ e m' he

theorem map (f : α → β) {a : Attempt α} (ha : a.Inner) : (f <$> a).Inner := by
  rw [map_eq_pure_bind]
  exact bind ha fun x => pure (f x)

/-- A check may be made only under a condition. -/
theorem guarded {c : Prop} [Decidable c] {a : Attempt Unit} {f : Unit → Attempt β} (ha : a.Inner)
    (hf : (f ()).Inner) : (if c then a >>= f else f ()).Inner := by
  split
  · exact bind ha fun _ => hf
  · exact hf

/-- What is known of an attempt that ends so or so is used where it ends. -/
theorem of_observing {a : Attempt α} {f : Except Error α → Attempt β} (ha : a.Inner)
    (hok : ∀ x, (f (.ok x)).Inner) (herror : ∀ e, e.isInner = true → (f (.error e)).Inner) :
    (observing a >>= f).Inner := by
  intro m e m' he
  rw [exec_bind_ok (exec_observing a)] at he
  cases hx : (a.exec m).1 with
  | ok x =>
    rw [hx] at he
    exact hok x _ e m' he
  | error e₁ =>
    rw [hx] at he
    exact herror e₁ (ha m e₁ _ (Prod.ext hx rfl)) _ e m' he

end Attempt.Inner

namespace Machine

open Attempt.Inner

/-! ## Checks -/

theorem lock_inner (h : Hart) : (lock h).Inner := by
  refine bind get fun m => ?_
  split
  · exact bind (lift _) fun _ => throw rfl
  · exact pure _

/-- A slot that is read may be empty, which is a matter of state. -/
theorem readCapability_inner (s : Slot) : (readCapability s).Inner := by
  intro m e m' he
  rw [readCapability_exec, Table.read] at he
  split at he
  · cases he
    rfl
  · cases he

theorem requireSource_inner (s : Slot) : (requireSource s).Inner :=
  bind (lift _) fun _ => guarded (throw rfl) (pure _)

theorem requireVacant_inner (s : Slot) : (requireVacant s).Inner := by
  refine bind (lift _) fun c => ?_
  split
  · exact throw rfl
  · exact pure _

theorem requireRegion_inner (s : Slot) (loaded : Bool) : (requireRegion s loaded).Inner := by
  refine bind (readCapability_inner s) fun c => ?_
  split
  · split
    · exact pure _
    · exact throw rfl
  · exact throw rfl

theorem requireControl_inner (s : Slot) (p : Pid) : (requireControl s p).Inner := by
  refine bind (lift _) fun c => ?_
  split
  · exact bind (lift _) fun _ => throw rfl
  · exact pure _

theorem requireStopped_inner (s : Slot) (p : Pid) : (requireStopped s p).Inner := by
  refine bind (requireControl_inner s p) fun _ => bind (lift _) fun q => ?_
  split
  · exact throw rfl
  · exact pure _

/-- A position that is in range is not refused. -/
theorem slotAt_inner {index : Nat} (hi : index < slotsPerProcess) : (slotAt p index).Inner := by
  rw [slotAt, index?, dif_pos hi]
  exact pure _

theorem requireSocket_inner (s : Slot) : (requireSocket s).Inner := by
  refine bind (readCapability_inner s) fun c => ?_
  split
  · exact pure _
  · exact throw rfl

theorem requireRole_inner (s : Slot) (r : Role) : (requireRole s r).Inner :=
  bind (requireSocket_inner s) fun _ => guarded (throw rfl) (pure _)

theorem requireGoing_inner (p : Pid) : (requireGoing p).Inner := by
  refine bind (lift _) fun q => ?_
  split
  · exact throw rfl
  · exact pure _

theorem requireSendable_inner (k : Socket) (msg : Message) : (requireSendable k msg).Inner := by
  unfold requireSendable
  split
  · exact throw rfl
  · exact pure _

theorem requireBuffer_inner (k : Socket) (msg : Message) (b : Slot) :
    (requireBuffer k msg b).Inner := by
  unfold requireBuffer
  split
  · exact requireVacant_inner b
  · exact pure _

theorem requireFreight_inner (msg : Message) (source target : Slot) :
    (requireFreight msg source target).Inner := by
  unfold requireFreight
  split
  · exact bind (requireSource_inner _) fun _ => bind (requireVacant_inner _) fun _ => pure _
  · exact pure _

/-! ## Capabilities -/

theorem transferCapability_inner (source target : Slot) :
    (transferCapability source target).Inner :=
  bind (requireSource_inner _) fun _ => bind (requireVacant_inner _) fun _ => lift _

theorem moveCapability_inner (source target : Slot) : (moveCapability source target).Inner :=
  map _ (transferCapability_inner source target)

theorem deleteCapability_inner (s : Slot) : (deleteCapability s).Inner :=
  bind (readCapability_inner _) fun _ => lift _

theorem deriveCapability_inner (source target : Slot) (c : Capability) :
    (deriveCapability source target c).Inner := by
  refine bind (requireSource_inner _) fun p => bind (requireVacant_inner _) fun _ => ?_
  dsimp only
  split
  · exact bind (lift _) fun _ => bind (throw rfl) fun _ => lift _
  · exact lift _

theorem revokeCapability_inner (h : Hart) (s : Slot) : (revokeCapability h s).Inner := by
  refine bind (readCapability_inner _) fun _ => bind get fun m => bind (lift _) fun all => ?_
  split
  · exact lift _
  · exact bind (lift _) fun _ => throw rfl

theorem loadRegion_inner (s : Slot) {register : Nat} (hr : register < regionCount) :
    (loadRegion s register).Inner := by
  refine bind (requireRegion_inner _ _) fun r => ?_
  rw [index?, dif_pos hr]
  exact bind (lift _) fun q => guarded (throw rfl) (lift _)

theorem unloadRegion_inner (s : Slot) : (unloadRegion s).Inner :=
  bind (requireRegion_inner _ _) fun _ => lift _

/-! ## Other processes -/

theorem suspendProcess_inner (s : Slot) (p : Pid) : (suspendProcess s p).Inner :=
  bind (requireControl_inner _ _) fun _ => bind (lift _) fun _ => lift _

theorem resumeProcess_inner (s : Slot) (p : Pid) : (resumeProcess s p).Inner :=
  bind (requireControl_inner _ _) fun _ => bind (lift _) fun _ => lift _

theorem processStatus_inner (s : Slot) (p : Pid) : (processStatus s p).Inner :=
  bind (requireControl_inner _ _) fun _ => bind (lift _) fun _ => pure _

theorem yieldTo_inner (s : Slot) (p : Pid) : (yieldTo s p).Inner := by
  refine bind (requireControl_inner _ _) fun _ => bind (lift _) fun q => bind get fun m => ?_
  split
  · exact bind (lift _) fun _ => bind (lift _) fun _ => bind (lift _) fun _ => pure _
  · exact throw rfl

theorem readRegister_inner (s : Slot) (p : Pid) (r : Register) : (readRegister s p r).Inner :=
  bind (requireStopped_inner _ _) fun _ => bind (lift _) fun _ => pure _

theorem writeRegister_inner (s : Slot) (p : Pid) (r : Register) (w : Word) :
    (writeRegister s p r w).Inner := by
  refine bind (requireControl_inner _ _) fun _ => bind (lift _) fun q => ?_
  split
  · exact bind (lift _) fun _ => lift _
  · exact throw rfl

theorem readCapabilityOf_inner (s : Slot) (p : Pid) {index : Nat} (hi : index < slotsPerProcess) :
    (readCapabilityOf s p index).Inner :=
  bind (requireStopped_inner _ _) fun _ => bind (slotAt_inner hi) fun _ => readCapability_inner _

theorem moveCapabilityOf_inner (s source target : Slot) :
    (moveCapabilityOf s source target).Inner := by
  unfold moveCapabilityOf
  refine guarded (requireStopped_inner _ _) ?_
  exact guarded (requireStopped_inner _ _) (moveCapability_inner _ _)

theorem loadRegionOf_inner (s : Slot) (p : Pid) {index register : Nat}
    (hi : index < slotsPerProcess) (hr : register < regionCount) :
    (loadRegionOf s p index register).Inner := by
  refine bind (requireStopped_inner _ _) fun _ => ?_
  dsimp only
  rw [if_neg (Nat.not_le.2 hr)]
  exact bind (slotAt_inner hi) fun t => loadRegion_inner t hr

theorem unloadRegionOf_inner (s : Slot) (p : Pid) {index : Nat} (hi : index < slotsPerProcess) :
    (unloadRegionOf s p index).Inner :=
  bind (requireStopped_inner _ _) fun _ => bind (slotAt_inner hi) fun _ => unloadRegion_inner _

/-! ## Messages -/

section Message
variable (h : Hart) (s : Slot) {msg : Message} (hb : msg.buffer < slotsPerProcess)

/-- A message may be refused for what the sockets permit, for who is stopped, for what the slots
hold, or for want of a receiver. -/
theorem prepare_inner (p : Pid) (k : Socket) (msg : Message) (b : Slot) :
    (prepare h p k msg b).Inner := by
  refine bind (requireSendable_inner _ _) fun _ => bind (requireGoing_inner _) fun _ =>
    bind (lift _) fun _ => bind get fun m => ?_
  split
  · refine guarded (requireGoing_inner _) ?_
    refine bind (requireFreight_inner _ _ _) fun c => bind get fun m => bind (lift _) fun q => ?_
    split
    · exact pure _
    · exact bind (lift _) fun _ => throw rfl
  · exact throw rfl

theorem receive_inner {buffer : Nat} (hb : buffer < slotsPerProcess) :
    (receive s buffer).Inner := by
  refine bind (requireRole_inner _ _) fun k => bind (requireGoing_inner _) fun _ =>
    bind (slotAt_inner hb) fun b => ?_
  exact guarded (requireVacant_inner _) (bind (lift _) fun _ => pure _)

/-- The late checks of a move give no other reasons than the checks of the message. -/
theorem transmit_inner (p : Pid) (k : Socket) (msg : Message) (b : Slot) :
    (transmit h p k msg b).Inner := by
  refine bind (prepare_inner _ _ _ _ _) fun d => bind (lift _) fun _ => ?_
  dsimp only
  split
  · exact bind (transferCapability_inner _ _) fun _ => lift _
  · exact lift _

/-- An answer is refused for the reasons of a message. What is dropped in its place is read once
more, and the slot may only be found empty. -/
theorem answer_inner (p : Pid) (k : Socket) (msg : Message) (b : Slot) :
    (answer h p k msg b).Inner := by
  refine of_observing (transmit_inner _ _ _ _ _) (fun _ => pure _) fun e he => ?_
  split
  · contradiction
  · refine bind (lift _) fun c => ?_
    exact guarded (deleteCapability_inner b) (pure _)
  · next heq =>
    cases heq
    exact throw he

include hb

theorem send_inner : (send h s msg).Inner :=
  bind (requireSocket_inner _) fun _ => bind (slotAt_inner hb) fun _ => transmit_inner _ _ _ _ _

theorem reply_inner : (reply h s msg).Inner :=
  bind (requireRole_inner _ _) fun _ => send_inner h s hb

theorem call_inner : (call h s msg).Inner := by
  refine bind (requireRole_inner _ _) fun k => bind (slotAt_inner hb) fun b =>
    bind (requireSendable_inner _ _) fun _ => bind (requireBuffer_inner _ _ _) fun _ =>
      bind (transmit_inner _ _ _ _ _) fun next => bind (lift _) fun _ => ?_
  split
  · exact pure _
  · exact bind (lift _) fun _ => pure _

theorem replyReceive_inner : (replyReceive h s msg).Inner := by
  refine bind (requireRole_inner _ _) fun k => bind (slotAt_inner hb) fun b =>
    bind (requireSendable_inner _ _) fun _ => bind (requireBuffer_inner _ _ _) fun _ =>
      bind (answer_inner _ _ _ _ _) fun next => bind (lift _) fun _ => ?_
  split
  · exact pure _
  · exact pure _

theorem sendReceive_inner : (sendReceive h s msg).Inner := by
  refine bind (requireSocket_inner _) fun k => ?_
  split
  · exact replyReceive_inner h s hb
  · exact call_inner h s hb

end Message

end Machine

/-! ## Operations -/

namespace Operation

open Attempt.Inner Machine

def InRange : Operation → Prop
  | pmpLoad _ k => k < regionCount
  | monCapRead _ _ i | monPmpUnload _ _ i => i < slotsPerProcess
  | monPmpLoad _ _ i k => i < slotsPerProcess ∧ k < regionCount
  | send _ m | reply _ m | call _ m | replyReceive _ m | sendReceive _ m =>
    m.buffer < slotsPerProcess
  | receive _ b => b < slotsPerProcess
  | _ => True

/-- No operation on numbers in range is refused for a number. By cases on the operation, each of
them made of the checks above. -/
theorem perform_inner (h : Hart) {op : Operation} (hop : op.InRange) :
    (op.perform h).Inner := by
  cases op with
  | capRead s => exact bind (readCapability_inner s) fun _ => pure _
  | capMove s t => exact bind (moveCapability_inner s t) fun _ => pure _
  | capDelete s => exact bind (deleteCapability_inner s) fun _ => pure _
  | capDerive s t c => exact bind (deriveCapability_inner s t c) fun _ => pure _
  | capRevoke s => exact bind (revokeCapability_inner h s) fun _ => pure _
  | pmpLoad s k => exact bind (loadRegion_inner s hop) fun _ => pure _
  | pmpUnload s => exact bind (unloadRegion_inner s) fun _ => pure _
  | monSuspend m p => exact bind (suspendProcess_inner m p) fun _ => pure _
  | monResume m p => exact bind (resumeProcess_inner m p) fun _ => pure _
  | monState m p => exact bind (processStatus_inner m p) fun _ => pure _
  | monYield m p => exact bind (yieldTo_inner m p) fun _ => pure _
  | monReadRegister m p r => exact bind (readRegister_inner m p r) fun _ => pure _
  | monWriteRegister m p r w => exact bind (writeRegister_inner m p r w) fun _ => pure _
  | monCapRead m p i => exact bind (readCapabilityOf_inner m p hop) fun _ => pure _
  | monCapMove m s t => exact bind (moveCapabilityOf_inner m s t) fun _ => pure _
  | monPmpLoad m p i k => exact bind (loadRegionOf_inner m p hop.1 hop.2) fun _ => pure _
  | monPmpUnload m p i => exact bind (unloadRegionOf_inner m p hop) fun _ => pure _
  | send s msg => exact bind (send_inner h s hop) fun _ => pure _
  | reply s msg => exact bind (reply_inner h s hop) fun _ => pure _
  | receive s b => exact bind (receive_inner s hop) fun _ => pure _
  | call s msg => exact bind (call_inner h s hop) fun _ => pure _
  | replyReceive s msg => exact bind (replyReceive_inner h s hop) fun _ => pure _
  | sendReceive s msg => exact bind (sendReceive_inner h s hop) fun _ => pure _

end Operation

/-! ## Dispatching -/

namespace SharedCall

open Machine

/-- The numbers of a call that was read are in range for the operation that it stands for. -/
theorem operation_inRange (p : Pid) {c : SharedCall} (hc : c.InRange) :
    (c.operation p).InRange := by
  cases c with
  | pmpLoad i k => exact k.isLt
  | monCapRead m q i => exact i.isLt
  | monPmpLoad m q i k => exact ⟨i.isLt, k.isLt⟩
  | monPmpUnload m q i => exact i.isLt
  | sockSend i msg => exact hc
  | sockRecv i b => exact b.isLt
  | sockSendRecv i msg => exact hc
  | _ => trivial

/-- The operation that a call of a process stands for, each of its positions checked again. -/
def resolve (p : Pid) : SharedCall → Attempt Operation
  | capRead i => return .capRead (← slotAt p i)
  | capMove i j => return .capMove (← slotAt p i) (← slotAt p j)
  | capDelete i => return .capDelete (← slotAt p i)
  | capRevoke i => return .capRevoke (← slotAt p i)
  | capDerive i j c => return .capDerive (← slotAt p i) (← slotAt p j) c
  | pmpLoad i k => return .pmpLoad (← slotAt p i) k
  | pmpUnload i => return .pmpUnload (← slotAt p i)
  | monSuspend m q => return .monSuspend (← slotAt p m) q
  | monResume m q => return .monResume (← slotAt p m) q
  | monState m q => return .monState (← slotAt p m) q
  | monYield m q => return .monYield (← slotAt p m) q
  | monReadRegister m q r => return .monReadRegister (← slotAt p m) q r
  | monWriteRegister m q r w => return .monWriteRegister (← slotAt p m) q r w
  | monCapRead m q i => return .monCapRead (← slotAt p m) q i
  | monCapMove m s t =>
    return .monCapMove (← slotAt p m) (← slotAt s.owner s.index) (← slotAt t.owner t.index)
  | monPmpLoad m q i k => return .monPmpLoad (← slotAt p m) q i k
  | monPmpUnload m q i => return .monPmpUnload (← slotAt p m) q i
  | sockSend i msg => return .send (← slotAt p i) msg
  | sockRecv i b => return .receive (← slotAt p i) b
  | sockSendRecv i msg => return .sendReceive (← slotAt p i) msg

/-- None of these checks fails. -/
theorem resolve_eq (p : Pid) (c : SharedCall) : c.resolve p = pure (c.operation p) := by
  have hslot : ∀ (q : Pid) (i : SlotIndex), Machine.slotAt q i = pure ⟨q, i⟩ := by
    intro q i
    rw [Machine.slotAt, index?_val]
  cases c <;> simp only [resolve, hslot, pure_bind, operation]

end SharedCall

namespace Machine

open Attempt.Inner

/-- Carry out a call without the lock; others than those that concern their caller alone are
refused. -/
def runLockFree (h : Hart) (p : Pid) : Syscall → Attempt Outcome
  | .own c => performOwn h p c
  | .shared _ => throw .invalidSyscall

/-- Carry out a call under the lock; those that concern their caller alone are refused. -/
def runLocked (h : Hart) (p : Pid) : Syscall → Attempt Outcome
  | .own _ => throw .invalidSyscall
  | .shared c => do return (← (← c.resolve p).perform h).outcome

def dispatch (h : Hart) (p : Pid) (c : Syscall) : Attempt Outcome := do
  if c.isLockFree then
    runLockFree h p c
  else
    lock h
    runLocked h p c

/-- No call comes to the dispatcher of the other kind. -/
theorem dispatch_eq_perform (h : Hart) (p : Pid) (c : Syscall) :
    dispatch h p c = perform h p c := by
  cases c with
  | own c => rfl
  | shared c =>
    calc dispatch h p (.shared c)
        = lock h >>= fun _ => c.resolve p >>= fun op =>
            op.perform h >>= fun a => pure a.outcome := rfl
      _ = lock h >>= fun _ => (c.operation p).perform h >>= fun a => pure a.outcome := by
          rw [SharedCall.resolve_eq]
          simp only [pure_bind]
      _ = (c.operation p).run h >>= fun a => pure a.outcome := by
          rw [Operation.run, bind_assoc]

theorem perform_inner (h : Hart) (p : Pid) {c : Syscall} (hc : c.InRange) :
    (perform h p c).Inner := by
  cases c with
  | own c => exact lift _
  | shared c =>
    exact bind (bind (lock_inner h) fun _ => Operation.perform_inner h (c.operation_inRange p hc))
      fun _ => pure _

end Machine

namespace Syscall

/-- A call is read if and only if there is a call of its number and every argument that it uses is
in range. Otherwise it is refused for the first argument that is not. Arguments that the call does
not use do not matter. And no call that was read is refused again because something that it names
is out of range, on any machine. -/
theorem checked_at_boundary (call : Word) (a : Vector Word 8) :
    ((∃ c, decode call a = .ok c) ↔
        call.toNat ≤ 24 ∧
          ∀ ow ∈ (operands call.toNat).zip a.toList, ow.1.refusal? ow.2 = none) ∧
      (∀ e, decode call a = .error e ↔
        24 < call.toNat ∧ e = .invalidSyscall ∨
          call.toNat ≤ 24 ∧
            ((operands call.toNat).zip a.toList).findSome? (fun ow => ow.1.refusal? ow.2) =
              some e) ∧
      (∀ b, Agree (operands call.toNat).length a b → decode call a = decode call b) ∧
      ∀ c, decode call a = .ok c → ∀ m h p,
        Machine.dispatch h p c = Machine.perform h p c ∧
          ∀ e, ((Machine.dispatch h p c).exec m).1 = .error e →
            e ∉ [Error.invalidSyscall, .invalidIndex, .invalidPid, .invalidRegister, .invalidSlot,
              .invalidCapability, .timeout] := by
  have hrefusal := decode_refusal call a
  refine ⟨?_, ?_, fun b => decode_congr call, ?_⟩
  · rw [← refusal?_eq_none_iff, hrefusal]
    split
    · next hc => rw [firstRefusal?, List.findSome?_eq_none_iff, and_iff_right hc]
    · next hc => simp [hc]
  · intro e
    rw [← refusal?_eq_some_iff, hrefusal]
    split
    · next hc => simp [hc, firstRefusal?, Nat.not_lt.2 hc]
    · next hc => simp [hc, Nat.not_le.1 hc, eq_comm]
  · intro c hc m h p
    refine ⟨Machine.dispatch_eq_perform h p c, ?_⟩
    intro e he
    rw [Machine.dispatch_eq_perform] at he
    -- what has been decoded is in range, and then the other errors are left
    have hinner := Machine.perform_inner h p (inRange_of_decode hc) m e _ (Prod.ext he rfl)
    revert hinner
    cases e <;> simp [Error.isInner]

/-- A move between two other processes is read, whatever the last three arguments are, and refused
if the first process does not exist. Without a monitor capability it is refused as well, but not for
a position. -/
theorem checked_at_boundary_move : ∃ c m, Reachable [.wholeTime 0 0 64] m ∧
    decode 19 #v[1, 2, 31, 7, 5, 0, 0, 0] = .ok c ∧
    decode 19 #v[1, 2, 31, 7, 5, 9, 9, 9] = .ok c ∧
    decode 19 #v[1, 8, 32, 7, 5, 0, 0, 0] = .error .invalidPid ∧
    ((Machine.dispatch 0 0 c).exec m).1 = .error .invalidMonitor ∧
    Error.invalidMonitor ∉ [Error.invalidSyscall, .invalidIndex, .invalidPid, .invalidRegister,
      .invalidSlot, .invalidCapability, .timeout] := by
  obtain ⟨hok, _, hcongr, hinner⟩ := checked_at_boundary 19 #v[1, 2, 31, 7, 5, 0, 0, 0]
  obtain ⟨c, hc⟩ := hok.2 (by decide +kernel)
  have hcall : c = .shared (.monCapMove 1 ⟨2, 31⟩ ⟨7, 5⟩) := (Except.ok.inj hc).symm
  -- the last three arguments are not used
  have hagree : Agree 5 #v[1, 2, 31, 7, 5, 0, 0, 0] #v[1, 2, 31, 7, 5, 9, 9, 9] := by
    unfold Agree
    decide +kernel
  have hsame : decode 19 #v[1, 2, 31, 7, 5, 9, 9, 9] = .ok c := by
    rw [← hcongr _ hagree, hc]
  have hrefused : decode 19 #v[1, 8, 32, 7, 5, 0, 0, 0] = .error .invalidPid :=
    ((checked_at_boundary 19 #v[1, 8, 32, 7, 5, 0, 0, 0]).2.1 _).2 (.inr (by decide +kernel))
  obtain ⟨m, hm⟩ : ∃ m, m = Machine.afterAll [.wholeTime 0 0 64] [] := ⟨_, rfl⟩
  have herror : ((Machine.dispatch 0 0 c).exec m).1 = .error .invalidMonitor := by
    rw [hcall, hm]
    decide +kernel
  exact ⟨c, m, hm ▸ .afterAll rfl _, hc, hsame, hrefused, herror,
    (hinner c hc m 0 0).2 _ herror⟩

end Syscall
end SepKernel
