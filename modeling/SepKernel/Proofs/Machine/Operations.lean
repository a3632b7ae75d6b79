import SepKernel.Proofs.Machine.Change
import SepKernel.Proofs.Machine.Messages

/-!
# What operations keep

An operation is a number of checks, and then deeds and hushed work. So a relation between machines
that holds across each of these is kept by the whole operation, whether it succeeds or not. Two
kinds of operations need a word more about the relation: a revocation, which is made of other
changes than deeds, and an operation at the end of which somebody waits.
-/

namespace SepKernel

variable {α : Type} {m m' : Machine} {s : Slot}

structure AcrossDeeds (R : Machine → Machine → Prop) : Prop where
  aside : ∀ {m m'}, Aside m m' → R m m'
  deed : ∀ {m m'}, Deed m m' → R m m'

structure AcrossWork (R : Machine → Machine → Prop) : Prop where
  hushed : ∀ {m m'}, Hushed m m' → R m m'
  deed : ∀ {m m'}, Deed m m' → R m m'

/-- A deed by which nothing comes into being. -/
structure Shift (m m' : Machine) : Prop where
  deed : Deed m m'
  count : m'.genealogy.count = m.genealogy.count

structure AcrossShifts (R : Machine → Machine → Prop) : Prop where
  hushed : ∀ {m m'}, Hushed m m' → R m m'
  shift : ∀ {m m'}, Shift m m' → R m m'

theorem AcrossWork.deeds {R : Machine → Machine → Prop} (hR : AcrossWork R) : AcrossDeeds R :=
  ⟨fun h => hR.hushed h.hushed, hR.deed⟩

theorem AcrossWork.shifts {R : Machine → Machine → Prop} (hR : AcrossWork R) : AcrossShifts R :=
  ⟨hR.hushed, fun h => hR.deed h.deed⟩

theorem AcrossShifts.aside {R : Machine → Machine → Prop} (hR : AcrossShifts R) (h : Aside m m') :
    R m m' := hR.hushed h.hushed

namespace Shift

variable {source target : Slot}

theorem move (hs : m.table.get source ≠ .null) (ht : m.table.get target = .null) :
    Shift m ((Machine.relocate source target (m.table.get source)).exec m).2 :=
  ⟨.move hs ht, by rw [Machine.relocate_genealogy]; rfl⟩

theorem delete (hs : m.table.get s ≠ .null) :
    Shift m ((Machine.discardCapability s (m.table.get s)).exec m).2 :=
  ⟨.delete hs, by rw [Machine.discard_genealogy]; rfl⟩

/-- Loading is a shift. -/
theorem load {r : Region} {k : RegionIndex} (hs : m.table.get s = .pmp r) (hl : r.loaded = false)
    (hf : ((m.processes.get s.owner).bank.get k).isFree = true) :
    Shift m ((Machine.install s r k).exec m).2 := by
  refine ⟨.load hs hl hf, ?_⟩
  obtain ⟨_, he⟩ := Machine.install_exec m s r k
  rw [Machine.genealogy_push (m := m) (.loaded s k) (by rw [he])]
  rfl

/-- So is unloading. -/
theorem unload {r : Region} (hs : m.table.get s = .pmp r) (hl : r.loaded = true) :
    Shift m ((Machine.uninstall s r).exec m).2 := by
  refine ⟨.unload hs hl, ?_⟩
  obtain ⟨_, he⟩ := Machine.uninstall_exec m s r
  rw [Machine.genealogy_push (m := m) (.unloaded s) (by rw [he])]
  rfl

end Shift

namespace Machine

open Attempt.Keeps

variable {R : Machine → Machine → Prop} [IsPreorder Machine R]

/-! ## Operations on capabilities -/

/-- If the attempt is not refused, then it is one deed by which nothing comes into being. -/
def Does (a : Attempt Unit) : Prop :=
  ∀ m, a.Decides m fun _ m' => ∃ m₁, Aside m m₁ ∧ Shift m₁ m'

/-- What keeps asides and shifts is kept by what does either. -/
theorem Does.keeps {a : Attempt Unit} (ha : Does a) (haside : ∀ {m m'}, Aside m m' → R m m')
    (hshift : ∀ {m m'}, Shift m m' → R m m') : a.Keeps R := by
  refine fun m => (ha m).result (fun _ => haside) ?_
  rintro _ m' ⟨m₁, h₁, hd⟩
  exact trans_of R (haside h₁) (hshift hd)

/-- The deed may come after a check. -/
theorem Does.after {a : Attempt α} {f : α → Attempt Unit} (ha : a.Keeps Aside)
    (hf : ∀ x, Does (f x)) : Does (a >>= f) := by
  refine fun m => .bind ha fun x m₀ _ h₀ => ?_
  exact (hf x m₀).mono fun _ _ ⟨m₁, h₁, hd⟩ => ⟨m₁, trans_of Aside h₀ h₁, hd⟩

/-- The deed may come after a check that is made only under a condition. -/
theorem Does.guarded {p : Prop} [Decidable p] {a : Attempt Unit} {f : Unit → Attempt Unit}
    (ha : a.Keeps Aside) (hf : Does (f ())) : Does (if p then a >>= f else f ()) := by
  split
  · exact .after ha fun _ => hf
  · exact hf

/-- A capability is moved from an occupied slot to a vacant one, or nothing happens. -/
theorem moveCapability_decides (source target : Slot) (m : Machine) :
    (moveCapability source target).Decides m fun _ m' => m.table.get source ≠ .null ∧
      m.table.get target = .null ∧
        m' = ((relocate source target (m.table.get source)).exec m).2 := by
  show (Functor.map (fun _ => ()) (transferCapability source target)).Decides m _
  rw [map_eq_pure_bind]
  refine .map ?_ fun _ => ()
  unfold transferCapability
  refine .bind (requireSource_aside source) fun c m₁ hc _ => ?_
  obtain ⟨rfl, rfl, hs⟩ := requireSource_ok hc
  refine .bind (requireVacant_aside target) fun _ m₁ hv _ => ?_
  obtain ⟨rfl, ht⟩ := requireVacant_ok hv
  exact ⟨hs, ht, rfl⟩

/-- A capability that is there is discarded. -/
theorem deleteCapability_decides (s : Slot) (m : Machine) :
    (deleteCapability s).Decides m fun _ m' => m.table.get s ≠ .null ∧
      m' = ((discardCapability s (m.table.get s)).exec m).2 := by
  unfold deleteCapability
  refine .bind (readCapability_aside s) fun c m₁ hc _ => ?_
  obtain ⟨rfl, rfl, hs⟩ := readCapability_ok hc
  exact ⟨hs, rfl⟩

/-- A capability is derived if it can be, and if there is room for it. -/
theorem deriveCapability_decides (source target : Slot) (c : Capability) (m : Machine) :
    (deriveCapability source target c).Decides m fun _ m' => (m.table.get source).Derivation c ∧
      m.table.get target = .null ∧
        m' = ((bear source target (m.table.get source) c).exec m).2 := by
  unfold deriveCapability
  refine .bind (requireSource_aside source) fun p m₁ hp _ => ?_
  obtain ⟨rfl, rfl, _⟩ := requireSource_ok hp
  refine .bind (requireVacant_aside target) fun _ m₁ hv _ => ?_
  obtain ⟨rfl, ht⟩ := requireVacant_ok hv
  dsimp only
  split
  · exact .bind (.lift (note_aside fun _ => rfl)) fun _ m₂ _ _ => .throw _ m₂
  · next hd => exact ⟨Capability.mayDerive_iff.1 (by simpa using hd), ht, rfl⟩

/-- A region is loaded into a register that is free. -/
theorem loadRegion_decides (s : Slot) (register : Nat) (m : Machine) :
    (loadRegion s register).Decides m fun _ m' => ∃ r k, m.table.get s = .pmp r ∧
      r.loaded = false ∧ k.val = register ∧
        ((m.processes.get s.owner).bank.get k).isFree = true ∧
          m' = ((install s r k).exec m).2 := by
  unfold loadRegion
  refine .bind (requireRegion_aside s false) fun r m₁ hr _ => ?_
  obtain ⟨rfl, hs, hl⟩ := requireRegion_ok hr
  cases hi : index? 8 register with
  | none => exact .throw _ m₁
  | some k =>
    refine .bind (.lift (process_aside s.owner)) fun q m₂ hq _ => ?_
    cases hq
    dsimp only
    split
    · exact .throw _ m₁
    · next hf => exact ⟨r, k, hs, hl, index?_eq_some_iff.1 hi, by simpa using hf, rfl⟩

/-- A region that is loaded is unloaded. -/
theorem unloadRegion_decides (s : Slot) (m : Machine) :
    (unloadRegion s).Decides m fun _ m' => ∃ r, m.table.get s = .pmp r ∧ r.loaded = true ∧
      m' = ((uninstall s r).exec m).2 := by
  unfold unloadRegion
  refine .bind (requireRegion_aside s true) fun r m₁ hr _ => ?_
  obtain ⟨rfl, hs, hl⟩ := requireRegion_ok hr
  exact ⟨r, hs, hl, rfl⟩

theorem moveCapability_does (source target : Slot) : Does (moveCapability source target) := by
  refine fun m => (moveCapability_decides source target m).mono ?_
  rintro _ _ ⟨hs, ht, rfl⟩
  exact ⟨m, refl_of Aside m, .move hs ht⟩

theorem deleteCapability_does (s : Slot) : Does (deleteCapability s) := by
  refine fun m => (deleteCapability_decides s m).mono ?_
  rintro _ _ ⟨hs, rfl⟩
  exact ⟨m, refl_of Aside m, .delete hs⟩

omit [IsPreorder Machine R] in
/-- A derivation is one deed, or an aside. -/
theorem deriveCapability_keeps (hR : AcrossDeeds R) (source target : Slot) (c : Capability) :
    (deriveCapability source target c).Keeps R := by
  refine fun m => (deriveCapability_decides source target c m).result (fun _ => hR.aside) ?_
  rintro _ _ ⟨hd, ht, rfl⟩
  exact hR.deed (.derive hd ht)

theorem loadRegion_does (s : Slot) (register : Nat) : Does (loadRegion s register) := by
  refine fun m => (loadRegion_decides s register m).mono ?_
  rintro _ _ ⟨r, k, hs, hl, _, hf, rfl⟩
  exact ⟨m, refl_of Aside m, .load hs hl hf⟩

theorem unloadRegion_does (s : Slot) : Does (unloadRegion s) := by
  refine fun m => (unloadRegion_decides s m).mono ?_
  rintro _ _ ⟨r, hs, hl, rfl⟩
  exact ⟨m, refl_of Aside m, .unload hs hl⟩

/-- A monitor moves as the owner would. -/
theorem moveCapabilityOf_does (monitor source target : Slot) :
    Does (moveCapabilityOf monitor source target) := by
  unfold moveCapabilityOf
  refine .guarded (requireStopped_aside _ _) ?_
  exact .guarded (requireStopped_aside _ _) (moveCapability_does source target)

/-- A monitor loads as the owner would. -/
theorem loadRegionOf_does (monitor : Slot) (p : Pid) (index register : Nat) :
    Does (loadRegionOf monitor p index register) := by
  unfold loadRegionOf
  refine .after (requireStopped_aside _ _) fun _ m => ?_
  dsimp only
  split
  · exact .throw _ m
  · exact Does.after (slotAt_aside _ _) (fun s => loadRegion_does s register) m

theorem unloadRegionOf_does (monitor : Slot) (p : Pid) (index : Nat) :
    Does (unloadRegionOf monitor p index) :=
  .after (requireStopped_aside _ _) fun _ => .after (slotAt_aside _ _) unloadRegion_does

/-! ## Messages -/

/-- Handing a prepared message over moves its freight, and is hushed otherwise. -/
theorem deliver_at {h : Hart} {d : Delivery} (hhushed : ∀ {m m'}, Hushed m m' → R m m')
    (hd : Prepared h d m)
    (hmove : ∀ m₁ : Machine, d.message.sendCap = true → m₁.table.get d.buffer ≠ .null →
      m₁.table.get d.receiver.buffer = .null →
      R m₁ ((relocate d.buffer d.receiver.buffer (m₁.table.get d.buffer)).exec m₁).2) :
    R m ((deliver d).exec m).2 := by
  unfold deliver
  have hset := setProcess_hushed (Process.bank_of_receive? hd.taken)
  refine trans_of R (hhushed hset) (Action.Keeps.branch_at (fun hc => ?_) (fun _ => ?_) ?_)
  · -- the table is as it was when the freight was checked
    have htable := hset.table
    obtain ⟨hf, hn, hv⟩ := hd.freight hc
    rw [hf, ← htable] at hn ⊢
    rw [← htable] at hv
    exact hmove _ hc hn hv
  · exact refl_of R _
  · -- what is left of the delivery is hushed
    refine fun c => .mono (R := Hushed) ?_ hhushed
    refine .bind (modifyProcess_hushed _ fun _ => rfl) fun _ => ?_
    refine .bind (dismiss_hushed _ _) fun _ => .bind (note_aside fun _ => rfl).hushed fun _ => ?_
    split
    · exact .bind (process_aside _).hushed fun _ =>
        .bind (modifyProcess_hushed _ fun _ => rfl) fun _ => .pure _
    · exact .bind (release_hushed _) fun _ => .pure _

/-- Dropping an answer deletes its freight, or does nothing. -/
theorem dropAnswer_at {msg : Message} {buffer : Slot}
    (hdelete : msg.sendCap = true → m.table.get buffer ≠ .null →
      R m ((discardCapability buffer (m.table.get buffer)).exec m).2) :
    R m ((dropAnswer msg buffer).exec m).2 := by
  rw [dropAnswer_eq]
  split
  · next hc =>
    simp only [Bool.and_eq_true, Bool.not_eq_true', Bool.eq_false_iff] at hc
    exact hdelete hc.1 (mt (Capability.isNull_iff _).2 hc.2)
  · exact refl_of R m

/-- A message is hushed but for the capability that goes along. -/
theorem send_keeps (hR : AcrossShifts R) (h : Hart) (s : Slot) (msg : Message) :
    (send h s msg).Keeps R := by
  refine fun m => (send_decides h s msg m).result (fun _ => hR.aside) ?_
  rintro n m' ⟨d, m₁, hs, hdeliver⟩
  have hkeeps := deliver_at hR.hushed hs.prepared fun _ _ hn hv => hR.shift (.move hn hv)
  rw [hdeliver] at hkeeps
  exact trans_of R (hR.aside hs.aside) hkeeps

theorem reply_keeps (hR : AcrossShifts R) (h : Hart) (s : Slot) (msg : Message) :
    (reply h s msg).Keeps R :=
  bind ((requireRole_aside s _).mono hR.aside) fun _ => send_keeps hR h s msg

/-! ## Operations at the end of which somebody waits -/

/-- The relation holds across everything that is done over the socket in a slot until its owner
waits: across hushed work, across the departure of freight from the slots that it may leave, and
across waiting on the channel of the socket that the slot has at first. -/
structure AcrossWait (R : Machine → Machine → Prop) (s : Slot) (leaves : Slot → Prop)
    (m : Machine) : Prop where
  hushed : ∀ {m m'}, Hushed m m' → R m m'
  move : ∀ {m₁ : Machine} {b target : Slot}, leaves b → m₁.table.get b ≠ .null →
    m₁.table.get target = .null → R m₁ ((relocate b target (m₁.table.get b)).exec m₁).2
  delete : ∀ {m₁ : Machine} {b : Slot}, leaves b → m₁.table.get b ≠ .null →
    R m₁ ((discardCapability b (m₁.table.get b)).exec m₁).2
  await : ∀ {k : Socket} {b : Slot}, m.table.get s = .socket k → b.owner = s.owner →
    (await k s.owner b).Keeps R

omit [IsPreorder Machine R] in
/-- What keeps shifts and the beginning of a wait is kept across the wait. -/
theorem acrossWait_of_shifts (hR : AcrossShifts R)
    (hwait : ∀ k p b, (Machine.await k p b).Keeps R) (s : Slot) (leaves : Slot → Prop)
    (m : Machine) : AcrossWait R s leaves m where
  hushed := hR.hushed
  move _ hn hv := hR.shift (.move hn hv)
  delete _ hn := hR.shift (.delete hn)
  await _ _ := hwait _ _ _

section Wait
variable {leaves : Slot → Prop} {msg : Message} (hR : AcrossWait R s leaves m)
  (hleaves : ∀ b : Slot, msg.sendCap = true → b.owner = s.owner → b.index.val = msg.buffer →
    leaves b)
include hR

omit [IsPreorder Machine R] in
theorem AcrossWait.aside {m₁ m₂ : Machine} (h : Aside m₁ m₂) : R m₁ m₂ := hR.hushed h.hushed

theorem AcrossWait.awaitClient {k : Socket} {b : Slot} (hk : m.table.get s = .socket k)
    (hb : b.owner = s.owner) : (awaitClient k s.owner b).Keeps R :=
  .bind (hR.await hk hb) fun _ => .bind ((awaitForever_hushed _).mono hR.hushed) fun _ =>
    (note_aside fun _ => rfl).mono hR.aside

theorem AcrossWait.awaitAnswer {k : Socket} {b : Slot} (hk : m.table.get s = .socket k)
    (hb : b.owner = s.owner) (lent : Option Pid) : (awaitAnswer k s.owner b lent).Keeps R := by
  refine .bind (hR.await hk hb) fun _ => ?_
  split
  · exact (awaitForever_hushed _).mono hR.hushed
  · exact .pure _

/-- A server begins to wait, and nothing else happens. -/
theorem receive_at (buffer : Nat) : R m ((receive s buffer).exec m).2 := by
  refine (receive_decides s buffer m).result (fun _ => hR.aside) ?_
  rintro n m' ⟨_, k, b, m₁, h₁, hs, _, hb, _, rfl⟩
  exact trans_of R (hR.aside h₁) (hR.awaitClient hs hb m₁)

include hleaves

/-- A delivery is part of an operation that waits in the end. -/
theorem AcrossWait.deliver {h : Hart} {d : Delivery} {m₁ : Machine} (hs : Sends h s msg m d m₁) :
    R m ((deliver d).exec m₁).2 := by
  refine trans_of R (hR.aside hs.aside) (deliver_at hR.hushed hs.prepared ?_)
  rw [hs.message]
  exact fun _ hc => hR.move (hleaves _ hc hs.buffer.1 hs.buffer.2)

/-- A client delivers its message, and waits. -/
theorem call_at (h : Hart) : R m ((call h s msg).exec m).2 := by
  refine (call_decides h s msg m).result (fun _ => hR.aside) ?_
  rintro n m' ⟨d, m₁, n₀, m₂, hs, _, hdeliver, _, rfl⟩
  have hdelivered : R m ((Machine.deliver d).exec m₁).2 := hR.deliver hleaves hs
  rw [hdeliver] at hdelivered
  exact trans_of R hdelivered (hR.awaitAnswer hs.socket hs.buffer.1 _ m₂)

/-- A server delivers its answer or drops it, and waits. -/
theorem replyReceive_at (h : Hart) : R m ((replyReceive h s msg).exec m).2 := by
  refine (replyReceive_decides h s msg m).result (fun _ => hR.aside) ?_
  rintro n m' ⟨k, b, n₀, m₁, hs, _, hb, _, hanswer, _, rfl⟩
  have hanswered : R m m₁ := by
    cases hanswer with
    | deliver hsends => exact hR.deliver hleaves hsends
    | drop h₁ hbo hbi =>
      exact trans_of R (hR.aside h₁) (dropAnswer_at fun hc => hR.delete (hleaves _ hc hbo hbi))
  exact trans_of R hanswered (hR.awaitClient hs hb m₁)

/-- The role of the socket decides which of the two it is. -/
theorem sendReceive_at (h : Hart) : R m ((sendReceive h s msg).exec m).2 := by
  unfold sendReceive
  apply bind_from (hR.aside (requireSocket_aside s m))
  intro k m₁ hk
  obtain ⟨rfl, _⟩ := requireSocket_ok hk
  split
  · exact replyReceive_at hR hleaves h
  · exact call_at hR hleaves h

end Wait

end Machine

/-! ## All operations -/

namespace Operation

open Attempt.Keeps

/-- Does the owner of a slot wait at the end of the operation, if it succeeds, on the channel of the
socket in the slot? -/
def WaitsAt : Operation → Slot → Prop
  | receive s _, x | call s _, x | replyReceive s _, x | sendReceive s _, x => x = s
  | _, _ => False

/-- May a capability leave a slot before somebody waits at the end of the operation? -/
def Ships : Operation → Slot → Prop
  | call s msg, b | replyReceive s msg, b | sendReceive s msg, b =>
    msg.sendCap = true ∧ b.owner = s.owner ∧ b.index.val = msg.buffer
  | _, _ => False

variable {R : Machine → Machine → Prop} [IsPreorder Machine R]

/-- What holds across hushed work and shifts is kept by all operations, if it is kept by
derivations, by revocations and by the operations at the end of which somebody waits. -/
theorem perform_keeps_of (hR : AcrossShifts R) (h : Hart) (op : Operation)
    (hderive : ∀ s t c, op = .capDerive s t c → (Machine.deriveCapability s t c).Keeps R)
    (hrevoke : ∀ s, op = .capRevoke s → (Machine.revokeCapability h s).Keeps R)
    (hwaits : ∀ s, op.WaitsAt s → (op.perform h).Keeps R) : (op.perform h).Keeps R := by
  -- most operations look, or do one deed
  have does : ∀ {a : Attempt Unit}, Machine.Does a → a.Keeps R :=
    fun ha => ha.keeps hR.aside hR.shift
  cases op with
  | capRead => exact map _ ((Machine.readCapability_aside _).mono hR.aside)
  | capMove => exact bind (does (Machine.moveCapability_does _ _)) fun _ => pure _
  | capDelete => exact bind (does (Machine.deleteCapability_does _)) fun _ => pure _
  | capDerive => exact bind (hderive _ _ _ rfl) fun _ => pure _
  | capRevoke => exact bind (hrevoke _ rfl) fun _ => pure _
  | pmpLoad => exact bind (does (Machine.loadRegion_does _ _)) fun _ => pure _
  | pmpUnload => exact bind (does (Machine.unloadRegion_does _)) fun _ => pure _
  | monSuspend =>
    exact bind ((Machine.suspendProcess_hushed _ _).mono hR.hushed) fun _ => pure _
  | monResume =>
    exact bind ((Machine.resumeProcess_hushed _ _).mono hR.hushed) fun _ => pure _
  | monState => exact map _ ((Machine.processStatus_aside _ _).mono hR.aside)
  | monYield => exact map _ ((Machine.yieldTo_hushed _ _).mono hR.hushed)
  | monReadRegister => exact map _ ((Machine.readRegister_aside _ _ _).mono hR.aside)
  | monWriteRegister =>
    exact bind ((Machine.writeRegister_hushed _ _ _ _).mono hR.hushed) fun _ => pure _
  | monCapRead => exact map _ ((Machine.readCapabilityOf_aside _ _ _).mono hR.aside)
  | monCapMove => exact bind (does (Machine.moveCapabilityOf_does _ _ _)) fun _ => pure _
  | monPmpLoad => exact bind (does (Machine.loadRegionOf_does _ _ _ _)) fun _ => pure _
  | monPmpUnload => exact bind (does (Machine.unloadRegionOf_does _ _ _)) fun _ => pure _
  | send => exact map _ (Machine.send_keeps hR _ _ _)
  | reply => exact map _ (Machine.reply_keeps hR _ _ _)
  | receive | call | replyReceive | sendReceive => exact hwaits _ rfl

/-- What holds across work and deeds is kept by all operations, if it is kept by revocations and by
the operations at the end of which somebody waits. -/
theorem perform_keeps (hR : AcrossWork R) (h : Hart) (op : Operation)
    (hrevoke : ∀ s, op = .capRevoke s → (Machine.revokeCapability h s).Keeps R)
    (hwaits : ∀ s, op.WaitsAt s → (op.perform h).Keeps R) : (op.perform h).Keeps R :=
  perform_keeps_of hR.shifts h op
    (fun _ _ _ _ => Machine.deriveCapability_keeps hR.deeds _ _ _) hrevoke hwaits

/-- An operation at the end of which somebody waits, on a machine. -/
theorem WaitsAt.perform_at {op : Operation} {s : Slot} {m : Machine} (hop : op.WaitsAt s)
    (hR : Machine.AcrossWait R s op.Ships m) (h : Hart) : R m ((op.perform h).exec m).2 := by
  -- the four operations that make their caller wait
  cases op with
  | receive =>
    obtain rfl := hop
    exact Attempt.Keeps.map_at (Machine.receive_at hR _)
  | call =>
    obtain rfl := hop
    exact Attempt.Keeps.map_at (Machine.call_at hR (fun _ hc ho hi => ⟨hc, ho, hi⟩) h)
  | replyReceive =>
    obtain rfl := hop
    exact Attempt.Keeps.map_at (Machine.replyReceive_at hR (fun _ hc ho hi => ⟨hc, ho, hi⟩) h)
  | sendReceive =>
    obtain rfl := hop
    exact Attempt.Keeps.map_at (Machine.sendReceive_at hR (fun _ hc ho hi => ⟨hc, ho, hi⟩) h)
  | _ => exact hop.elim

end Operation
end SepKernel
