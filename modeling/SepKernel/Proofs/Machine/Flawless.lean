import SepKernel.Proofs.Machine.Effects
import SepKernel.Proofs.Machine.Sequel
import SepKernel.Proofs.Harts.Handover

/-!
# Work without faults

The checks of an operation find out whether it may be carried out, not whether the kernel is in
order: that the links of a slot fit together, that a hart, a register or a channel of the number in
a capability exists, that whoever waits is held. Where the table is lineal and sized, and the caller
held, an operation that passes its checks has all it relies on. So does each step of a revocation,
which leaves the table lineal and sized for the next.
-/

namespace SepKernel

variable {m m' m₁ : Machine} {s d source target : Slot} {c p : Capability} {h : Hart} {pid : Pid}

def Flawless (m m' : Machine) : Prop :=
  m'.faults = m.faults

instance : IsPreorder Machine Flawless where
  refl _ := rfl
  trans _ _ _ h h' := h'.trans h

namespace Machine

open Action.Keeps

/-! ## Single steps -/

theorem expect_flawless (f : Fault) {b : Bool} (hb : b = true) : (expect f b).Keeps Flawless := by
  subst hb
  exact modify fun _ => rfl

theorem note_flawless (e : Event) : (note e).Keeps Flawless := modify fun _ => rfl

theorem modifyProcess_flawless (p : Pid) (f : Process → Process) :
    (modifyProcess p f).Keeps Flawless := modify fun _ => rfl

theorem modifyRegistry_flawless (f : Registry → Registry) : (modifyRegistry f).Keeps Flawless :=
  modify fun _ => rfl

theorem modifySchedule_flawless (f : Schedule → Schedule) : (modifySchedule f).Keeps Flawless :=
  modify fun _ => rfl

theorem modifyBoard_flawless (f : Board → Board) : (modifyBoard f).Keeps Flawless :=
  modify fun _ => rfl

theorem process_flawless (p : Pid) : (process p).Keeps Flawless := map _ get

theorem setCapability_flawless (hs : m.table.get s ≠ .null) (hc : c ≠ .null) :
    Flawless m ((setCapability s c).exec m).2 := by
  simp [Flawless, Capability.isNull_eq_false_iff, setCapability_exec, hs, hc]

theorem vacate_flawless (hm : m.table.Strung) : Flawless m ((vacate s).exec m).2 := by
  simp [Flawless, vacate_exec, Table.isConsistent_iff.1 hm.isConsistent s]

/-! ## What comes with a capability -/

/-- Turns of a hart that exists are filled in within the frame. -/
theorem assignTime_flawless {hart : BitVec 8} {first last limit : BitVec 16}
    (hh : hart.toNat < hartCount) (hl : limit.toNat ≤ frameSlots)
    (ho : first ≤ last ∧ last ≤ limit) (p : Pid) :
    (assignTime p hart first last limit).Keeps Flawless := by
  have hi : index? 4 hart.toNat = some ⟨hart.toNat, hh⟩ := index?_eq_some_iff.2 rfl
  refine bind (note_flawless _) fun _ => ?_
  refine bind (expect_flawless _ (decide_eq_true ⟨ho.1, ho.2, hl⟩)) fun _ => ?_
  rw [hi]
  exact modifySchedule_flawless _

/-- They are cleared within the frame. -/
theorem clearTime_flawless {hart : BitVec 8} {first last : BitVec 16}
    (hh : hart.toNat < hartCount) (hl : last.toNat ≤ frameSlots) (ho : first ≤ last) :
    (clearTime hart first last).Keeps Flawless := by
  have hi : index? 4 hart.toNat = some ⟨hart.toNat, hh⟩ := index?_eq_some_iff.2 rfl
  refine bind (note_flawless _) fun _ => ?_
  refine bind (expect_flawless _ (decide_eq_true ⟨ho, hl⟩)) fun _ => ?_
  rw [hi]
  exact modifySchedule_flawless _

/-- A register that exists can be freed. -/
theorem freeRegister_flawless (p : Pid) {slot : BitVec 8} (hs : slot.toNat < regionCount) :
    (freeRegister p slot).Keeps Flawless := by
  have hi : index? 8 slot.toNat = some ⟨slot.toNat, hs⟩ := index?_eq_some_iff.2 rfl
  rw [freeRegister, hi]
  exact modifyProcess_flawless _ _

theorem clearChannel_flawless {k : Socket} (hk : k.chan.toNat < channelCount) (p : Pid) :
    (clearChannel k p).Keeps Flawless :=
  bind (expect_flawless _ (decide_eq_true hk)) fun _ => modifyRegistry_flawless _

/-- What is sized and sound names turns that exist. -/
theorem takeUp_flawless (hz : c.Sized) (hs : c.Sound) (p : Pid) :
    (takeUp p c).Keeps Flawless := by
  cases c with
  | time hart s => exact assignTime_flawless hz.1 hz.2 ⟨(hs s rfl).2, BitVec.le_refl _⟩ p
  | _ => exact pure _

/-- It can be given up. -/
theorem giveUp_flawless (hz : c.Sized) (hs : c.Sound) (p : Pid) :
    (giveUp p c).Keeps Flawless := by
  cases c with
  | time hart s => exact clearTime_flawless hz.1 hz.2 (hs s rfl).2
  | pmp r =>
    rw [giveUp]
    split
    · next hl => exact freeRegister_flawless p (hz hl)
    · exact pure _
  | socket k => exact clearChannel_flawless hz p
  | _ => exact pure _

/-- It can be handed over. -/
theorem handOver_flawless (hz : c.Sized) (hs : c.Sound) (p q : Pid) :
    (handOver p q c).Keeps Flawless := by
  cases c with
  | time hart s => exact bind (takeUp_flawless hz hs q) fun _ => pure _
  | pmp r =>
    rw [handOver]
    split
    · next hl => exact bind (freeRegister_flawless p (hz hl)) fun _ => pure _
    · exact pure _
  | socket k => exact bind (clearChannel_flawless hz p) fun _ => pure _
  | _ => exact pure _

/-! ## Deeds -/

/-- A move from an occupied slot to a vacant one. -/
theorem relocate_flawless (hs : m.table.get source ≠ .null) (ht : m.table.get target = .null)
    (hz : c.Sized) (hc : c.Sound) : Flawless m ((relocate source target c).exec m).2 := by
  have hf := handOver_flawless hz hc source.owner target.owner m
  have hg := (handOver_gaveUp source.owner target.owner c (m := m)).table
  unfold relocate
  split
  · simp [Flawless, Capability.isNull_eq_false_iff, hs, ht]
  · simpa [Flawless, Capability.isNull_eq_false_iff, hs, ht, hg] using hf

theorem discard_flawless (hm : m.table.Strung) (hz : c.Sized) (hc : c.Sound) :
    Flawless m ((discardCapability s c).exec m).2 :=
  trans_of Flawless (vacate_flawless hm) (giveUp_flawless hz hc s.owner _)

/-- A derivation into a vacant slot. -/
theorem bear_flawless (hl : m.table.Lineal) (hd : (m.table.get source).Derivation c)
    (ht : m.table.get target = .null) (hz : c.Sized) :
    Flawless m ((bear source target (m.table.get source) c).exec m).2 := by
  have hf := takeUp_flawless hz hd.sound_child target.owner m
  have hg := (takeUp_timing target.owner c (m := m)).table
  obtain ⟨_, hs, hv⟩ := hl.ready_derive ht hd
  rw [Table.get_set_self] at hs
  simpa [Flawless, Capability.isNull_eq_false_iff, bear, setCapability_exec, hg, hd.ne_null.1, hs,
    hv] using hf

theorem install_flawless {r : Region} (hs : m.table.get s = .pmp r) (k : RegionIndex) :
    Flawless m ((install s r k).exec m).2 := by
  simp [Flawless, Capability.isNull_eq_false_iff, install, setCapability_exec, hs]

/-- A region that is loaded sits in a register that exists. -/
theorem uninstall_flawless {r : Region} (hs : m.table.get s = .pmp r)
    (hz : r.slot.toNat < regionCount) : Flawless m ((uninstall s r).exec m).2 := by
  have hf := freeRegister_flawless s.owner hz m
  obtain ⟨_, he⟩ := freeRegister_exec (m := m) s.owner r.slot
  rw [he] at hf
  simpa [Flawless, Capability.isNull_eq_false_iff, uninstall, setCapability_exec, he, hs] using hf

end Machine

/-- A deed meets no fault on a table that is lineal and sized. -/
theorem Deed.flawless (hd : Deed m m') (hl : m.table.Lineal) (hz : m.table.Sized) :
    Flawless m m' := by
  cases hd with
  | move hs ht => exact Machine.relocate_flawless hs ht (hz _) (hl.sound _)
  | delete => exact Machine.discard_flawless hl.strung (hz _) (hl.sound _)
  | derive hd ht => exact Machine.bear_flawless hl hd ht (hd.sized (hz _))
  | load hs => exact Machine.install_flawless hs _
  | @unload s r hs hr =>
    have hslot := hz s
    rw [hs] at hslot
    exact Machine.uninstall_flawless hs (hslot hr)

/-! ## Revocation -/

/-- What the kernel relies on when it edits the capability table. -/
structure Machine.Regular (m : Machine) : Prop where
  lineal : m.table.Lineal
  sized : m.table.Sized

theorem Machine.Regular.congr (hm : m.Regular) (ht : m'.table = m.table) : m'.Regular :=
  ⟨by rw [ht]; exact hm.lineal, by rw [ht]; exact hm.sized⟩

theorem Machine.Regular.edit (hm : m.Regular) (he : m.table.Edit m'.table) : m'.Regular :=
  ⟨he.lineal hm.lineal, he.sized hm.lineal hm.sized⟩

namespace Machine

/-- The turns of a child are given back to an owner that exists. -/
theorem reclaim_flawless {child : Capability} (hs : m.table.get s ≠ .null) (hn : p ≠ .null)
    (hp : p.Sized ∧ p.Sound) (hc : child.Sized ∧ child.Sound) :
    Flawless m ((reclaim s p d child).exec m).2 := by
  have hafter : p.afterReclaiming child ≠ .null :=
    Capability.ne_null_of_outline (Capability.outline_afterReclaiming _ _).symm hn
  -- whatever comes first leaves the table alone
  have hset : ∀ m₁ : Machine, m₁.table = m.table → Flawless m m₁ →
      Flawless m ((setCapability s (p.afterReclaiming child)).exec m₁).2 := by
    intro m₁ ht hf
    rw [← ht] at hs
    exact trans_of Flawless hf (setCapability_flawless hs hafter)
  unfold reclaim
  split
  · next hart r _ t =>
    dsimp only
    split
    · next hlt =>
      refine hset _ (assignTime_timing ..).table (assignTime_flawless hp.1.1 hp.1.2 ?_ _ m)
      exact ⟨BitVec.le_of_lt hlt, (hp.2 r rfl).2⟩
    · exact hset m rfl rfl
  · exact hset m rfl rfl
  · exact hset m rfl rfl
  · exact hset m rfl rfl
  · exact hset _ (giveUp_gaveUp ..).table (giveUp_flawless hc.1 hc.2 _ m)

/-- The next one in the line is there, and so is the parent. -/
theorem takeBack_flawless (hm : m.Regular) (hn : m.table.next s = some d) :
    Flawless m ((takeBack s d).exec m).2 := by
  have hsd : d ≠ s := fun he => hm.lineal.strung.next_ne_self s (he ▸ hn)
  have hs : m.table.get s ≠ .null := (hm.lineal.strung.occupied_of_next hn).1
  have hs' : ((vacate d).exec m).2.table.get s ≠ .null := by
    rw [vacate_exec]
    show (m.table.unlink d).get s ≠ .null
    rwa [Table.get_unlink, if_neg hsd]
  have hvacate : Flawless m ((vacate d).exec m).2 := vacate_flawless hm.lineal.strung
  exact trans_of Flawless hvacate
    (reclaim_flawless hs' hs ⟨hm.sized s, hm.lineal.sound s⟩ ⟨hm.sized d, hm.lineal.sound d⟩)

/-- The rest of a range ends where the range does. -/
theorem restore_flawless (hm : m.Regular) (hs : m.table.get s ≠ .null) :
    Flawless m ((restore s).exec m).2 := by
  have hsound := hm.lineal.sound s
  have hsized := hm.sized s
  have hrestored : (m.table.get s).restored ≠ .null :=
    Capability.ne_null_of_outline (Capability.outline_restored _).symm hs
  have hset : ∀ m₁ : Machine, m₁.table = m.table → Flawless m m₁ →
      Flawless m ((setCapability s (m.table.get s).restored).exec m₁).2 := by
    intro m₁ ht hf
    rw [← ht] at hs
    exact trans_of Flawless hf (setCapability_flawless hs hrestored)
  unfold restore
  rw [Action.exec_bind, capability_exec]
  dsimp only
  split
  · next hart r hc =>
    rw [hc] at hsound hsized
    split
    · next hlt => -- the rest of a range of time is given back
      rw [Action.exec_bind]
      refine hset _ (assignTime_timing ..).table (assignTime_flawless hsized.1 hsized.2 ?_ _ m)
      exact ⟨BitVec.le_of_lt hlt, (hsound r rfl).2⟩
    · exact hset m rfl rfl
  · exact hset m rfl rfl

end Machine

/-- Each capability that is taken back leaves the machine regular for the next. -/
theorem Takes.flawless {ds : List Slot} (ht : Takes s ds m m') (hm : m.Regular) :
    Flawless m m' ∧ m'.Regular := by
  induction ht with
  | nil => exact ⟨rfl, hm⟩
  | @cons d ds m m' b hn hr _ ih =>
    have hstep : (((Machine.takeBack s d).exec m).2.onBoard b).Regular := by
      refine hm.edit ?_
      rw [Takes.table_step]
      exact .takeBack hn hr
    obtain ⟨hf, hm'⟩ := ih hstep
    exact ⟨trans_of Flawless (Machine.takeBack_flawless hm hn) hf, hm'⟩

/-- A revocation meets no fault: what it takes back is in the line. -/
theorem Machine.revokeCapability_flawless (hm : m.Regular) (h : Hart) (s : Slot) :
    Flawless m ((revokeCapability h s).exec m).2 := by
  -- refused, completed, or stopped after some descendants
  obtain ⟨_, he⟩ | ⟨hs, taken, rest, m₁, hd, ht, ⟨rfl, he⟩ | he⟩ :=
    revokeCapability_cases hm.lineal h s
  · rw [he]
    exact refl_of Flawless m
  · obtain ⟨hf, hm₁⟩ := ht.flawless hm
    have hready := ht.ready_restore hm.lineal hs (by rw [hd, List.append_nil])
    rw [he]
    exact trans_of Flawless hf (restore_flawless hm₁ hready.1)
  · rw [he]
    exact trans_of Flawless (ht.flawless hm).1 (note_flawless _ m₁)

/-! ## Messages -/

namespace Machine

/-- A process that is given back was held. -/
theorem release_flawless (hp : m.Holds pid) : Flawless m ((release pid).exec m).2 :=
  trans_of Flawless (expect_flawless .hold hp m) (modifyProcess_flawless pid .release _)

theorem await_flawless {k : Socket} {b : Slot} (hk : k.chan.toNat < channelCount)
    (hp : m.Holds pid) : Flawless m ((await k pid b).exec m).2 := by
  rw [Holds] at hp
  simp [Flawless, await, hk, hp]

theorem awaitClient_flawless {k : Socket} {b : Slot} (hk : k.chan.toNat < channelCount)
    (hp : m.Holds pid) : Flawless m ((awaitClient k pid b).exec m).2 := by
  refine Action.Keeps.bind_at (await_flawless hk hp) fun _ => ?_
  exact .bind (modifyProcess_flawless _ _) fun _ => note_flawless _

/-- A client that begins to wait is held, and its channel exists. -/
theorem awaitAnswer_flawless {k : Socket} {b : Slot} (hk : k.chan.toNat < channelCount)
    (hp : m.Holds pid) (lent : Option Pid) :
    Flawless m ((awaitAnswer k pid b lent).exec m).2 := by
  refine Action.Keeps.bind_at (await_flawless hk hp) fun _ => ?_
  split
  · exact modifyProcess_flawless _ _
  · exact .pure _

theorem dropAnswer_flawless {msg : Message} {b : Slot} (hm : m.Regular) :
    Flawless m ((dropAnswer msg b).exec m).2 :=
  dropAnswer_at fun _ _ =>
    discard_flawless hm.lineal.strung (hm.sized b) (hm.lineal.sound b)

/-- The freight was checked when the message was prepared, and the receiver that is given back was
taken before. -/
theorem deliver_flawless {d : Delivery} (hd : Prepared h d m) (hm : m.Regular) :
    Flawless m ((deliver d).exec m).2 := by
  -- the receiver is held from the beginning, so that it can be given back
  have htaken : ((setProcess d.receiver.pid d.taken).exec m).2.Holds d.receiver.pid := by
    refine holds_put.2 ?_
    rw [if_pos rfl, (Process.receive?_status hd.taken).2]
    rfl
  unfold deliver
  rw [Action.exec_bind]
  refine branch_leads (P := fun m₁ => Flawless m m₁ ∧ m₁.Holds d.receiver.pid)
    (Q := fun _ => Flawless m) ?_ ?_ ?_
  · intro hc
    obtain ⟨hf, hn, hv⟩ := hd.freight hc
    have hz := hm.sized d.buffer
    have hs := hm.lineal.sound d.buffer
    rw [← hf] at hz hs
    rw [hf] at hn
    refine ⟨relocate_flawless (m := ((setProcess d.receiver.pid d.taken).exec m).2) hn hv hz hs, ?_⟩
    rw [Holds, (relocate_clerical _ _ _ _).settled.calm]
    exact htaken
  · exact fun _ => ⟨rfl, htaken⟩
  · rintro c m₁ ⟨hf, hp⟩
    show Flawless m ((hand d c).exec m₁).2
    rw [hand, Action.exec_bind, Action.exec_bind, Action.exec_bind]
    refine trans_of Flawless hf ?_
    split
    · rfl
    · refine release_flawless (holds_put.2 ?_)
      rw [if_pos rfl]
      exact hp

/-- An answer that was prepared is handed over, and any other is dropped. -/
theorem Answers.flawless {msg : Message} {n : Next} (ha : Answers h s msg m n m')
    (hm : m.Regular) : Flawless m m' := by
  cases ha with
  | deliver hs =>
    have hm₁ := hm.congr (congrArg Kernel.table hs.aside.kernel)
    exact trans_of Flawless (hs.aside.faults hm.sized) (deliver_flawless hs.prepared hm₁)
  | drop h₁ =>
    have hm₁ := hm.congr (congrArg Kernel.table h₁.kernel)
    exact trans_of Flawless (h₁.faults hm.sized) (dropAnswer_flawless hm₁)

end Machine

/-! ## Operations -/

/-- The effect of an operation comes without a fault, if whoever waits at its end is held. -/
theorem Operation.Effect.flawless {op : Operation} (he : op.Effect h m m') (hm : m.Regular)
    (hp : ∀ s, op.WaitsAt s → m.Holds s.owner) : Flawless m m' := by
  have deed : ∀ {m'}, Deed m m' → Flawless m m' := fun hd => hd.flawless hm.lineal hm.sized
  have chan : ∀ {s k}, m.table.get s = .socket k → k.chan.toNat < channelCount := by
    intro s k hk
    have hs := hm.sized s
    rwa [hk] at hs
  induction he with
  | move hs ht => exact deed (.move hs ht)
  | delete hs => exact deed (.delete hs)
  | derive hd ht => exact deed (.derive hd ht)
  | revoke => exact Machine.revokeCapability_flawless hm h _
  | load hs hl hf => exact deed (.load hs hl hf)
  | unload hs hl => exact deed (.unload hs hl)
  | suspend | resume | yield | write => rfl
  | moveOf _ _ _ ih => exact ih fun _ hw => hw.elim
  | loadOf _ _ ih => exact ih fun _ hw => hw.elim
  | unloadOf _ _ ih => exact ih fun _ hw => hw.elim
  | send hs => exact Machine.Answers.flawless (.deliver hs) hm
  | reply _ ih => exact ih fun _ hw => hw.elim
  | @receive s b k m₁ h₁ hk =>
    have hheld : m₁.Holds s.owner := by
      rw [Machine.Holds, h₁.kernel]
      exact hp s rfl
    exact trans_of Flawless (h₁.faults hm.sized) (Machine.awaitClient_flawless (chan hk) hheld)
  | @call s msg d m₁ hs =>
    -- the sender is held still when its message has been delivered
    have hheld := ((Machine.Answers.hands (.deliver hs)).held s.owner).2 (.inl (hp s rfl))
    exact trans_of Flawless (Machine.Answers.flawless (.deliver hs) hm)
      (Machine.awaitAnswer_flawless (chan hs.socket) hheld _)
  | @replyReceive s b msg k n m₁ hk _ _ _ ha =>
    have hheld := (ha.hands.held s.owner).2 (.inl (hp s rfl))
    exact trans_of Flawless (ha.flawless hm) (Machine.awaitClient_flawless (chan hk) hheld)
  | exchange _ ih => exact ih hp
  | exchangeBack _ ih => exact ih hp

/-- On a regular machine no operation meets a fault, whether it is refused or not. -/
theorem Operation.perform_flawless (hm : m.Regular) (h : Hart) (op : Operation)
    (hp : ∀ s, op.WaitsAt s → m.Holds s.owner) : Flawless m ((op.perform h).exec m).2 := by
  rcases op.aside_or_effect h m with ha | ⟨he, _⟩
  · exact ha.faults hm.sized
  · exact he.flawless hm hp

end SepKernel
