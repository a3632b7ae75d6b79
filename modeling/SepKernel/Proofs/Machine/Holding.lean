import SepKernel.Proofs.Lineage.Precedence
import SepKernel.Proofs.Machine.Quiet

/-!
# What holding brings with it, field by field

What the actions that keep the kernel in step with its capabilities do to each table: which turns
they give and take, which protection registers they free, and whom they stop waiting. The turns of
a capability are what it stands for in the schedule.
-/

namespace SepKernel

variable {m : Machine} {p q : Pid} {h : Hart} {col : Fin 64} {c : Capability}

/-! ## Turns -/

/-- The turn of a process in the slots of a hart from `first` up to `last`, in a run up to `limit`,
on a hart and at a position of the frame. -/
def turnIn? (hart : BitVec 8) (first last limit : BitVec 16) (p : Pid) (h : Hart) (col : Fin 64) :
    Option Turn :=
  if hart.toNat = h.val ∧ first.toNat ≤ col.val ∧ col.val < last.toNat then
    some ⟨p, limit.toNat - col⟩
  else none

theorem turnIn?_of_le {hart : BitVec 8} {first last limit : BitVec 16} (hle : last ≤ first) :
    turnIn? hart first last limit p h col = none := by
  have hle : last.toNat ≤ first.toNat := hle
  rw [turnIn?, if_neg (by omega)]

/-- The turns of two adjacent ranges of slots are those of both together. -/
theorem turnIn?_join {hart : BitVec 8} {first mid last limit : BitVec 16} (hfm : first ≤ mid)
    (hml : mid ≤ last) :
    turnIn? hart first last limit p h col =
      (turnIn? hart first mid limit p h col).or (turnIn? hart mid last limit p h col) := by
  have hfm : first.toNat ≤ mid.toNat := hfm
  have hml : mid.toNat ≤ last.toNat := hml
  unfold turnIn?
  by_cases hc : col.val < mid.toNat
  · have hn : ¬ mid.toNat ≤ col.val := by omega
    have hl : col.val < last.toNat := by omega
    simp [hc, hn, hl]
  · have hf : first.toNat ≤ col.val := by omega
    simp [hc, hf, Nat.le_of_not_lt hc]

/-- The turn that a capability of a process stands for, on a hart and at a position of the frame. -/
def Capability.turn? (c : Capability) (p : Pid) (h : Hart) (col : Fin 64) : Option Turn :=
  match c with
  | .time hart s => turnIn? hart s.mark s.limit s.limit p h col
  | _ => none

def Capability.silence (c : Capability) (p : Pid) (g : Registry) : Registry :=
  match c with
  | .socket s => g.clear s p
  | _ => g

def Capability.unseat (c : Capability) (b : Bank) : Bank :=
  match c with
  | .pmp r => if r.loaded then (index? 8 r.slot.toNat).elim b b.unload else b
  | _ => b

def Capability.unloaded : Capability → Capability
  | .pmp r => .pmp (if r.loaded then { r with loaded := false, slot := 0 } else r)
  | c => c

/-- A region that has left its bank is the same region. -/
theorem Capability.reseats_unloaded (c : Capability) : c.Reseats c.unloaded := by
  cases c with
  | pmp r =>
    by_cases hl : r.loaded = true
    · simp only [unloaded, hl, if_true]
      exact .region rfl rfl (by simp)
    · simp only [unloaded, hl, if_false, Bool.false_eq_true]
      exact .same _
  | _ => exact .same _

namespace Machine

/-! ## Single steps -/

@[simp] theorem note_exec (e : Event) :
    (note e).exec m = ((), { m with journal := m.journal.push e }) := rfl

@[simp] theorem expect_exec (f : Fault) (b : Bool) :
    (expect f b).exec m = ((), { m with faults := if b then m.faults else f :: m.faults }) := by
  cases b <;> rfl

@[simp] theorem modifyTable_exec (f : Table → Table) :
    (modifyTable f).exec m = ((), { m with table := f m.table }) := rfl

@[simp] theorem modifyRegistry_exec (f : Registry → Registry) :
    (modifyRegistry f).exec m = ((), { m with registry := f m.registry }) := rfl

@[simp] theorem modifyBoard_exec (f : Board → Board) :
    (modifyBoard f).exec m = ((), { m with board := f m.board }) := rfl

@[simp] theorem modifyProcess_exec (f : Process → Process) :
    (modifyProcess p f).exec m =
      ((), { m with processes := m.processes.put p (f (m.processes.get p)) }) := rfl

@[simp] theorem capability_exec (s : Slot) :
    (capability s).exec m = (m.table.get s, m) := rfl

@[simp] theorem process_exec : (process p).exec m = (m.processes.get p, m) := rfl

theorem setCapability_exec (s : Slot) (c : Capability) :
    (setCapability s c).exec m =
      ((), { m with
        table := m.table.set s c
        faults :=
          if !(m.table.get s).isNull && !c.isNull then m.faults else .slot :: m.faults }) := by
  simp [setCapability]

theorem vacate_exec (s : Slot) :
    (vacate s).exec m =
      ((), { m with
        table := m.table.unlink s
        faults := if m.table.isConsistentAt s then m.faults else .slot :: m.faults }) := by
  simp [vacate]

/-! ## Time -/

section Time
variable (p : Pid) (hart : BitVec 8) (first last limit : BitVec 16)

/-- Turns are filled in if the hart exists. What is wrong about the range is a fault. -/
theorem assignTime_exec : ∃ faults,
    (assignTime p hart first last limit).exec m =
      ((), { m with
        schedule := (index? 4 hart.toNat).elim m.schedule fun h =>
          m.schedule.assign h p first.toNat last.toNat limit.toNat
        journal := m.journal.push
          (.assigned p limit.toNat hart.toNat first.toNat last.toNat)
        faults }) := by
  unfold assignTime
  cases index? 4 hart.toNat <;> exact ⟨_, by simp; rfl⟩

/-- Turns are taken out of the schedule, and a fault may be noted. -/
theorem clearTime_exec : ∃ faults,
    (clearTime hart first last).exec m =
      ((), { m with
        schedule := (index? 4 hart.toNat).elim m.schedule fun h =>
          m.schedule.clear h first.toNat last.toNat
        journal := m.journal.push (.cleared hart.toNat first.toNat last.toNat)
        faults }) := by
  unfold clearTime
  cases index? 4 hart.toNat <;> exact ⟨_, by simp; rfl⟩

/-- Nothing but the schedule, the journal and the faults. -/
structure Timing (m m' : Machine) : Prop where
  table : m'.table = m.table
  registry : m'.registry = m.registry
  processes : m'.processes = m.processes
  genealogy : m'.genealogy = m.genealogy

/-- Only the schedule changes. -/
theorem assignTime_timing : Timing m ((assignTime p hart first last limit).exec m).2 := by
  obtain ⟨_, he⟩ := assignTime_exec (m := m) p hart first last limit
  rw [he]
  exact ⟨rfl, rfl, rfl, (genealogy_push _ rfl).trans rfl⟩

theorem clearTime_timing : Timing m ((clearTime hart first last).exec m).2 := by
  obtain ⟨_, he⟩ := clearTime_exec (m := m) hart first last
  rw [he]
  exact ⟨rfl, rfl, rfl, (genealogy_push _ rfl).trans rfl⟩

/-- Within the range, the turns are those of the process, each up to the end of the range. -/
theorem assignTime_schedule :
    ((assignTime p hart first last limit).exec m).2.schedule.get h col =
      (turnIn? hart first last limit p h col).or (m.schedule.get h col) := by
  obtain ⟨_, he⟩ := assignTime_exec (m := m) p hart first last limit
  rw [he, turnIn?]
  cases hi : index? 4 hart.toNat with
  | none =>
    have hh : hart.toNat ≠ h.val := by
      have := index?_eq_none_iff.1 hi
      omega
    simp [hh]
  | some k => -- the harts that exist are the numbers below four
    have hk : hart.toNat = h.val ↔ k = h := by
      rw [← index?_eq_some_iff.1 hi, Fin.ext_iff]
    simp only [Option.elim_some, Schedule.assign, Schedule.get_fill, hk]
    split <;> rfl

/-- Within the range, there are no turns any more. -/
theorem clearTime_schedule :
    ((clearTime hart first last).exec m).2.schedule.get h col =
      if (turnIn? hart first last limit p h col).isSome then none else m.schedule.get h col := by
  obtain ⟨_, he⟩ := clearTime_exec (m := m) hart first last
  rw [he, turnIn?]
  -- a hart that does not exist has no turns
  cases hi : index? 4 hart.toNat with
  | none =>
    have hh : hart.toNat ≠ h.val := by
      have := index?_eq_none_iff.1 hi
      omega
    simp [hh]
  | some k =>
    have hk : hart.toNat = h.val ↔ k = h := by
      rw [← index?_eq_some_iff.1 hi, Fin.ext_iff]
    simp only [Option.elim_some, Schedule.clear, Schedule.get_fill, hk]
    split <;> rfl

end Time

/-! ## Regions and sockets -/

/-- Freeing a register changes that register. -/
theorem freeRegister_exec (p : Pid) (slot : BitVec 8) : ∃ faults,
    (freeRegister p slot).exec m =
      ((), { m with
        processes := m.processes.put p { m.processes.get p with
          bank := (index? 8 slot.toNat).elim (m.processes.get p).bank
            (m.processes.get p).bank.unload }
        faults }) := by
  unfold freeRegister
  cases index? 8 slot.toNat with
  | none =>
    have hput := m.processes.put_get p
    refine ⟨.region :: m.faults, ?_⟩
    simp [hput]
  | some k => exact ⟨_, rfl⟩

theorem clearChannel_exec (s : Socket) (p : Pid) : ∃ faults,
    (clearChannel s p).exec m =
      ((), { m with registry := m.registry.clear s p, faults }) :=
  ⟨_, by simp [clearChannel]; rfl⟩

/-! ## Capabilities of any kind -/

structure GaveUp (c : Capability) (p : Pid) (m m' : Machine) : Prop where
  table : m'.table = m.table
  genealogy : m'.genealogy = m.genealogy
  registry : m'.registry = c.silence p m.registry
  bank : ∀ k, (m'.processes.get k).bank =
    if p = k then c.unseat (m.processes.get p).bank else (m.processes.get k).bank

/-- A capability that brings neither region nor socket with it leaves no trace of itself. -/
theorem GaveUp.of_timing {m' : Machine} (ht : Timing m m')
    (hr : c.silence p m.registry = m.registry) (hb : ∀ b, c.unseat b = b) :
    GaveUp c p m m' := by
  refine ⟨ht.table, ht.genealogy, ht.registry.trans hr.symm, ?_⟩
  intro k
  rw [ht.processes, hb]
  split
  · next hk => rw [hk]
  · rfl

theorem Timing.rfl : Timing m m := ⟨Eq.refl _, Eq.refl _, Eq.refl _, Eq.refl _⟩

theorem takeUp_timing (p : Pid) (c : Capability) : Timing m ((takeUp p c).exec m).2 := by
  unfold takeUp
  split
  · exact assignTime_timing ..
  · exact .rfl

/-- The turns of a capability are filled in when it is taken up. -/
theorem takeUp_schedule (p : Pid) (c : Capability) :
    ((takeUp p c).exec m).2.schedule.get h col =
      (c.turn? p h col).or (m.schedule.get h col) := by
  cases c with
  | time hart s => exact assignTime_schedule ..
  | _ => rfl

/-- What giving a capability up does besides: its region leaves the bank, and its waiter the
registry. -/
theorem giveUp_gaveUp (p : Pid) (c : Capability) : GaveUp c p m ((giveUp p c).exec m).2 := by
  cases c with
  | time hart s => exact .of_timing (clearTime_timing ..) rfl fun _ => rfl
  | pmp r =>
    rw [giveUp]
    split
    · next hl =>
      obtain ⟨_, he⟩ := freeRegister_exec (m := m) p r.slot
      rw [he]
      refine ⟨rfl, rfl, rfl, ?_⟩
      intro k
      simp only [Capability.unseat, hl, if_true, Processes.get_put]
      split <;> rfl
    · next hl => -- a region that is not loaded sits in no register
      exact .of_timing .rfl rfl fun b => by simp [Capability.unseat, hl]
  | socket s =>
    obtain ⟨_, he⟩ := clearChannel_exec (m := m) s p
    rw [giveUp, he]
    refine ⟨rfl, rfl, rfl, ?_⟩
    intro k
    simp only [Capability.unseat]
    split
    · next hk => rw [hk]
    · rfl
  | _ => exact .of_timing .rfl rfl fun _ => rfl

/-- Its turns are cleared. -/
theorem giveUp_schedule (p : Pid) (c : Capability) :
    ((giveUp p c).exec m).2.schedule.get h col =
      if (c.turn? p h col).isSome then none else m.schedule.get h col := by
  -- only time has turns
  cases c with
  | time hart s => exact clearTime_schedule ..
  | pmp r =>
    rw [giveUp]
    split
    · obtain ⟨_, he⟩ := freeRegister_exec (m := m) p r.slot
      rw [he]
      rfl
    · rfl
  | socket s =>
    obtain ⟨_, he⟩ := clearChannel_exec (m := m) s p
    rw [giveUp, he]
    rfl
  | _ => rfl

/-- What arrives is not loaded. -/
theorem handOver_answer (p q : Pid) (c : Capability) :
    ((handOver p q c).exec m).1 = c.unloaded := by
  cases c with
  | pmp r =>
    rw [handOver]
    cases hl : r.loaded <;> simp [Capability.unloaded, hl]
  | _ => rfl

/-- The old owner gives up what it gives away. -/
theorem handOver_gaveUp (p q : Pid) (c : Capability) :
    GaveUp c p m ((handOver p q c).exec m).2 := by
  -- what is handed over is given up, but for time, which is assigned anew
  cases c with
  | time hart s => exact .of_timing (assignTime_timing ..) rfl fun _ => rfl
  | pmp r =>
    have hg := giveUp_gaveUp (m := m) p (.pmp r)
    rw [giveUp] at hg
    rw [handOver]
    split
    · next hl => rwa [if_pos hl] at hg
    · next hl => rwa [if_neg hl] at hg
  | socket s => exact giveUp_gaveUp (m := m) p (.socket s)
  | _ => exact .of_timing .rfl rfl fun _ => rfl

/-- Its turns become those of the new owner. -/
theorem handOver_schedule (p q : Pid) (c : Capability) :
    ((handOver p q c).exec m).2.schedule.get h col =
      (c.turn? q h col).or (m.schedule.get h col) := by
  cases c with
  | time hart s => exact takeUp_schedule q (.time hart s)
  | pmp r => -- regions have no turns
    have hg : ((giveUp p (.pmp r)).exec m).2.schedule.get h col = m.schedule.get h col :=
      giveUp_schedule p (.pmp r)
    rw [giveUp] at hg
    rw [handOver]
    split
    · next hl => rwa [if_pos hl] at hg
    · rfl
  | socket s => exact giveUp_schedule p (.socket s)
  | _ => rfl

end Machine
end SepKernel
