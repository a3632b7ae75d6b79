import SepKernel.Proofs.Machine.Operations

/-!
# Work on capabilities is calm

Whatever the kernel does to capabilities, it leaves every process alone but for its protection
registers: it frees and loads these, and forgets who waits on a channel, but takes no process, gives
none back, stops none and lets none wait, and writes no register. Nor does it look at the clock or a
timer, unless it is a revocation, which asks whether the timer interrupt is pending. Other work is
*calm* if it leaves the status of every process alone.
-/

namespace SepKernel

variable {m m' : Machine}

/-- Every process stays as it is, but for its protection registers. -/
def Settled (m m' : Machine) : Prop :=
  ∀ p, ∃ b, m'.processes.get p = { m.processes.get p with bank := b }

instance : IsPreorder Machine Settled where
  refl m p := ⟨(m.processes.get p).bank, rfl⟩
  trans _ _ _ h h' p := by
    obtain ⟨_, hb⟩ := h p
    obtain ⟨b, hb'⟩ := h' p
    exact ⟨b, by rw [hb', hb]⟩

/-- In addition, the board is left alone. -/
structure Clerical (m m' : Machine) : Prop where
  settled : Settled m m'
  board : m'.board = m.board

instance : IsPreorder Machine Clerical where
  refl m := ⟨refl_of Settled m, rfl⟩
  trans _ _ _ h h' := ⟨trans_of Settled h.settled h'.settled, h'.board.trans h.board⟩

def Calm (m m' : Machine) : Prop :=
  ∀ p, (m'.processes.get p).status = (m.processes.get p).status

instance : IsPreorder Machine Calm where
  refl _ _ := rfl
  trans _ _ _ h h' p := (h' p).trans (h p)

theorem Settled.of_processes (h : m'.processes = m.processes) : Settled m m' :=
  fun p => ⟨(m.processes.get p).bank, by rw [h]⟩

/-- Banks are no statuses. -/
theorem Settled.calm (h : Settled m m') : Calm m m' := by
  intro p
  obtain ⟨_, hb⟩ := h p
  rw [hb]

theorem Settled.deadline (h : Settled m m') (p : Pid) :
    (m'.processes.get p).deadline = (m.processes.get p).deadline := by
  obtain ⟨_, hb⟩ := h p
  rw [hb]

theorem Clerical.of_processes (h : m'.processes = m.processes) (hb : m'.board = m.board) :
    Clerical m m' :=
  ⟨.of_processes h, hb⟩

theorem Aside.clerical (h : Aside m m') : Clerical m m' :=
  .of_processes (by rw [h.kernel]) h.board

theorem Aside.settled (h : Aside m m') : Settled m m' := h.clerical.settled

theorem Aside.calm (h : Aside m m') : Calm m m' := h.settled.calm

theorem Calm.of_processes (h : m'.processes = m.processes) : Calm m m' :=
  (Settled.of_processes h).calm

namespace Machine

open Action.Keeps

/-- A change of a process that keeps its status. -/
theorem modifyProcess_calm (p : Pid) {f : Process → Process} (h : ∀ q, (f q).status = q.status) :
    (modifyProcess p f).Keeps Calm := by
  refine modify fun m k => ?_
  show (Processes.get _ k).status = _
  rw [Processes.get_put]
  split
  · next hk => rw [h, hk]
  · rfl

/-- A change of the bank of a process. -/
theorem modifyBank_clerical (p : Pid) (f : Bank → Bank) :
    (modifyProcess p fun q => { q with bank := f q.bank }).Keeps Clerical := by
  refine modify fun m => ⟨fun k => ?_, rfl⟩
  by_cases hk : p = k
  · subst hk
    exact ⟨f (m.processes.get p).bank, Processes.get_put_self ..⟩
  · exact ⟨(m.processes.get k).bank, Processes.get_put_of_ne _ _ hk⟩

theorem modifyTable_clerical (f : Table → Table) : (modifyTable f).Keeps Clerical :=
  modify fun _ => .of_processes rfl rfl

theorem modifyRegistry_clerical (f : Registry → Registry) : (modifyRegistry f).Keeps Clerical :=
  modify fun _ => .of_processes rfl rfl

theorem modifySchedule_clerical (f : Schedule → Schedule) : (modifySchedule f).Keeps Clerical :=
  modify fun _ => .of_processes rfl rfl

theorem note_clerical (e : Event) : (note e).Keeps Clerical :=
  modify fun _ => .of_processes rfl rfl

theorem expect_clerical (f : Fault) (b : Bool) : (expect f b).Keeps Clerical :=
  expect_keeps (fun _ _ => .of_processes rfl rfl) f b

theorem capability_clerical (s : Slot) : (capability s).Keeps Clerical :=
  (capability_aside s).mono Aside.clerical

theorem modifyRegistry_calm (f : Registry → Registry) : (modifyRegistry f).Keeps Calm :=
  (modifyRegistry_clerical f).mono fun hc => hc.settled.calm

theorem modifyBoard_calm (f : Board → Board) : (modifyBoard f).Keeps Calm :=
  modify fun _ => .of_processes rfl

theorem note_calm (e : Event) : (note e).Keeps Calm :=
  (note_clerical e).mono fun hc => hc.settled.calm

theorem expect_calm (f : Fault) (b : Bool) : (expect f b).Keeps Calm :=
  (expect_clerical f b).mono fun hc => hc.settled.calm

theorem lock_calm (h : Hart) : (lock h).Keeps Calm :=
  lock_keeps (modifyBoard_calm _)

theorem awaitForever_calm (p : Pid) : (awaitForever p).Keeps Calm :=
  modifyProcess_calm p fun _ => rfl

theorem conclude_calm (p : Pid) (number : Word) (r : Except Error Outcome) :
    (conclude p number r).Keeps Calm :=
  conclude_keeps Aside.calm (fun hf => modifyProcess_calm p fun q => by rw [hf]) number r

/-! ## What comes with a capability -/

/-- Filling in turns changes the schedule. -/
theorem assignTime_clerical (p : Pid) (hart : BitVec 8) (first last limit : BitVec 16) :
    (assignTime p hart first last limit).Keeps Clerical := by
  refine bind (note_clerical _) fun _ => bind (expect_clerical _ _) fun _ => ?_
  split
  · exact modifySchedule_clerical _
  · exact expect_clerical _ _

/-- So does clearing them. -/
theorem clearTime_clerical (hart : BitVec 8) (first last : BitVec 16) :
    (clearTime hart first last).Keeps Clerical := by
  refine bind (note_clerical _) fun _ => bind (expect_clerical _ _) fun _ => ?_
  split
  · exact modifySchedule_clerical _
  · exact expect_clerical _ _

/-- Freeing a register changes a bank. -/
theorem freeRegister_clerical (p : Pid) (slot : BitVec 8) :
    (freeRegister p slot).Keeps Clerical := by
  unfold freeRegister
  split
  · exact modifyBank_clerical p fun b => b.unload _
  · exact expect_clerical _ _

theorem clearChannel_clerical (k : Socket) (p : Pid) : (clearChannel k p).Keeps Clerical :=
  bind (expect_clerical _ _) fun _ => modifyRegistry_clerical _

/-- Whatever a capability brings about for its new owner is clerical. -/
theorem takeUp_clerical (p : Pid) (c : Capability) : (takeUp p c).Keeps Clerical := by
  unfold takeUp
  split
  · exact assignTime_clerical _ _ _ _ _
  · exact pure _

/-- So is what it takes along when it goes. -/
theorem giveUp_clerical (p : Pid) (c : Capability) : (giveUp p c).Keeps Clerical := by
  unfold giveUp
  split
  · exact clearTime_clerical _ _ _
  · split
    · exact freeRegister_clerical _ _
    · exact pure _
  · exact clearChannel_clerical _ _
  · exact pure _

/-- The same for a capability that changes hands. -/
theorem handOver_clerical (p q : Pid) (c : Capability) : (handOver p q c).Keeps Clerical := by
  unfold handOver
  split
  · exact bind (assignTime_clerical _ _ _ _ _) fun _ => pure _
  · split
    · exact bind (freeRegister_clerical _ _) fun _ => pure _
    · exact pure _
  · exact bind (clearChannel_clerical _ _) fun _ => pure _
  · exact pure _

/-! ## Deeds -/

theorem setCapability_clerical (s : Slot) (c : Capability) : (setCapability s c).Keeps Clerical :=
  bind (capability_clerical s) fun _ =>
    bind (expect_clerical _ _) fun _ => modifyTable_clerical _

theorem vacate_clerical (s : Slot) : (vacate s).Keeps Clerical :=
  bind get fun _ => bind (expect_clerical _ _) fun _ => modifyTable_clerical _

/-- A move is clerical. It may take a region out of a bank, and somebody out of the registry. -/
theorem relocate_clerical (source target : Slot) (c : Capability) :
    (relocate source target c).Keeps Clerical := by
  have hmove : ∀ c : Capability, Action.Keeps Clerical do
      expect .slot (!(← capability source).isNull && (← capability target).isNull)
      modifyTable (·.relink source target c)
      note (.moved source target c)
      return c := fun c =>
    bind (capability_clerical _) fun _ => bind (capability_clerical _) fun _ =>
      bind (expect_clerical _ _) fun _ => bind (modifyTable_clerical _) fun _ =>
        bind (note_clerical _) fun _ => pure _
  intro m
  unfold relocate
  exact branch_at (fun _ => pure c m) (fun _ => handOver_clerical _ _ c m) hmove

theorem discardCapability_clerical (s : Slot) (c : Capability) :
    (discardCapability s c).Keeps Clerical :=
  bind (vacate_clerical s) fun _ => bind (giveUp_clerical _ c) fun _ => note_clerical _

theorem dropAnswer_clerical (msg : Message) (b : Slot) : (dropAnswer msg b).Keeps Clerical :=
  fun _ => dropAnswer_at fun _ _ => discardCapability_clerical _ _ _

/-- A derivation is clerical. -/
theorem bear_clerical (source target : Slot) (p c : Capability) :
    (bear source target p c).Keeps Clerical :=
  bind (takeUp_clerical _ c) fun _ => bind (setCapability_clerical _ _) fun _ =>
    bind (capability_clerical _) fun _ => bind (capability_clerical _) fun _ =>
      bind (expect_clerical _ _) fun _ => bind (modifyTable_clerical _) fun _ => note_clerical _

theorem uninstall_clerical (s : Slot) (r : Region) : (uninstall s r).Keeps Clerical :=
  bind (freeRegister_clerical _ _) fun _ =>
    bind (setCapability_clerical _ _) fun _ => note_clerical _

theorem install_clerical (s : Slot) (r : Region) (k : RegionIndex) :
    (install s r k).Keeps Clerical :=
  bind (modifyBank_clerical _ fun b => b.load k r.access (r.address.setWidth 64)) fun _ =>
    bind (setCapability_clerical _ _) fun _ => note_clerical _

end Machine

/-- All deeds are. -/
theorem Deed.clerical (hd : Deed m m') : Clerical m m' := by
  cases hd with
  | move => exact Machine.relocate_clerical _ _ _ m
  | delete => exact Machine.discardCapability_clerical _ _ m
  | derive => exact Machine.bear_clerical _ _ _ _ m
  | load => exact Machine.install_clerical _ _ _ m
  | unload => exact Machine.uninstall_clerical _ _ m

/-! ## Revocation -/

namespace Machine

open Action.Keeps

/-- The parent gets back what the child took. -/
theorem reclaim_clerical (s : Slot) (p : Capability) (d : Slot) (c : Capability) :
    (reclaim s p d c).Keeps Clerical := by
  have hset := setCapability_clerical s (p.afterReclaiming c)
  -- time is assigned to the parent again, and what is not a range is given up
  unfold reclaim
  split
  · dsimp only
    split
    · exact bind (assignTime_clerical _ _ _ _ _) fun _ => hset
    · exact hset
  · exact hset
  · exact hset
  · exact hset
  · exact bind (giveUp_clerical _ _) fun _ => hset

theorem takeBack_clerical (s d : Slot) : (takeBack s d).Keeps Clerical :=
  bind (capability_clerical s) fun _ => bind (capability_clerical d) fun _ =>
    bind (vacate_clerical d) fun _ => bind (reclaim_clerical _ _ _ _) fun _ => note_clerical _

/-- The parent gets back the rest. -/
theorem restore_clerical (s : Slot) : (restore s).Keeps Clerical := by
  have hset := fun c : Capability => setCapability_clerical s c.restored
  refine bind (capability_clerical s) fun c => ?_
  split
  · dsimp only
    split
    · exact bind (assignTime_clerical _ _ _ _ _) fun _ => hset _
    · exact hset _
  · exact hset _

/-- Taking descendants back asks the timer in between, so that it is no longer clerical. The
processes are settled still. -/
theorem takeAllBack_settled (h : Hart) (s : Slot) (ds : List Slot) :
    (takeAllBack h s ds).Keeps Settled := by
  induction ds with
  | nil => exact pure _
  | cons d ds ih =>
    refine bind ((takeBack_clerical s d).mono Clerical.settled) fun _ =>
      bind (fun _ => .of_processes rfl) fun pending => ?_
    cases pending with
    | true => exact pure _
    | false => exact ih

/-- Nor does a revocation change more of a process than its bank. -/
theorem revokeCapability_settled (h : Hart) (s : Slot) : (revokeCapability h s).Keeps Settled := by
  unfold revokeCapability
  refine .bind ((readCapability_aside s).mono Aside.settled) fun _ => .bind .get fun _ => ?_
  refine .bind (.lift (takeAllBack_settled h s _)) fun done => ?_
  split
  · exact .lift ((restore_clerical s).mono Clerical.settled)
  · exact .bind (.lift ((note_clerical _).mono Clerical.settled)) fun _ => .throw _

end Machine

end SepKernel
