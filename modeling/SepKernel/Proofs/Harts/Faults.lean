import SepKernel.Proofs.Harts.Running
import SepKernel.Proofs.Machine.Flawless
import SepKernel.Proofs.Machine.Refusal
import SepKernel.Proofs.Schedule.Length

/-!
# No faults

What a capability names comes from a register of some process, and the kernel uses it to index its
tables without another look. It also relies on how it uses its own tables: a slot to be filled is
vacant, a process to be given back is held, a run goes on until after the next decision. In a booted
system all of this holds at every step, and `Machine.faults` stays empty. There are three reasons.
The table is lineal, and names only what exists. A process is held exactly if it runs, so whoever
makes a call or is interrupted can be given back. And no turn is empty.
-/

namespace SepKernel

variable {m m₁ : Machine} {roots : List Capability} {c : Capability} {i : SlotIndex} {p : Pid}

/-! ## Booting -/

namespace Machine

open Action.Keeps

/-- A root is put into a vacant slot, and names what exists. -/
theorem installRoot_flawless (hb : Booting i m) (hc : c.isRoot = true) :
    Flawless m ((installRoot i c).exec m).2 := by
  -- booting fills the slots of the first process one after the other
  have hvacant : (m.table.get ⟨0, i⟩).isNull = true := by
    rw [hb.vacant i (Nat.le_refl _)]
    rfl
  have htake : (takeUp 0 c).Keeps Flawless :=
    takeUp_flawless (Capability.sized_of_isRoot hc) (Capability.sound_of_isRoot hc) 0
  have hinsert : (modifyTable (·.insertRoot ⟨0, i⟩ c)).Keeps Flawless := modify fun _ => rfl
  have hrest : ∀ m₁, Flawless m₁ ((do
      modifyTable (·.insertRoot ⟨0, i⟩ c); takeUp 0 c; note (.booted i c) : Action Unit).exec
        m₁).2 := bind hinsert fun _ => bind htake fun _ => note_flawless _
  exact trans_of Flawless (expect_flawless .slot hvacant m) (hrest _)

/-- Booting with roots that are accepted meets no fault. -/
theorem boot_flawless (hb : (boot roots).exec .initial = (.ok (), m)) : m.faults = [] := by
  obtain ⟨hlength, hroots, rfl⟩ := boot_exec hb
  have hinstalled : ((installRoots 0 roots).exec .initial).2.faults = [] := by
    refine installRoots_keeps (P := fun m => m.faults = []) (D := fun _ _ => True) ?_ hroots
      (List.pairwise_of_forall fun _ _ => trivial) (by omega) initial_booting
      (fun _ _ _ _ => trivial) rfl
    intro m m' i c hb hc _ hm hr
    rw [hr.made]
    exact (installRoot_flawless hb hc).trans hm
  -- the processes are reset after the roots were installed
  have hreset : resetProcesses.Keeps Flawless :=
    resetProcesses_keeps fun p => modifyProcess_flawless p _
  exact (bind hreset (fun _ => note_flawless _) _).trans hinstalled

end Machine

/-- What an operation relies on to meet no fault. -/
theorem Reachable.regular (hm : Reachable roots m) : m.Regular :=
  ⟨hm.lineal, hm.sized⟩

/-! ## Scheduling decisions -/

namespace Machine

open Action.Keeps

/-- A decision takes the overhead off a deadline that is later than the overhead. -/
theorem nextProcess_flawless (h : Hart) (hu : m.Unspent) :
    Flawless m ((nextProcess h).exec m).2 := by
  unfold nextProcess
  rw [Action.exec_bind, Action.exec_get]
  dsimp only
  split
  · next c hc =>
    -- a run ends late enough for the next decision
    have hd := decide_eq_true (hu.overheadTicks_le hc)
    exact bind (modifyProcess_flawless _ _) (fun _ => bind (note_flawless _) fun _ =>
      bind (expect_flawless _ hd) fun _ => bind (modifyBoard_flawless _) fun _ => pure _) m
  · exact bind (modifyBoard_flawless _) (fun _ => pure _) m

/-- Whoever is interrupted is held. -/
theorem handleTimer_flawless (h : Hart) (hp : m.Holds p) (hu : m.Unspent) :
    Flawless m ((handleTimer h p).exec m).2 :=
  trans_of Flawless (release_flawless hp)
    (nextProcess_flawless h ((release_hushed p m).toQuiet.unspent_iff.2 hu))

theorem handleTrap_flawless (p : Pid) (t : Trap) : (handleTrap p t).Keeps Flawless :=
  bind (note_flawless _) fun _ => bind (modifyProcess_flawless _ _) fun _ => pure _

/-! ## System calls -/

theorem lock_flawless (h : Hart) : (lock h).Keeps Flawless :=
  lock_keeps (modifyBoard_flawless _)

/-- A process that goes to sleep was held. -/
theorem performOwn_flawless (h : Hart) (hp : m.Holds p) (c : OwnCall) :
    Flawless m ((performOwn h p c).exec m).2 := by
  have hmodify : ∀ f m₁, Flawless m₁ ((modifyProcess p f).exec m₁).2 := modifyProcess_flawless p
  unfold performOwn
  split
  all_goals simp only [Action.exec_bind, Action.exec_pure]
  · rfl
  · rfl
  · rfl
  · rfl
  · exact hmodify _ m
  · rfl
  · exact hmodify _ m
  · have hsuccess := hmodify .reportSuccess m
    -- falling asleep gives up the hart
    have hheld : ((modifyProcess p .reportSuccess).exec m).2.Holds p :=
      holds_put.2 (by rw [if_pos rfl]; exact hp)
    split
    · simp only [Action.exec_bind, Action.exec_pure]
      exact trans_of Flawless (trans_of Flawless hsuccess (expect_flawless .hold hheld _))
        (hmodify _ _)
    · exact hsuccess

/-- Under the lock or not, an operation meets no fault. -/
theorem run_flawless (hm : m.Regular) (h : Hart) (op : Operation)
    (hp : ∀ s, op.WaitsAt s → m.Holds s.owner) : Flawless m ((op.run h).exec m).2 := by
  refine Attempt.Keeps.bind_from (lock_flawless h m) fun _ m₁ hl => ?_
  rcases lock_cases h m with hfree | hheld
  · rw [hl] at hfree
    cases hfree
    exact op.perform_flawless hm h hp
  · rw [hl] at hheld
    cases hheld

/-- A call meets no fault, whatever its process asks for. -/
theorem attemptCall_flawless (h : Hart) (hm : m.Regular) (hp : m.Holds p) (number : Word)
    (arguments : Vector Word 8) :
    Flawless m ((attemptCall h p number arguments).exec m).2 := by
  cases hd : Syscall.decode number arguments with
  | error e =>
    rw [attemptCall, hd]
    exact refl_of Flawless m
  | ok c =>
    rw [attemptCall_exec hd]
    have hnote := note_flawless (.called p c) m
    have hheld : ((note (.called p c)).exec m).2.Holds p := hp
    have hregular : ((note (.called p c)).exec m).2.Regular := hm.congr rfl
    generalize ((note (.called p c)).exec m).2 = m₁ at hnote hheld hregular ⊢
    refine trans_of Flawless hnote ?_
    cases c with
    | own c => exact performOwn_flawless h hheld c
    | shared c =>
      rw [perform_shared]
      -- the operations that wait are made for the caller
      refine run_flawless hregular h (c.operation p) fun s hs => ?_
      cases c <;> cases hs <;> exact hheld

/-- Telling a caller how its call ended checks nothing. -/
theorem conclude_flawless (p : Pid) (number : Word) (r : Except Error Outcome) :
    (conclude p number r).Keeps Flawless := by
  unfold conclude
  split
  · exact bind (modifyProcess_flawless _ _) fun _ => pure _
  · exact bind (modifyProcess_flawless _ _) fun _ => pure _
  · exact bind (modifyProcess_flawless _ _) fun _ => pure _
  · exact pure _
  · exact bind (modifyProcess_flawless _ _) fun _ => pure _
  · exact pure _
  · exact bind (modifyProcess_flawless _ _) fun _ => pure _
  · refine bind (process_flawless p) fun _ => ?_
    split
    · exact bind (modifyProcess_flawless _ _) fun _ => pure _
    · exact bind (note_flawless _) fun _ => bind (modifyProcess_flawless _ _) fun _ => pure _

/-- However a call ends, the process that is given back was held. -/
theorem finish_flawless (h : Hart) (number : Word) {r : Except Error Outcome} (hp : m.Holds p)
    (hr : Ended Outcome.taken (Outcome.waiting p) r m m₁) (hu : m₁.Unspent) :
    Flawless m₁ ((finish h p number r).exec m₁).2 := by
  -- nothing gives the caller back before this does
  have hheld : ((conclude p number r).exec m₁).2.Holds p := by
    rcases conclude_ends p number hr with ⟨_, hsteady⟩ | hhands
    · exact (hsteady.held p).2 (.inl hp)
    · exact (hhands.held p).2 (.inl hp)
  have hconclude := conclude_flawless p number r m₁
  have hunspent := (conclude_hushed p number r m₁).toQuiet.unspent_iff.2 hu
  unfold finish
  rw [Action.exec_bind]
  generalize (conclude p number r).exec m₁ = c at hheld hconclude hunspent ⊢
  obtain ⟨next, m₂⟩ := c
  refine trans_of Flawless hconclude ?_
  cases next with
  | none => exact handleTimer_flawless h hheld hunspent
  | some q =>
    dsimp only
    split
    · exact refl_of Flawless m₂
    · exact release_flawless hheld

/-- In a reachable machine, no call of a process that is held meets a fault. -/
theorem handleCall_flawless (h : Hart) (hm : Reachable roots m) (hp : m.Holds p) :
    Flawless m ((handleCall h p).exec m).2 := by
  have hunspent := (hm.step (.call h p)).unspent
  have hstepped : (m.stepped p).Holds p := holds_put.2 (by rw [if_pos rfl]; exact hp)
  rw [handleCall_exec] at hunspent ⊢
  have hended := respond_ended h p m
  have hrespond : Flawless m ((respond h p).exec m).2 := by
    rw [respond_exec]
    exact attemptCall_flawless (m := m.stepped p) h (hm.regular.congr rfl) hstepped _ _
  refine trans_of Flawless hrespond (finish_flawless h _ hp hended ?_)
  exact (finish_hushed h p _ _ _).toQuiet.unspent_iff.1 hunspent

end Machine

/-! ## Systems -/

namespace System

variable {s s' : System}

/-- In a reachable system, no step meets a fault: whoever acts runs, and so is held. -/
theorem Step.flawless (hstep : s.Step s') (hs : s.Reachable roots) :
    Flawless s.machine s'.machine := by
  have hm := hs.machine
  have hheld : ∀ {h p}, s.running h = some p → s.machine.Holds p :=
    fun {h p} hp => (hs.accounted.held p).2 ⟨h, hp⟩
  cases hstep with
  | dispatch h => exact Machine.nextProcess_flawless h hm.unspent
  | call h p hp => exact Machine.handleCall_flawless h hm (hheld hp)
  | trap h p t => exact Action.Keeps.map some (Machine.handleTrap_flawless p t) s.machine
  | timer h p hp => exact Machine.handleTimer_flawless h (hheld hp) hm.unspent
  | compute h p rs => exact Machine.modifyProcess_flawless p (fun q => { q with registers := rs }) _
  | board => exact rfl

/-- No fault is ever noted. -/
theorem Reachable.faults (hs : s.Reachable roots) : s.machine.faults = [] := by
  induction hs with
  | boot hb => exact Machine.boot_flawless hb
  | step hs hstep ih => exact (hstep.flawless hs).trans ih

end System

/-- In a booted system, whatever its processes ask for: all that the capabilities name exists; no
fault is ever noted; no turn is empty, or longer than the frame; and unless the clock is within a
frame of its end, the deadline of whom a hart takes for a turn is a word that leaves time for the
next decision. -/
theorem bounds_respected {s : System} (hs : s.Reachable roots) :
    (∀ x, (s.machine.table.get x).Sized) ∧ s.machine.faults = [] ∧
      (∀ h col u, s.machine.schedule.get h col = some u →
        0 < u.length ∧ u.length ≤ frameSlots) ∧
      ∀ ps h now patience c, s.machine.schedule.choose? ps h now patience = some c →
        (c.slot + frameSlots) * slotTicks < wordCount →
          overheadTicks ≤ c.process.deadline ∧ c.process.deadline < wordCount := by
  have hbounded := hs.machine.bounded
  refine ⟨hs.machine.sized, hs.faults, hbounded, fun ps h now patience c hc hclock => ?_⟩
  exact ⟨hs.machine.unspent.overheadTicks_le hc, (hbounded.deadline_le hc).trans_lt hclock⟩

/-- A process derives some time for itself, and then asks for time on a hart that does not exist. -/
theorem bounds_respected_greedy : ∃ (s : System) (c : Schedule.Choice),
    s.Reachable [.wholeTime 0 0 64, .wholeMonitor 0 8] ∧ s.running 0 = some 0 ∧
      s.machine.table.get ⟨0, 2⟩ = .wholeTime 0 0 16 ∧
      s.machine.faults = [] ∧
      s.machine.schedule.choose? ((Machine.boot [.wholeTime 0 0 64]).exec .initial).2.processes
        0 0 0 = some c ∧
      overheadTicks ≤ c.process.deadline ∧ c.process.deadline < wordCount := by
  let roots : List Capability := [.wholeTime 0 0 64, .wholeMonitor 0 8]
  obtain ⟨s₀, h₀⟩ : ∃ s₀ : System, s₀ =
    ⟨((Machine.boot roots).exec .initial).2, fun _ => none⟩ := ⟨_, rfl⟩
  -- hart 0 takes process 0, which makes two calls
  obtain ⟨s₁, h₁⟩ : ∃ s₁, s₁ = s₀.after 0 (Machine.nextProcess 0) := ⟨_, rfl⟩
  obtain ⟨s₂, h₂⟩ : ∃ s₂, s₂ = s₁.called 0 0
    [(.t0, 9), (.a0, 0), (.a1, 2), (.a2, (Capability.wholeTime 0 0 16).toWord)] := ⟨_, rfl⟩
  obtain ⟨s, he⟩ : ∃ s, s = s₂.called 0 0
    [(.t0, 9), (.a0, 0), (.a1, 3), (.a2, (Capability.wholeTime 200 0 60000).toWord)] := ⟨_, rfl⟩
  have hs₁ : s₁.Reachable roots := h₁ ▸ h₀ ▸ (System.Reachable.boot rfl).step (.dispatch 0 rfl)
  have hs₂ : s₂.Reachable roots := h₂ ▸ hs₁.called (by rw [h₁, h₀]; decide +kernel) _
  have hs : s.Reachable roots := he ▸ hs₂.called (by rw [h₂, h₁, h₀]; decide +kernel) _
  have hrun : s.running 0 = some 0 := by rw [he, h₂, h₁, h₀]; decide +kernel
  have hchild : s.machine.table.get ⟨0, 2⟩ = .wholeTime 0 0 16 := by
    rw [he, h₂, h₁, h₀]
    decide +kernel
  obtain ⟨ps, hps⟩ : ∃ ps, ps =
    ((Machine.boot [.wholeTime 0 0 64]).exec .initial).2.processes := ⟨_, rfl⟩
  have hslot : (s.machine.schedule.choose? ps 0 0 0).map (·.slot) = some 0 := by
    rw [hps, he, h₂, h₁, h₀]
    decide +kernel
  obtain ⟨c, hc, hzero⟩ := Option.map_eq_some_iff.1 hslot
  obtain ⟨-, hfaults, -, hdeadline⟩ := bounds_respected hs
  have hclock : (c.slot + frameSlots) * slotTicks < wordCount := by
    rw [hzero]
    decide
  exact ⟨s, c, hs, hrun, hchild, hfaults, hps ▸ hc, hdeadline ps 0 0 0 c hc hclock⟩

end SepKernel
