import SepKernel.Proofs.Harts.Lending
import SepKernel.Proofs.Harts.Running
import SepKernel.Proofs.Schedule.Length

/-!
# The deadline of those who run

Two clocks end the run of a process: the timer of its hart, and its own deadline, which it passes on
when it lends the hart. A scheduling decision sets both, the timer ahead of the deadline by the
overhead of the next decision. As long as only the kernel programs the timers, they stay so for
whoever runs on the hart, however often it is lent; unless a monitor lets a process go on that
runs.
-/

namespace SepKernel

variable {m m' m₁ : Machine} {roots : List Capability} {h k : Hart} {p q : Pid}
  {before after : Option Pid}

theorem Board.deadline_setDeadline (b : Board) (h k : Hart) (time : Nat) :
    (b.setDeadline h time).deadline k = if h = k then time else b.deadline k := by
  rw [deadline, setDeadline, timer_setTimer]
  split <;> rfl

/-- Is the timer of a hart ahead of the deadline of a process by just the overhead of a decision? -/
def Machine.InTime (m : Machine) (h : Hart) (p : Pid) : Prop :=
  m.board.deadline h + overheadTicks = (m.processes.get p).deadline

/-- Work of the kernel on a hart that ran one process, or none, and runs another one then, or none.
No other hart is concerned, and if the hart was in time, so it is then. -/
structure Clocked (h : Hart) (before after : Option Pid) (m m' : Machine) : Prop where
  timers : ∀ k, k ≠ h → m'.board.deadline k = m.board.deadline k
  others : ∀ q, before ≠ some q → m.Holds q →
    (m'.processes.get q).deadline = (m.processes.get q).deadline
  next : (∀ p, before = some p → m.InTime h p) → ∀ q, after = some q → m'.InTime h q

/-- A process that goes on keeps its deadline. -/
theorem Timeless.clocked (ht : Timeless m m') : Clocked h before before m m' where
  timers k _ := ht.untimed k
  others q _ _ := ht.deadline q
  next hp q hq := by
    have hin := hp q hq
    rwa [Machine.InTime, ht.untimed h, ht.deadline q]

/-- The process of a hart is given back, and all other processes that are held stay held. -/
theorem Clocked.of_idle (hu : Untimed m m₁)
    (hk : ∀ q, before ≠ some q → m.Holds q →
      m₁.Holds q ∧ (m₁.processes.get q).deadline = (m.processes.get q).deadline)
    (hm : Clocked h none after m₁ m') : Clocked h before after m m' where
  timers k hk := by rw [hm.timers k hk, hu k]
  others q hq hheld := by
    obtain ⟨hheld, hd⟩ := hk q hq hheld
    rw [hm.others q (by simp) hheld, hd]
  next _ := hm.next (by simp)

/-- What follows may take nobody, but it must leave timers and deadlines alone. -/
theorem Clocked.followed (hm : Clocked h before after m m₁) (ht : Timeless m₁ m') :
    Clocked h before after m m' where
  timers k hk := by rw [ht.untimed k, hm.timers k hk]
  others q hq hheld := by rw [ht.deadline q, hm.others q hq hheld]
  next hin q hq := by
    have hnext := hm.next hin q hq
    rwa [Machine.InTime, ht.untimed h, ht.deadline q]

/-- The hart goes on with its process. -/
theorem Lends.stays (hl : Lends p m m') (hw : (m'.processes.get p).status.wait = none) :
    Clocked h (some p) (some p) m m' where
  timers k _ := hl.untimed k
  others q hq hheld := hl.kept q (by rintro rfl; exact hq rfl) hheld
  next hin q hq := by
    obtain rfl := Option.some.inj hq
    have hin := hin _ rfl
    rwa [Machine.InTime, hl.untimed h, hl.own hw]

/-- The hart is lent. -/
theorem Lends.leaves (hl : Lends p m m') (hq : ¬ m.Holds q) (hq' : m'.Holds q) (hqp : q ≠ p) :
    Clocked h (some p) (some q) m m' where
  timers k _ := hl.untimed k
  others k hk hheld := hl.kept k (by rintro rfl; exact hk rfl) hheld
  next hin k hk := by
    obtain rfl := Option.some.inj hk
    have hin := hin p rfl
    rwa [Machine.InTime, hl.untimed h, hl.lent _ hqp hq hq']

namespace Machine

/-! ## Dispatching -/

/-- A scheduling decision that finds a process takes it, and sets the timer of the hart. -/
theorem nextProcess_of_choose? {c : Schedule.Choice}
    (hc : m.schedule.choose? m.processes h m.board.time m.board.patience = some c) :
    ∃ journal faults, (nextProcess h).exec m = (some c.pid,
      { m with
        processes := m.processes.put c.pid c.process
        board := { m.board with time := c.time }.setDeadline h (c.process.deadline - overheadTicks)
        journal
        faults }) := by
  unfold nextProcess
  rw [Action.exec_bind]
  dsimp only [Action.exec_get]
  rw [hc]
  simp only [Action.exec_bind, Action.exec_pure, setProcess, modifyProcess_exec, note_exec,
    expect_exec, modifyBoard_exec]
  exact ⟨_, _, rfl⟩

/-- A scheduling decision that finds nobody lets the hart idle. -/
theorem nextProcess_of_choose?_eq_none
    (hc : m.schedule.choose? m.processes h m.board.time m.board.patience = none) :
    (nextProcess h).exec m =
      (none, { m with board := { m.board with time := m.board.time + m.board.patience } }) := by
  unfold nextProcess
  rw [Action.exec_bind]
  dsimp only [Action.exec_get]
  rw [hc]
  rfl

/-- A scheduling decision lets the hart idle, or takes a process and sets the timer of the hart. -/
theorem nextProcess_chosen (h : Hart) (m : Machine) :
    (((nextProcess h).exec m).1 = none ∧ Timeless m ((nextProcess h).exec m).2) ∨
      ∃ c, m.schedule.choose? m.processes h m.board.time m.board.patience = some c ∧
        ((nextProcess h).exec m).1 = some c.pid ∧
        ((nextProcess h).exec m).2.processes = m.processes.put c.pid c.process ∧
        ∀ k, ((nextProcess h).exec m).2.board.deadline k =
          if h = k then c.process.deadline - overheadTicks else m.board.deadline k := by
  cases hc : m.schedule.choose? m.processes h m.board.time m.board.patience with
  | none =>
    rw [nextProcess_of_choose?_eq_none hc]
    exact .inl ⟨rfl, fun _ => rfl, fun _ => rfl⟩
  | some c =>
    obtain ⟨_, _, he⟩ := nextProcess_of_choose? hc
    rw [he]
    refine .inr ⟨c, rfl, rfl, rfl, fun k => ?_⟩
    rw [Board.deadline_setDeadline]
    rfl

/-- A scheduling decision sets the timer of the hart by the deadline of whom it takes. -/
theorem nextProcess_clocked (h : Hart) (hu : m.Unspent) :
    Clocked h none ((nextProcess h).exec m).1 m ((nextProcess h).exec m).2 := by
  rcases nextProcess_chosen h m with ⟨hnone, ht⟩ | ⟨c, hc, hnext, hprocesses, hboard⟩
  · rw [hnone]
    exact ht.clocked
  · obtain ⟨x, hx, _⟩ := Schedule.acquire?_of_choose? hc
    obtain ⟨hidle, _⟩ := Process.acquire?_status hx
    rw [hnext]
    constructor
    case timers =>
      intro k hk
      rw [hboard, if_neg hk.symm]
    case others =>
      intro q _ hq
      -- whoever is held already is not the one that is taken
      have hcq : c.pid ≠ q := by
        rintro rfl
        rw [Holds, hidle] at hq
        cases hq
      rw [hprocesses, Processes.get_put_of_ne _ _ hcq]
    case next =>
      rintro _ q ⟨⟩
      rw [InTime, hboard, if_pos rfl, hprocesses, Processes.get_put_self]
      exact Nat.sub_add_cancel (hu.overheadTicks_le hc)

/-- The process that is interrupted is given back, and the hart decides anew. -/
theorem handleTimer_clocked (h : Hart) (p : Pid) (hu : m.Unspent) :
    Clocked h (some p) ((handleTimer h p).exec m).1 m ((handleTimer h p).exec m).2 := by
  have hreleased := release_timeless p m
  refine .of_idle hreleased.untimed (fun q hq hheld => ⟨?_, hreleased.deadline q⟩)
    (nextProcess_clocked h ((release_hushed p m).toQuiet.unspent_iff.2 hu))
  exact ((release_returns p m).held q).2 ⟨hheld, fun he => hq (congrArg some he.symm)⟩

/-- A trap changes registers. -/
theorem handleTrap_timeless (p : Pid) (t : Trap) : (handleTrap p t).Keeps Timeless :=
  .bind (note_timeless _) fun _ => .bind (modifyProcess_timeless p fun _ => rfl) fun _ => .pure _

/-! ## System calls -/

/-- However a system call ends, the timer stays in time for the caller, or is so for whoever runs
then. -/
theorem finish_clocked (h : Hart) (number : Word) {r : Except Error Outcome} (hp : m.Holds p)
    (ha : m.Awake p) (hr : Ended Outcome.taken (Outcome.waiting p) r m m₁)
    (hd : Lends p m m₁ ∨ r = .ok .schedule ∧ Untimed m m₁ ∧ Solo p m m₁) (hu : m₁.Unspent) :
    Clocked h (some p) ((finish h p number r).exec m₁).1 m ((finish h p number r).exec m₁).2 := by
  have hends := conclude_ends p number hr
  -- what the caller is told changes no deadline
  have hlends : Lends p m ((conclude p number r).exec m₁).2 ∨
      ((conclude p number r).exec m₁).1 = none ∧ Untimed m ((conclude p number r).exec m₁).2 ∧
        Solo p m ((conclude p number r).exec m₁).2 := by
    rcases hd with hd | ⟨rfl, hd⟩
    · exact .inl (hd.followed (conclude_timeless p number r m₁) (conclude_calm p number r m₁))
    · exact .inr ⟨rfl, hd⟩
  have hunspent := (conclude_hushed p number r m₁).toQuiet.unspent_iff.2 hu
  unfold finish
  rw [Action.exec_bind]
  generalize (conclude p number r).exec m₁ = c at hends hlends hunspent ⊢
  obtain ⟨next, m₂⟩ := c
  have hreleased := release_timeless p m₂
  cases next with
  | some q =>
    obtain hlends | ⟨⟨⟩, _⟩ := hlends
    dsimp only
    split
    · next hqp => -- the hart goes on with its caller, or is lent
      subst hqp
      rcases hends with ⟨_, hsteady⟩ | hhands
      · exact hlends.stays (hsteady.awake q (by simp) ha ((hsteady.held q).2 (.inl hp)))
      · exact absurd hp (hhands.fresh q rfl)
    · next hqp =>
      obtain ⟨he, _⟩ | hhands := hends
      · exact absurd (Option.some.inj he) hqp
      · have hheld : m₂.Holds q := (hhands.held q).2 (.inr rfl)
        exact (hlends.leaves (hhands.fresh q rfl) hheld hqp).followed hreleased
  | none =>
    obtain ⟨⟨⟩, _⟩ | hhands := hends
    -- nobody was taken: the hart gives its caller back and decides anew
    have huntimed : Untimed m m₂ := hlends.elim Lends.untimed fun hs => hs.2.1
    have hidle := nextProcess_clocked h ((release_hushed p m₂).toQuiet.unspent_iff.2 hunspent)
    refine hidle.of_idle (trans_of Untimed huntimed hreleased.untimed) fun q hq hheld => ?_
    have hqp : q ≠ p := by
      rintro rfl
      exact hq rfl
    constructor
    · exact ((release_returns p m₂).held q).2 ⟨(hhands.held q).2 (.inl hheld), hqp⟩
    · rw [hreleased.deadline]
      rcases hlends with hlends | ⟨_, _, hsolo⟩
      · exact hlends.kept q hqp hheld
      · rw [hsolo q hqp]

/-- Does a process let nobody go on, in the call that it makes, who is held? -/
def Orderly (m : Machine) (p : Pid) : Prop :=
  ∀ q, m.Resumes p q → ¬ m.Holds q

/-- A system call keeps the timer in time for whom the hart runs then, if the caller is orderly. -/
theorem handleCall_clocked (h : Hart) (hm : Reachable roots m) (hp : m.Holds p) (ha : m.Awake p)
    (ho : m.Orderly p) :
    Clocked h (some p) ((handleCall h p).exec m).1 m ((handleCall h p).exec m).2 := by
  have hunspent := (hm.step (.call h p)).unspent
  rw [handleCall_exec] at hunspent ⊢
  refine finish_clocked h _ hp ha (respond_ended h p m) (respond_lends hm.lineal.strung hp ho) ?_
  exact (finish_hushed h p _ _ _).toQuiet.unspent_iff.1 hunspent

end Machine

/-! ## Runs -/

namespace System

/-- The systems that come out of booting with some roots, if only the kernel programs the timers and
no process makes a call but when it may. -/
inductive Driven (roots : List Capability) (may : Machine → Pid → Prop) : System → Prop
  | boot {m : Machine} : (Machine.boot roots).exec .initial = (.ok (), m) →
      Driven roots may ⟨m, fun _ => none⟩
  | dispatch {s : System} (h : Hart) : Driven roots may s → s.running h = none →
      Driven roots may (s.after h (Machine.nextProcess h))
  | call {s : System} (h : Hart) (p : Pid) : Driven roots may s → s.running h = some p →
      may s.machine p → Driven roots may (s.after h (Machine.handleCall h p))
  | trap {s : System} (h : Hart) (p : Pid) (t : Trap) : Driven roots may s →
      s.running h = some p → Driven roots may (s.after h (some <$> Machine.handleTrap p t))
  | timer {s : System} (h : Hart) (p : Pid) : Driven roots may s → s.running h = some p →
      Driven roots may (s.after h (Machine.handleTimer h p))
  | compute {s : System} (h : Hart) (p : Pid) (rs : Registers) : Driven roots may s →
      s.running h = some p → Driven roots may (s.compute p rs)
  | board {s : System} (b : Board) (holder : Option Hart) : Driven roots may s →
      (∀ h, b.deadline h = s.machine.board.deadline h) →
      Driven roots may { s with machine := { s.machine with board := b, lockHolder := holder } }

variable {s s' : System} {may : Machine → Pid → Prop}

/-- These systems are among the reachable ones. -/
theorem Driven.reachable (hs : s.Driven roots may) : s.Reachable roots := by
  induction hs with
  | boot hb => exact .boot hb
  | dispatch h _ hh ih => exact ih.step (.dispatch h hh)
  | call h p _ hp _ ih => exact ih.step (.call h p hp)
  | trap h p t _ hp ih => exact ih.step (.trap h p t hp)
  | timer h p _ hp ih => exact ih.step (.timer h p hp)
  | compute h p rs _ hp ih => exact ih.step (.compute h p rs hp)
  | board b holder _ _ ih => exact ih.step (.board b holder)

theorem Driven.called (hs : s.Driven roots may) (hp : s.running h = some p)
    {values : List (Register × Word)}
    (hmay : may (s.compute p (Registers.zero.setAll values)).machine p) :
    (s.called h p values).Driven roots may :=
  .call h p (.compute h p _ hs hp) hp hmay

def InTime (s : System) : Prop :=
  ∀ h p, s.running h = some p → s.machine.InTime h p

/-- One step on one hart is enough: a process runs on at most one hart, so that no other hart is
concerned. -/
theorem InTime.clocked {a : Action (Option Pid)} (hs : s.Accounted) (hin : s.InTime)
    (ha : Clocked h (s.running h) (a.exec s.machine).1 s.machine (a.exec s.machine).2) :
    (s.after h a).InTime := by
  intro k p hk
  by_cases hkh : k = h
  · subst hkh
    rw [running_after_self] at hk
    exact ha.next (fun q hq => hin k q hq) p hk
  · rw [running_after_of_ne s hkh] at hk
    -- whoever runs on another hart does not run on this one
    have hother : s.running h ≠ some p := fun hh => hkh (hs.apart k h p hk hh)
    have hkept := hin k p hk
    show (a.exec s.machine).2.InTime k p
    rwa [Machine.InTime, ha.timers k hkh, ha.others p hother ((hs.held p).2 ⟨k, hk⟩)]

/-- Work that programs no timer and changes no deadline keeps all harts in time. -/
theorem InTime.timeless (hin : s.InTime) (ht : Timeless s.machine m) :
    InTime { s with machine := m } := by
  intro h p hp
  have hkept := hin h p hp
  show m.InTime h p
  rwa [Machine.InTime, ht.untimed h, ht.deadline p]

/-- In every such system all harts are in time, if callers are orderly. -/
theorem Driven.inTime (hs : s.Driven roots Machine.Orderly) : s.InTime := by
  -- each step is clocked: the timer fits whoever the hart runs then, and no other hart is touched
  induction hs with
  | boot => rintro _ _ ⟨⟩
  | @dispatch s h hs hh ih =>
    apply ih.clocked hs.reachable.accounted
    rw [hh]
    exact Machine.nextProcess_clocked h hs.reachable.machine.unspent
  | @call s h p hs hp ho ih =>
    have ha := hs.reachable.accounted
    apply ih.clocked ha
    rw [hp]
    exact Machine.handleCall_clocked h hs.reachable.machine ((ha.held p).2 ⟨h, hp⟩) (ha.awake p) ho
  | @trap s h p t hs hp ih =>
    apply ih.clocked hs.reachable.accounted
    rw [hp]
    exact Timeless.clocked (Machine.handleTrap_timeless p t s.machine)
  | @timer s h p hs hp ih =>
    apply ih.clocked hs.reachable.accounted
    rw [hp]
    exact Machine.handleTimer_clocked h p hs.reachable.machine.unspent
  | @compute s h p rs _ _ ih =>
    exact ih.timeless (Machine.modifyProcess_timeless p
      (f := fun q => { q with registers := rs }) (fun _ => rfl) s.machine)
  | board b holder _ hb ih => exact ih.timeless ⟨hb, fun _ => rfl⟩

end System

/-- As long as nobody is let go on who runs, the deadline of a process that runs is past the one of
its hart by the overhead of a decision. -/
theorem deadline_of_running {s : System} (hs : s.Driven roots Machine.Orderly)
    (hp : s.running h = some p) :
    s.machine.board.deadline h + overheadTicks = (s.machine.processes.get p).deadline :=
  hs.inTime h p hp

/-- A process is orderly if it does not ask to resume one that is held. -/
theorem Machine.orderly_of_requested {op : Operation} (hr : m.requested? p = some op)
    (hop : ∀ s q, op = .monResume s q → ¬ m.Holds q) : m.Orderly p := by
  rintro q ⟨_, s, hr', _⟩
  rw [hr] at hr'
  exact hop s q (Option.some.inj hr')

/-- A process lends its hart to another one that it has let go on, which goes on with its
deadline. -/
theorem deadline_of_running_lent : ∃ s : System,
    s.Driven [.wholeTime 0 0 64, .wholeMonitor 0 8] Machine.Orderly ∧ s.running 0 = some 1 ∧
      s.machine.board.deadline 0 + overheadTicks = (s.machine.processes.get 1).deadline := by
  obtain ⟨s₀, h₀⟩ : ∃ s₀ : System, s₀ =
    ⟨((Machine.boot [.wholeTime 0 0 64, .wholeMonitor 0 8]).exec .initial).2, fun _ => none⟩ :=
      ⟨_, rfl⟩
  obtain ⟨s₁, h₁⟩ : ∃ s₁, s₁ = s₀.after 0 (Machine.nextProcess 0) := ⟨_, rfl⟩
  obtain ⟨s₂, h₂⟩ : ∃ s₂, s₂ = s₁.called 0 0 [(.t0, 13), (.a0, 1), (.a1, 1)] := ⟨_, rfl⟩
  obtain ⟨s, he⟩ : ∃ s, s = s₂.called 0 0 [(.t0, 15), (.a0, 1), (.a1, 1)] := ⟨_, rfl⟩
  -- process 0 lets process 1 run, and then lends it the hart
  have hs₁ : s₁.Driven [.wholeTime 0 0 64, .wholeMonitor 0 8] Machine.Orderly :=
    h₁ ▸ h₀ ▸ .dispatch 0 (.boot rfl) rfl
  have hs₂ : s₂.Driven [.wholeTime 0 0 64, .wholeMonitor 0 8] Machine.Orderly := by
    rw [h₂]
    apply hs₁.called (by rw [h₁, h₀]; decide +kernel)
    refine Machine.orderly_of_requested (show _ = some (.monResume ⟨0, 1⟩ 1) from ?_) ?_
    · rw [h₁, h₀]
      decide +kernel
    · rintro _ _ ⟨⟩
      rw [Machine.Holds, h₁, h₀]
      decide +kernel
  have hs : s.Driven [.wholeTime 0 0 64, .wholeMonitor 0 8] Machine.Orderly := by
    rw [he]
    apply hs₂.called (by rw [h₂, h₁, h₀]; decide +kernel)
    refine Machine.orderly_of_requested (show _ = some (.monYield ⟨0, 1⟩ 1) from ?_) ?_
    · rw [h₂, h₁, h₀]
      decide +kernel
    · rintro _ _ ⟨⟩
  have hrun : s.running 0 = some 1 := by rw [he, h₂, h₁, h₀]; decide +kernel
  exact ⟨s, hs, hrun, deadline_of_running hs hrun⟩

/-- A process that lets itself go on has no deadline left, although its hart has. -/
theorem deadline_of_running_resumed : ∃ s : System,
    s.Driven [.wholeTime 0 0 64, .wholeMonitor 0 8] (fun _ _ => True) ∧ s.running 0 = some 0 ∧
      s.machine.board.deadline 0 + overheadTicks ≠ (s.machine.processes.get 0).deadline := by
  obtain ⟨s₀, h₀⟩ : ∃ s₀ : System, s₀ =
    ⟨((Machine.boot [.wholeTime 0 0 64, .wholeMonitor 0 8]).exec .initial).2, fun _ => none⟩ :=
      ⟨_, rfl⟩
  obtain ⟨s₁, h₁⟩ : ∃ s₁, s₁ = s₀.after 0 (Machine.nextProcess 0) := ⟨_, rfl⟩
  obtain ⟨s, he⟩ : ∃ s, s = s₁.called 0 0 [(.t0, 13), (.a0, 1), (.a1, 0)] := ⟨_, rfl⟩
  -- process 0 lets itself go on, and loses its deadline
  have hs₁ : s₁.Driven [.wholeTime 0 0 64, .wholeMonitor 0 8] (fun _ _ => True) :=
    h₁ ▸ h₀ ▸ .dispatch 0 (.boot rfl) rfl
  have hs : s.Driven [.wholeTime 0 0 64, .wholeMonitor 0 8] (fun _ _ => True) :=
    he ▸ hs₁.called (by rw [h₁, h₀]; decide +kernel) trivial
  refine ⟨s, hs, ?_, ?_⟩
  · rw [he, h₁, h₀]
    decide +kernel
  · rw [he, h₁, h₀]
    decide +kernel

end SepKernel
