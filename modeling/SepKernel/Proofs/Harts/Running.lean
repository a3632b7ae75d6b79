import Mathlib.Logic.Function.Basic
import SepKernel.Proofs.Harts.Turn
import SepKernel.Proofs.Machine.Reachable

/-!
# Who runs where

The kernel does not write down which process a hart runs: it is in the hands of the harts, which
pass it to the kernel when they call it. Here the two are put together. Whatever the harts do, in
whatever order, no process runs on two of them; a process is held exactly if it runs on some hart,
so that none is lost; and none that runs waits.
-/

namespace SepKernel

variable {m m' : Machine} {roots : List Capability}

/-- A machine, and which process each of its harts runs. -/
structure System where
  machine : Machine
  running : Hart → Option Pid

namespace System

/-- The system after a hart was in the kernel, which told it what to run. -/
def after (s : System) (h : Hart) (a : Action (Option Pid)) : System :=
  ⟨(a.exec s.machine).2, Function.update s.running h (a.exec s.machine).1⟩

/-- The hart runs whom the work of the kernel answers. -/
theorem running_after_self (s : System) (h : Hart) (a : Action (Option Pid)) :
    (s.after h a).running h = (a.exec s.machine).1 :=
  Function.update_self h _ s.running

theorem running_after_of_ne (s : System) {h k : Hart} (hk : k ≠ h) (a : Action (Option Pid)) :
    (s.after h a).running k = s.running k :=
  Function.update_of_ne hk _ s.running

def compute (s : System) (p : Pid) (rs : Registers) : System :=
  { s with machine := ((Machine.modifyProcess p fun q => { q with registers := rs }).exec
    s.machine).2 }

/-- What can happen to a system. -/
inductive Step (s : System) : System → Prop
  /-- An idle hart looks for a process. -/
  | dispatch (h : Hart) : s.running h = none → Step s (s.after h (Machine.nextProcess h))
  /-- The process that a hart runs makes a system call. -/
  | call (h : Hart) (p : Pid) : s.running h = some p → Step s (s.after h (Machine.handleCall h p))
  /-- The process that a hart runs causes an exception. -/
  | trap (h : Hart) (p : Pid) (t : Trap) : s.running h = some p →
      Step s (s.after h (some <$> Machine.handleTrap p t))
  /-- The timer interrupt of a hart is pending while it runs a process. -/
  | timer (h : Hart) (p : Pid) : s.running h = some p →
      Step s (s.after h (Machine.handleTimer h p))
  /-- The process that a hart runs changes its registers. -/
  | compute (h : Hart) (p : Pid) (rs : Registers) : s.running h = some p →
      Step s (s.compute p rs)
  /-- The clock and the timers move on, and the lock changes hands. -/
  | board (b : Board) (holder : Option Hart) :
      Step s { s with machine := { s.machine with board := b, lockHolder := holder } }

/-- The systems that come out of booting with some roots, all harts idle. -/
inductive Reachable (roots : List Capability) : System → Prop
  | boot {m : Machine} : (Machine.boot roots).exec .initial = (.ok (), m) →
      Reachable roots ⟨m, fun _ => none⟩
  | step {s s' : System} : Reachable roots s → s.Step s' → Reachable roots s'

/-- The system after a process has put values into its registers and made the call that they ask
for. -/
def called (s : System) (h : Hart) (p : Pid) (values : List (Register × Word)) : System :=
  (s.compute p (Registers.zero.setAll values)).after h (Machine.handleCall h p)

variable {s s' : System}

theorem Reachable.called (hs : Reachable roots s) {h : Hart} {p : Pid} (hp : s.running h = some p)
    (values : List (Register × Word)) : Reachable roots (s.called h p values) :=
  (hs.step (.compute h p _ hp)).step (.call h p hp)

/-- The machine of a reachable system is reachable. -/
theorem Reachable.machine (hs : Reachable roots s) : SepKernel.Reachable roots s.machine := by
  induction hs with
  | boot hb => exact .boot hb
  | step _ hstep ih =>
    cases hstep with
    | dispatch h => exact ih.step (.dispatch h)
    | call h p => exact ih.step (.call h p)
    | trap h p t => exact ih.step (.trap p t)
    -- a hart that is interrupted gives its process back, and then decides
    | timer h p => exact (ih.step (.release p)).step (.dispatch h)
    | compute h p rs => exact ih.step (.process p _ rfl)
    | board b holder => exact ih.step (.board b holder)

/-! ## The invariant -/

/-- Each process is held exactly if it runs on a hart, on which it runs alone, and awake. -/
structure Accounted (s : System) : Prop where
  apart : ∀ h k p, s.running h = some p → s.running k = some p → h = k
  held : ∀ p, s.machine.Holds p ↔ ∃ h, s.running h = some p
  awake : ∀ p, s.machine.Awake p

/-- If the work on a hart gives back whom the hart ran, and takes whom it runs then, the harts still
agree with the processes. -/
theorem Accounted.after {h : Hart} {a : Action (Option Pid)} (hs : s.Accounted)
    (ha : Turns (s.running h) (a.exec s.machine).1 s.machine (a.exec s.machine).2) :
    (s.after h a).Accounted where
  apart := by
    -- whoever runs on another hart is held, so it was not taken anew
    have hother : ∀ k p, k ≠ h → s.running k = some p → (a.exec s.machine).1 ≠ some p := by
      intro k p hk hkp hap
      exact hk (hs.apart k h p hkp (ha.fresh p hap ((hs.held p).2 ⟨k, hkp⟩)))
    intro k l p hk hl
    by_cases hkh : k = h <;> by_cases hlh : l = h
    · rw [hkh, hlh]
    · rw [hkh, running_after_self] at hk
      rw [running_after_of_ne s hlh] at hl
      exact absurd hk (hother l p hlh hl)
    · rw [running_after_of_ne s hkh] at hk
      rw [hlh, running_after_self] at hl
      exact absurd hl (hother k p hkh hk)
    · rw [running_after_of_ne s hkh] at hk
      rw [running_after_of_ne s hlh] at hl
      exact hs.apart k l p hk hl
  held p := by
    rw [show (s.after h a).machine.Holds p ↔ _ from ha.held p, hs.held]
    constructor
    · rintro (⟨⟨k, hk⟩, hne⟩ | hp)
      · have hkh : k ≠ h := by
          rintro rfl
          exact hne hk
        exact ⟨k, by rw [running_after_of_ne s hkh, hk]⟩
      · exact ⟨h, by rw [running_after_self, hp]⟩
    · rintro ⟨k, hk⟩
      by_cases hkh : k = h
      · rw [hkh, running_after_self] at hk
        exact .inr hk
      · rw [running_after_of_ne s hkh] at hk
        exact .inl ⟨⟨k, hk⟩, fun hh => hkh (hs.apart k h p hk hh)⟩
  awake := ha.awake hs.awake

/-- Whatever does not concern the status of a process leaves everything accounted for. -/
theorem Accounted.calm (hs : s.Accounted) (hm : Calm s.machine m) :
    Accounted { s with machine := m } := by
  have hsteady : Steady s.machine m := hm.hands
  refine ⟨hs.apart, fun p => ?_, fun p => hsteady.awake p (by simp) (hs.awake p)⟩
  refine (hsteady.held p).trans ?_
  simpa using hs.held p

/-- Every step leaves the harts in agreement with the processes. -/
theorem Step.accounted (hstep : s.Step s') (hs : s.Accounted) : s'.Accounted := by
  -- a step passes the turn of one hart on, or changes the status of nobody
  cases hstep with
  | dispatch h hh =>
    refine hs.after ?_
    rw [hh]
    exact (Machine.nextProcess_hands h _).turns
  | call h p hp =>
    refine hs.after ?_
    rw [hp]
    exact Machine.handleCall_turns h ((hs.held p).2 ⟨h, hp⟩)
  | trap h p t hp =>
    refine hs.after ?_
    rw [hp]
    exact Machine.handleTrap_turns t ((hs.held p).2 ⟨h, hp⟩)
  | timer h p hp =>
    refine hs.after ?_
    rw [hp]
    exact Machine.handleTimer_turns h ((hs.held p).2 ⟨h, hp⟩)
  | compute h p rs =>
    have hcalm := Machine.modifyProcess_calm p (f := fun q => { q with registers := rs })
      fun _ => rfl
    exact hs.calm (hcalm s.machine)
  | board b holder => exact hs.calm (.of_processes rfl)

end System

/-! ## Booting -/

def Machine.Idle (m : Machine) : Prop :=
  ∀ p, ¬ m.Holds p

def Machine.Fresh (m : Machine) : Prop :=
  ∀ p, (m.processes.get p).status = .ready ∨ (m.processes.get p).status = .stopped

theorem Calm.fresh (h : Calm m m') (hm : m.Fresh) : m'.Fresh :=
  fun p => by rw [h p]; exact hm p

/-- Resetting the processes holds nobody. -/
theorem Machine.resetProcesses_fresh : resetProcesses.Keeps (Preserves Fresh) := by
  refine resetProcesses_keeps fun p => .modify fun m hm q => ?_
  by_cases hpq : p = q
  · subst hpq
    rw [Processes.get_put_self]
    exact ite_eq_or_eq _ _ _
  · rw [Processes.get_put_of_ne _ _ hpq]
    exact hm q

/-- Installing roots changes no status. -/
theorem Machine.installRoots_calm (first : Nat) (roots : List Capability) :
    (installRoots first roots).Keeps Calm := by
  induction roots generalizing first with
  | nil => exact .pure _
  | cons c cs ih =>
    rw [installRoots]
    split
    · exact .bind (fun m => .of_processes (installRoot_rooted _ c m).processes) fun _ => ih _
    · exact ih _

/-- After booting nobody is held, and nobody waits. -/
theorem boot_fresh (hb : (Machine.boot roots).exec .initial = (.ok (), m)) : m.Fresh := by
  have hinitial : Machine.initial.Fresh := by
    intro p
    right
    simp [Machine.initial, Kernel.blank, Processes.blank, Processes.get, Process.blank]
  obtain ⟨_, _, rfl⟩ := Machine.boot_exec hb
  refine (Machine.note_calm _ _).fresh (Machine.resetProcesses_fresh _ ?_)
  exact (Machine.installRoots_calm 0 roots _).fresh hinitial

/-- After booting nobody is held. -/
theorem boot_idle (hb : (Machine.boot roots).exec .initial = (.ok (), m)) : m.Idle := by
  intro p hp
  rcases boot_fresh hb p with hs | hs <;> rw [Machine.Holds, hs] at hp <;> cases hp

/-- After booting nobody waits. -/
theorem boot_awake (hb : (Machine.boot roots).exec .initial = (.ok (), m)) (p : Pid) :
    (m.processes.get p).status.wait = none := by
  rcases boot_fresh hb p with hs | hs <;> rw [hs] <;> rfl

/-- In every reachable system the harts agree with the processes. -/
theorem System.Reachable.accounted {s : System} (hs : s.Reachable roots) : s.Accounted := by
  induction hs with
  | boot hb =>
    refine ⟨?_, fun p => ?_, fun p hp => absurd hp (boot_idle hb p)⟩
    · rintro h k p ⟨⟩
    · refine iff_of_false (boot_idle hb p) ?_
      rintro ⟨h, ⟨⟩⟩
  | step _ hstep ih => exact hstep.accounted ih

/-! ## The words of those who run -/

namespace Status

/-- The lowest bit of the word says whether the process is held. -/
theorem word_busy (s : Status) : s.word.getLsbD 0 = s.busy := by
  simp only [word, BitVec.getLsbD_append, BitVec.getLsbD_ofBool]
  rfl

/-- The next one says whether it waits. -/
theorem word_wait (s : Status) : s.word.getLsbD 1 = s.wait.isSome := by
  simp only [word, BitVec.getLsbD_append, BitVec.getLsbD_ofBool]
  rfl

end Status

/-- No process runs on two harts; the processes whose status says that they are held are those that
run; and the status of none of these says that it waits. -/
theorem held_iff_running {s : System} (hs : s.Reachable roots) :
    (∀ h k p, s.running h = some p → s.running k = some p → h = k) ∧
      (∀ p, (s.machine.processes.get p).status.word.getLsbD 0 = true ↔ ∃ h, s.running h = some p) ∧
      ∀ h p, s.running h = some p → (s.machine.processes.get p).status.word.getLsbD 1 = false := by
  have ha := hs.accounted
  refine ⟨ha.apart, fun p => ?_, fun h p hp => ?_⟩
  · rw [Status.word_busy]
    exact ha.held p
  · rw [Status.word_wait, ha.awake p ((ha.held p).2 ⟨h, hp⟩)]
    rfl

/-- A process lends its hart to another one that it has resumed, and then runs on another hart. -/
theorem held_iff_running_lent : ∃ s : System,
    s.Reachable [.wholeTime 0 0 32, .wholeTime 1 32 64, .wholeMonitor 0 8] ∧
      s.running 0 = some 1 ∧ s.running 1 = some 0 ∧
      (∀ k, s.running k = some 0 → k = 1) ∧
      (∀ p, (s.machine.processes.get p).status.word.getLsbD 0 = true ↔ p = 0 ∨ p = 1) ∧
      (s.machine.processes.get 0).status.word.getLsbD 1 = false := by
  let roots : List Capability := [.wholeTime 0 0 32, .wholeTime 1 32 64, .wholeMonitor 0 8]
  let ask (number : Word) : Registers := Registers.zero.setAll [(.t0, number), (.a0, 2), (.a1, 1)]
  obtain ⟨s₀, h₀⟩ : ∃ s₀ : System, s₀ =
    ⟨((Machine.boot roots).exec .initial).2, fun _ => none⟩ := ⟨_, rfl⟩
  obtain ⟨s₁, h₁⟩ : ∃ s₁, s₁ = s₀.after 0 (Machine.nextProcess 0) := ⟨_, rfl⟩
  obtain ⟨s₂, h₂⟩ : ∃ s₂, s₂ = (s₁.compute 0 (ask 13)).after 0 (Machine.handleCall 0 0) := ⟨_, rfl⟩
  obtain ⟨s₃, h₃⟩ : ∃ s₃, s₃ = (s₂.compute 0 (ask 15)).after 0 (Machine.handleCall 0 0) := ⟨_, rfl⟩
  obtain ⟨s, he⟩ : ∃ s, s = s₃.after 1 (Machine.nextProcess 1) := ⟨_, rfl⟩
  -- process 0 lets process 1 run on hart 0, and is taken by hart 1 for its own time there
  have hs₀ : s₀.Reachable roots := h₀ ▸ .boot rfl
  have hs₁ : s₁.Reachable roots := h₁ ▸ hs₀.step (.dispatch 0 (by rw [h₀]))
  have hrun₁ : s₁.running 0 = some 0 := by rw [h₁, h₀]; decide +kernel
  have hs₂ : s₂.Reachable roots :=
    h₂ ▸ (hs₁.step (.compute 0 0 (ask 13) hrun₁)).step (.call 0 0 hrun₁)
  have hrun₂ : s₂.running 0 = some 0 := by rw [h₂, h₁, h₀]; decide +kernel
  have hs₃ : s₃.Reachable roots :=
    h₃ ▸ (hs₂.step (.compute 0 0 (ask 15) hrun₂)).step (.call 0 0 hrun₂)
  have hs : s.Reachable roots :=
    he ▸ hs₃.step (.dispatch 1 (by rw [h₃, h₂, h₁, h₀]; decide +kernel))
  have hrun : ∀ k : Hart, s.running k = #v[some 1, some 0, none, none][k] := by
    rw [he, h₃, h₂, h₁, h₀]; decide +kernel
  obtain ⟨hapart, hheld, hawake⟩ := held_iff_running hs
  refine ⟨s, hs, hrun 0, hrun 1, fun k hk => hapart k 1 0 hk (hrun 1), fun p => ?_,
    hawake 1 0 (hrun 1)⟩
  rw [hheld]
  simp only [hrun]
  revert p
  decide

end SepKernel
