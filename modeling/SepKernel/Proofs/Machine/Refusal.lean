import SepKernel.Proofs.Machine.Effects
import SepKernel.Proofs.Machine.Reachable

/-!
# Refusals

Whoever is refused something finds the kernel as it was. An operation decides by checks whether it
is refused, and what comes after the last check completes, even where it is made of parts that look
at the same things again. Only an interrupt may end an operation halfway.

So a system call that fails changes two registers of its caller, and nothing else. A caller that
was stopped while it ran, and fails for that reason, is given back in addition.
-/

namespace SepKernel

variable {α β : Type} {m m' : Machine} {h : Hart} {p : Pid} {e : Error}

/-! ## Attempts -/

/-- On a machine, whenever the attempt is refused, other than by an interrupt, then after nothing
but asides. -/
def Attempt.Spares (a : Attempt α) (m : Machine) : Prop :=
  ∀ e m', a.exec m = (.error e, m') → e ≠ .preempted → Aside m m'

namespace Attempt.Spares

theorem of_aside {a : Attempt α} (ha : a.Keeps Aside) (m : Machine) : a.Spares m := by
  intro e m' he _
  have hm := ha m
  rwa [he] at hm

/-- An attempt that completes was not refused. -/
theorem of_ok {a : Attempt α} {x : α} (ha : (a.exec m).1 = .ok x) : a.Spares m := by
  intro e m' he
  rw [he] at ha
  cases ha

/-- An attempt that is refused after nothing but asides spares the kernel. -/
theorem of_decides {a : Attempt α} {Q : α → Machine → Prop} (ha : a.Decides m Q) :
    a.Spares m := by
  intro e m' he _
  rw [Decides, he] at ha
  exact ha

/-- A check comes first. -/
theorem bind {a : Attempt α} {f : α → Attempt β} (ha : a.Keeps Aside)
    (hf : ∀ x m', a.exec m = (.ok x, m') → (f x).Spares m') : (a >>= f).Spares m := by
  intro e m' he hne
  have hm := ha m
  rw [exec_bind] at he
  cases hx : (a.exec m).1 with
  | error e' =>
    rw [hx] at he
    cases he
    exact hm
  | ok x =>
    rw [hx] at he
    exact trans_of Aside hm (hf x _ (Prod.ext hx rfl) e m' he hne)

/-- Only the answer is put in another form. -/
theorem map {a : Attempt α} (ha : a.Spares m) (f : α → β) :
    (a >>= fun x => pure (f x)).Spares m := by
  intro e m' he hne
  rw [exec_bind] at he
  cases hx : (a.exec m).1 with
  | error e' =>
    rw [hx] at he
    cases he
    exact ha e _ (Prod.ext hx rfl) hne
  | ok x =>
    rw [hx] at he
    cases he

end Attempt.Spares

namespace Machine

/-! ## Operations -/

/-- A revocation that has begun ends, or is interrupted. -/
theorem revokeCapability_spares (h : Hart) (s : Slot) (m : Machine) :
    (revokeCapability h s).Spares m := by
  unfold revokeCapability
  apply Attempt.Spares.bind (readCapability_aside s)
  intro _ m₁ _
  apply Attempt.Spares.bind .get
  intro m₂ m₃ _ e m' he hne
  rw [Attempt.exec_bind_ok (Attempt.exec_lift _)] at he
  -- what was taken back before an interrupt stays so
  split at he
  · cases he
  · cases he
    exact absurd rfl hne

/-- The lock is not to be had only if the timer interrupt is pending. -/
theorem lock_cases (h : Hart) (m : Machine) :
    (lock h).exec m = (.ok (), m) ∨ ((lock h).exec m).1 = .error .preempted := by
  unfold lock
  rw [Attempt.exec_bind_ok Attempt.exec_get]
  split
  · exact .inr rfl
  · exact .inl rfl

/-- Whoever has the lock has it alone. -/
theorem lockHolder_of_lock (hl : (lock h).exec m = (.ok (), m')) : m.lockHolder = none := by
  unfold lock at hl
  rw [Attempt.exec_bind_ok Attempt.exec_get] at hl
  split at hl
  · cases hl
  · next hn => simpa using hn

end Machine

namespace Operation

/-- An operation that is refused, other than by an interrupt, leaves the kernel as it was. -/
theorem perform_spares (h : Hart) (op : Operation) (m : Machine) : (op.perform h).Spares m := by
  by_cases hop : ∃ s, op = .capRevoke s
  · obtain ⟨s, rfl⟩ := hop
    exact .map (Machine.revokeCapability_spares h s m) _
  · exact .of_decides (op.perform_decides h m fun s hs => hop ⟨s, hs⟩)

/-- An operation that is refused, with the lock or without it, has changed nothing. -/
theorem run_spares (h : Hart) (op : Operation) (m : Machine) : (op.run h).Spares m := by
  intro e m' he hne
  rw [run] at he
  rcases Machine.lock_cases h m with hl | hl
  · rw [Attempt.exec_bind_ok hl] at he
    exact op.perform_spares h m e m' he hne
  · rw [Attempt.exec_bind_error (Prod.ext hl rfl)] at he
    cases he
    exact absurd rfl hne

end Operation

namespace Machine

/-! ## Booting -/

/-- Booting is refused before anything is installed. -/
theorem boot_spares (roots : List Capability) (m : Machine) : (boot roots).Spares m := by
  unfold boot
  dsimp only
  split
  · exact .of_aside (.throw _) m
  · split
    · exact .of_aside (.throw _) m
    · exact .of_ok rfl

/-! ## System calls -/

/-- A call that concerns its caller alone is not refused. -/
theorem attemptCall_spares (h : Hart) (p : Pid) (number : Word) (arguments : Vector Word 8)
    (m : Machine) : (attemptCall h p number arguments).Spares m := by
  unfold attemptCall
  apply Attempt.Spares.bind (.except _)
  intro c _ _
  apply Attempt.Spares.bind (.lift (note_aside fun _ => rfl))
  intro _ m₁ _
  cases c with
  | own c => exact .of_ok rfl
  | shared c => exact .map ((c.operation p).run_spares h m₁) _

/-- A process that was told why its call failed, and stepped over it. -/
def told (m : Machine) (p : Pid) (e : Error) : Kernel :=
  { m.toKernel with
    processes := m.processes.put p
      (((m.processes.get p).setRegister .pc ((m.processes.get p).register .pc + 4)).report e) }

/-- A caller that is told why its call failed goes on, unless it was stopped meanwhile and the call
failed for that reason. -/
theorem conclude_error (p : Pid) (number : Word) (he : e ≠ .preempted) :
    (conclude p number (.error e)).exec m =
      if e = .suspended ∧ (m.processes.get p).status.suspended = true then
        (none, ((modifyProcess p (·.report e)).exec m).2)
      else (some p, ((modifyProcess p (·.report e)).exec
        ((note (.callFailed p number e)).exec m).2).2) := by
  unfold conclude
  split
  case h_7 heq =>
    cases heq
    exact absurd rfl he
  case h_8 heq =>
    cases heq
    rw [Action.exec_bind, process_exec]
    dsimp only
    split
    · next hs =>
      rw [hs.1]
      rfl
    · rfl
  -- the answers of a call that succeeds
  all_goals next heq => cases heq

/-- Telling the caller its error is a matter of the kernel alone. -/
theorem told_eq (hk : m'.toKernel = (m.stepped p).toKernel) :
    ((modifyProcess p (·.report e)).exec m').2.toKernel = m.told p e := by
  have hreport : ((modifyProcess p (·.report e)).exec m').2.toKernel =
      { m'.toKernel with processes := m'.processes.put p ((m'.processes.get p).report e) } := rfl
  rw [hreport, hk, stepped]
  dsimp only [told]
  rw [Processes.get_put_self, Processes.put_put]

/-- A refusal is told, and then the hart goes on with its caller, or gives it back if it is to be
stopped. -/
theorem finish_error (h : Hart) (number : Word) (hk : m'.toKernel = (m.stepped p).toKernel)
    (he : e ≠ .preempted) :
    ∃ m₁ : Machine, m₁.toKernel = m.told p e ∧
      if e = .suspended ∧ (m.processes.get p).status.suspended = true then
        (finish h p number (.error e)).exec m' =
          (do release p; nextProcess h : Action (Option Pid)).exec m₁
      else (finish h p number (.error e)).exec m' = (some p, m₁) := by
  have hstatus : (m.processes.get p).status = (m'.processes.get p).status := by
    rw [hk, stepped, Processes.get_put_self]
    rfl
  rw [hstatus, finish, Action.exec_bind, conclude_error p number he]
  -- a caller that was suspended meanwhile gives the hart up
  split
  · exact ⟨((modifyProcess p (·.report e)).exec m').2, told_eq hk, rfl⟩
  · refine ⟨((modifyProcess p (·.report e)).exec ((note (.callFailed p number e)).exec m').2).2,
      told_eq hk, ?_⟩
    dsimp only
    rw [if_pos rfl]
    rfl

end Machine

/-- Whatever is refused leaves the kernel as it was: an operation, booting, and a system call but
for two registers of its caller. The caller then goes on; if it was stopped while it ran, and is
refused for that reason, it is given back instead, and the hart looks for a process. -/
theorem kernel_of_refused (m : Machine) (h : Hart) (he : e ≠ .preempted) :
    (∀ op m', (Operation.run h op).exec m = (.error e, m') → m'.toKernel = m.toKernel) ∧
      (∀ roots m', (Machine.boot roots).exec m = (.error e, m') → m'.toKernel = m.toKernel) ∧
      ∀ p, ((Machine.respond h p).exec m).1 = .error e →
        ∃ m₁ : Machine, m₁.toKernel = m.told p e ∧
          if e = .suspended ∧ (m.processes.get p).status.suspended = true then
            (Machine.handleCall h p).exec m =
              (do Machine.release p; Machine.nextProcess h : Action (Option Pid)).exec m₁
          else (Machine.handleCall h p).exec m = (some p, m₁) := by
  refine ⟨?_, ?_, ?_⟩
  · intro op m' hop
    exact (op.run_spares h m e m' hop he).kernel
  · intro roots m' hb
    exact (Machine.boot_spares roots m e m' hb he).kernel
  · intro p hp
    -- the call is refused before the answer is written
    have hspares := Machine.attemptCall_spares h p ((m.processes.get p).register .t0)
      (m.processes.get p).registers.arguments (m.stepped p)
    rw [Machine.handleCall_exec, hp]
    rw [Machine.respond_exec] at hp ⊢
    exact Machine.finish_error h _ (hspares e _ (Prod.ext hp rfl) he).kernel he

/-- Process 0 stops itself, and then asks as a server for a client. It is refused, told so and given
back, and its hart finds nobody to run. -/
theorem kernel_of_refused_stopped : ∃ m m₁ : Machine,
    Reachable [.wholeTime 0 0 64, .wholeMonitor 0 8, .socket ⟨3, .keep, .ofBits 15, 0⟩] m ∧
      ((Machine.respond 0 0).exec m).1 = .error .suspended ∧
      m₁.toKernel = m.told 0 .suspended ∧
      (Machine.handleCall 0 0).exec m =
        (do Machine.release 0; Machine.nextProcess 0 : Action (Option Pid)).exec m₁ ∧
      ((Machine.handleCall 0 0).exec m).1 = none := by
  let roots : List Capability := [.wholeTime 0 0 64, .wholeMonitor 0 8,
    .socket ⟨3, .keep, .ofBits 15, 0⟩]
  obtain ⟨m₀, h₀⟩ : ∃ m₀, m₀ = ((Operation.run 0 (.monSuspend ⟨0, 1⟩ 0)).exec
    ((Machine.nextProcess 0).exec ((Machine.boot roots).exec .initial).2).2).2 := ⟨_, rfl⟩
  have hm₀ : Reachable roots m₀ := h₀ ▸ .step (.step (.boot rfl) (.dispatch 0)) (.operation 0 _)
  let asking : Process := { m₀.processes.get 0 with
    registers := Registers.zero.setAll [(.t0, 23), (.a0, 2), (.a1, 5)] }
  obtain ⟨m, he⟩ : ∃ m : Machine, m = { m₀ with processes := m₀.processes.put 0 asking } := ⟨_, rfl⟩
  have hm : Reachable roots m := he ▸ hm₀.step (.process 0 asking rfl)
  -- process 0 has suspended itself, and then asks to receive
  have hrefused : ((Machine.respond 0 0).exec m).1 = .error .suspended := by
    rw [he]; dsimp only [asking]; rw [h₀]; decide +kernel
  have hstopped : (m.processes.get 0).status.suspended = true := by
    rw [he]; dsimp only [asking]; rw [h₀]; decide +kernel
  have hnone : ((Machine.handleCall 0 0).exec m).1 = none := by
    rw [he]; dsimp only [asking]; rw [h₀]; decide +kernel
  obtain ⟨m₁, htold, hcall⟩ := (kernel_of_refused m 0 (e := .suspended) (by decide)).2.2 0 hrefused
  rw [if_pos ⟨rfl, hstopped⟩] at hcall
  exact ⟨m, m₁, hm, hrefused, htold, hcall, hnone⟩

end SepKernel
