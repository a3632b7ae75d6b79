import SepKernel.Proofs.Harts.Handover
import SepKernel.Proofs.Machine.Calls

/-!
# The turn of a hart

Between two calls of the kernel a hart runs a process, or none. In a call of the kernel the process
that it ran is given back, unless it goes on, and the process that it is to run next is taken. This
holds of scheduling decisions, exceptions, timer interrupts and system calls, however a system call
ends.
-/

namespace SepKernel

variable {m m' m₁ m₂ : Machine} {p : Pid} {t w before after : Option Pid}

/-- A hart that ran one process, or none, runs another one then, or none. -/
structure Turns (before after : Option Pid) (m m' : Machine) : Prop where
  held : ∀ q, m'.Holds q ↔ m.Holds q ∧ before ≠ some q ∨ after = some q
  fresh : ∀ q, after = some q → m.Holds q → before = some q
  awake : (∀ q, m.Awake q) → ∀ q, m'.Awake q

/-- An idle hart takes a process. -/
theorem Hands.turns (h : Hands t none m m') : Turns none t m m' where
  held q := by simp [h.held]
  fresh q hq hm := absurd hm (h.fresh q hq)
  awake ha q := h.awake q (by simp) (ha q)

/-- The hart goes on with its process. -/
theorem Hands.stays (h : Steady m m') (hp : m.Holds p) : Turns (some p) (some p) m m' where
  held q := by
    rw [h.held]
    by_cases hpq : p = q
    · simp [← hpq, hp]
    · simp [hpq]
  fresh _ hq _ := hq
  awake ha q := h.awake q (by simp) (ha q)

/-- The hart gives its process back, which alone may wait. -/
theorem Hands.leaves (h : Hands t w m m₁) (hw : ∀ q, w = some q → p = q) (hp : m.Holds p)
    (h' : Returns p m₁ m₂) : Turns (some p) t m m₂ where
  held q := by
    rw [h'.held, h.held, or_and_right, ne_comm, ne_eq, ne_eq, Option.some_inj]
    refine or_congr_right (and_iff_left_of_imp ?_)
    rintro ht rfl
    exact h.fresh p ht hp
  fresh q hq hm := absurd hm (h.fresh q hq)
  awake ha q hq := by
    have hqp : q ≠ p := ((h'.held q).1 hq).2
    exact h'.awake q (h.awake q (fun he => hqp (hw q he).symm) (ha q)) hq

/-- A hart that gave its process back takes the next one. -/
theorem Turns.next (h : Turns before none m m₁) (h' : Hands t none m₁ m₂) :
    Turns before t m m₂ where
  held q := by rw [h'.held, h.held]; simp
  fresh q hq hm := by
    by_contra hne
    exact h'.fresh q hq ((h.held q).2 (.inl ⟨hm, hne⟩))
  awake ha q := h'.awake q (by simp) (h.awake ha q)

/-! ## Dispatching -/

namespace Machine

open Action.Keeps

/-- A scheduling decision takes whom it answers. -/
theorem nextProcess_hands (h : Hart) (m : Machine) :
    Hands ((nextProcess h).exec m).1 none m ((nextProcess h).exec m).2 := by
  unfold nextProcess
  rw [Action.exec_bind]
  dsimp only [Action.exec_get]
  split
  · next c hc =>
    obtain ⟨q₀, hq₀, hq⟩ := Schedule.acquire?_of_choose? hc
    obtain ⟨hidle, hrun⟩ := Process.acquire?_status hq₀
    -- a process is taken that was idle
    have htakes : Hands (some c.pid) none m ((setProcess c.pid c.process).exec m).2 :=
      setProcess_takes hidle (by rw [hq, hrun]; rfl) (by rw [hq, hrun]; rfl)
    simp only [Action.exec_bind, Action.exec_pure]
    have hnoted := htakes.steady (note_calm (.fetched h c.pid (Schedule.column c.slot)) _).hands
    have hexpected := hnoted.steady
      (expect_calm .deadline (decide (overheadTicks ≤ c.process.deadline)) _).hands
    exact hexpected.steady (modifyBoard_calm _ _).hands
  · simp only [Action.exec_bind, Action.exec_pure]
    exact (modifyBoard_calm _ m).hands

/-- The timer interrupt of a hart: its process is given back, and the hart looks for another. -/
def handleTimer (h : Hart) (p : Pid) : Action (Option Pid) := do
  release p
  nextProcess h

/-- An interrupted hart turns from its process to the next one. -/
theorem handleTimer_turns (h : Hart) (hp : m.Holds p) :
    Turns (some p) ((handleTimer h p).exec m).1 m ((handleTimer h p).exec m).2 := by
  have hgiven : Turns (some p) none m ((release p).exec m).2 :=
    (refl_of Steady m).leaves (by simp) hp (release_returns p m)
  exact hgiven.next (nextProcess_hands h _)

/-- A trap leaves the hart with its process. -/
theorem handleTrap_turns (e : Trap) (hp : m.Holds p) :
    Turns (some p) (some ((handleTrap p e).exec m).1) m ((handleTrap p e).exec m).2 := by
  simp only [handleTrap, Action.exec_bind, Action.exec_pure]
  have hcalm := modifyProcess_calm p (f := fun q =>
    { q with registers := q.registers.deliver e }) fun _ => rfl
  exact Hands.stays (trans_of Calm (note_calm (.trapped p e) m) (hcalm _)).hands hp

/-! ## System calls -/

/-- The outcome says whether the caller sleeps. Nobody is taken. -/
theorem performOwn_hands (h : Hart) (p : Pid) (c : OwnCall) (m : Machine) :
    Hands ((performOwn h p c).exec m).1.taken (((performOwn h p c).exec m).1.waiting p) m
      ((performOwn h p c).exec m).2 := by
  have hcalm : ∀ {w} {f : Process → Process}, (∀ q, (f q).status = q.status) →
      Hands none w m ((modifyProcess p f).exec m).2 := fun hf => (modifyProcess_calm p hf m).hands
  -- a sleep ends the turn, and the other calls only fill registers
  unfold performOwn
  split
  all_goals simp only [Action.exec_bind, Action.exec_pure]
  · exact refl_of Steady m
  · exact refl_of Steady m
  · exact refl_of Steady m
  · exact refl_of Steady m
  · exact hcalm fun _ => rfl
  · exact refl_of Steady m
  · exact hcalm fun _ => rfl
  · next time =>
    split
    · have hsleep : Action.Keeps (Hands none (some p)) (modifyProcess p (·.sleep time)) :=
        modifyProcess_hands (fun _ => rfl) fun hp => absurd rfl hp
      have hsuccess : Steady m ((modifyProcess p .reportSuccess).exec m).2 := hcalm fun _ => rfl
      simp only [Action.exec_bind, Action.exec_pure]
      exact hsuccess.hands (Steady.hands (expect_calm _ _ _).hands (hsleep _))
    · exact hcalm fun _ => rfl

/-- The outcome of a system call says who was taken, and whether the caller waits. -/
theorem attemptCall_hands (h : Hart) (p : Pid) (number : Word) (arguments : Vector Word 8)
    (m : Machine) :
    (attemptCall h p number arguments).HandsAt Outcome.taken (Outcome.waiting p) m := by
  unfold attemptCall
  refine .bind (.except _) (fun c => .bind (.lift ((note_calm _).mono Calm.hands)) fun _ m => ?_) m
  cases c with
  | own c => exact performOwn_hands h p c m
  | shared c =>
    refine Attempt.HandsAt.map ?_
    refine Attempt.HandsAt.bind ((lock_calm h).mono Calm.hands) (fun _ => ?_) m
    refine (c.operation p).perform_hands h fun s hs => ?_
    cases c <;> cases hs <;> rfl

/-- The caller is told how its call ended. The hart goes on with it if nobody was taken and it does
not wait, or with whoever was taken. -/
theorem conclude_ends (p : Pid) (number : Word) {r : Except Error Outcome}
    (hr : Ended Outcome.taken (Outcome.waiting p) r m m₁) :
    (((conclude p number r).exec m₁).1 = some p ∧ Steady m ((conclude p number r).exec m₁).2) ∨
      Hands ((conclude p number r).exec m₁).1 (some p) m ((conclude p number r).exec m₁).2 := by
  have hcalm : ∀ {w} {f : Process → Process}, (∀ q, (f q).status = q.status) →
      Hands none w m₁ ((modifyProcess p f).exec m₁).2 :=
    fun hf => (modifyProcess_calm p hf m₁).hands
  unfold conclude
  split
  all_goals simp only [Action.exec_bind, Action.exec_pure]
  · -- the caller goes on: it is told a value, success or an error
    exact .inl ⟨trivial, hr.steady (hcalm fun _ => rfl)⟩
  · exact .inl ⟨trivial, hr.steady (hcalm fun _ => rfl)⟩
  · exact .inl ⟨trivial, hr.steady (hcalm fun _ => rfl)⟩
  · -- the hart leaves its caller
    exact .inr hr
  · exact .inr (hr.waits (hcalm fun _ => rfl))
  · exact .inr hr
  · exact .inr (hr.waits (hcalm fun _ => rfl))
  · next e _ =>
    split
    all_goals simp only [Action.exec_bind, Action.exec_pure]
    · exact .inr (hr.waits (hcalm fun _ => rfl))
    · have hnoted := hr.steady (note_calm (.callFailed p number e) m₁).hands
      have hreport := modifyProcess_calm p (f := (·.report e)) fun _ => rfl
      exact .inl ⟨trivial, hnoted.steady (hreport _).hands⟩

/-- However a system call ends, the hart gives its caller back exactly if it goes on with somebody
else. -/
theorem finish_turns (h : Hart) (number : Word) {r : Except Error Outcome} (hp : m.Holds p)
    (hr : Ended Outcome.taken (Outcome.waiting p) r m m₁) :
    Turns (some p) ((finish h p number r).exec m₁).1 m ((finish h p number r).exec m₁).2 := by
  have hends := conclude_ends p number hr
  unfold finish
  rw [Action.exec_bind]
  generalize (conclude p number r).exec m₁ = c at hends ⊢
  obtain ⟨next, m₂⟩ := c
  rcases hends with ⟨rfl, hsteady⟩ | hhands
  · dsimp only
    rw [if_pos rfl]
    exact hsteady.stays hp
  · have hleaves := hhands.leaves (fun q => Option.some.inj) hp (release_returns p m₂)
    cases next with
    | none => exact hleaves.next (nextProcess_hands h _)
    | some q =>
      -- whoever was taken was not held, and the caller is
      have hqp : q ≠ p := by
        rintro rfl
        exact hhands.fresh q rfl hp
      dsimp only
      rw [if_neg hqp]
      exact hleaves

/-- What the first part of a call answers says who was taken, and whether the caller waits. -/
theorem respond_ended (h : Hart) (p : Pid) (m : Machine) :
    Ended Outcome.taken (Outcome.waiting p) ((respond h p).exec m).1 m
      ((respond h p).exec m).2 := by
  let step (q : Process) := q.setRegister .pc (q.register .pc + 4)
  have hstepped : Steady m (m.stepped p) :=
    (modifyProcess_calm p (f := step) (fun _ => rfl) m).hands
  rw [respond_exec]
  exact .before hstepped (attemptCall_hands h p _ _ (m.stepped p))

/-- A system call turns the hart from its caller to whom the call answers. -/
theorem handleCall_turns (h : Hart) (hp : m.Holds p) :
    Turns (some p) ((handleCall h p).exec m).1 m ((handleCall h p).exec m).2 := by
  rw [handleCall_exec]
  exact finish_turns h _ hp (respond_ended h p m)

end Machine
end SepKernel
