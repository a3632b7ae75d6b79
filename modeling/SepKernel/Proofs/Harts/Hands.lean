import SepKernel.Proofs.Machine.Calm

/-!
# Taking processes and giving them back

An operation takes at most one other process for the hart, by lending it the hart or by handing it a
message, and lets at most its caller wait. Which ones they are can be read off its answer. An
operation that is refused takes nobody and lets nobody wait.
-/

namespace SepKernel

variable {α β : Type} {m m' m₁ m₂ : Machine} {p q : Pid} {t w : Option Pid} {s : Slot}

/-! ## Processes -/

namespace Process

variable {a b : Process}

/-- Whom a monitor takes to edit it was held by nobody, and does not wait. -/
theorem acquireStopped?_status (h : a.acquireStopped? = some b) :
    a.status.busy = false ∧ b.status.busy = true ∧ b.status.wait = none := by
  unfold acquireStopped? at h
  split at h
  · next hs =>
    rw [isStopped, beq_iff_eq] at hs
    cases h
    exact ⟨by rw [hs]; rfl, rfl, by rw [hs]; rfl⟩
  · cases h

/-- Whoever is given back is held no more. -/
theorem busy_release (a : Process) : a.release.status.busy = false := by
  simp only [release]
  split <;> rfl

/-- A process that runs goes on until it is given back. -/
theorem suspend_status (ha : a.status.busy = true) :
    a.suspend.status.busy = true ∧ a.suspend.status.wait = a.status.wait := by
  simp [suspend, ha]

/-- Suspending a process takes it from no hart. -/
theorem busy_suspend (a : Process) : a.suspend.status.busy = a.status.busy := by
  simp only [suspend]
  split
  · next h =>
    simp only [Bool.and_eq_true, Bool.not_eq_true'] at h
    exact h.1.1.symm
  · rfl

end Process

/-! ## Who is held, and who waits -/

namespace Machine

/-- Is the process held? -/
def Holds (m : Machine) (p : Pid) : Prop :=
  (m.processes.get p).status.busy = true

/-- If the process is held, then it does not wait. -/
def Awake (m : Machine) (p : Pid) : Prop :=
  m.Holds p → (m.processes.get p).status.wait = none

/-- Only the process that is replaced may be held otherwise. -/
theorem holds_put {x : Process} :
    ({ m with processes := m.processes.put p x } : Machine).Holds q ↔
      if p = q then x.status.busy = true else m.Holds q := by
  rw [Holds, Processes.get_put]
  split <;> rfl

theorem awake_put_of_ne {x : Process} (h : p ≠ q) :
    ({ m with processes := m.processes.put p x } : Machine).Awake q ↔ m.Awake q := by
  rw [Awake, Holds, Processes.get_put_of_ne _ _ h]
  rfl

/-- Whether the new process is awake is a matter of its own status. -/
theorem awake_put_self {x : Process} :
    ({ m with processes := m.processes.put p x } : Machine).Awake p ↔
      (x.status.busy = true → x.status.wait = none) := by
  rw [Awake, Holds, Processes.get_put_self]

end Machine

/-- Work that takes a process, or none, and lets one wait, or none. -/
structure Hands (taken waiting : Option Pid) (m m' : Machine) : Prop where
  held : ∀ q, m'.Holds q ↔ m.Holds q ∨ taken = some q
  fresh : ∀ q, taken = some q → ¬ m.Holds q
  awake : ∀ q, waiting ≠ some q → m.Awake q → m'.Awake q

/-- Work that takes nobody, gives nobody back, and lets nobody wait who is held. -/
abbrev Steady : Machine → Machine → Prop :=
  Hands none none

structure Returns (p : Pid) (m m' : Machine) : Prop where
  held : ∀ q, m'.Holds q ↔ m.Holds q ∧ q ≠ p
  awake : ∀ q, m.Awake q → m'.Awake q

/-- One after the other: whom either of them takes is taken by both together, and whom either lets
wait may wait in the end. -/
theorem Hands.trans {t₁ t₂ w₁ w₂ : Option Pid} (h₁ : Hands t₁ w₁ m m₁) (h₂ : Hands t₂ w₂ m₁ m₂)
    (ht : ∀ q, t = some q ↔ t₁ = some q ∨ t₂ = some q)
    (hw : ∀ q, w₁ = some q ∨ w₂ = some q → w = some q) : Hands t w m m₂ where
  held q := by rw [h₂.held, h₁.held, ht, or_assoc]
  fresh q hq hm := by
    rcases (ht q).1 hq with hq | hq
    · exact h₁.fresh q hq hm
    · exact h₂.fresh q hq ((h₁.held q).2 (.inl hm))
  awake q hq ha := by
    have hq₁ : w₁ ≠ some q := fun he => hq (hw q (.inl he))
    have hq₂ : w₂ ≠ some q := fun he => hq (hw q (.inr he))
    exact h₂.awake q hq₂ (h₁.awake q hq₁ ha)

/-- Work that changes no status takes nobody. -/
theorem Calm.hands (h : Calm m m') : Hands none w m m' where
  held q := by simp [Machine.Holds, h q]
  fresh _ := by rintro ⟨⟩
  awake q _ ha := by rwa [Machine.Awake, Machine.Holds, h q]

instance : IsPreorder Machine (Hands none w) where
  refl m := (refl_of Calm m).hands
  trans _ _ _ h h' := h.trans h' (by simp) (by simp)

theorem Hands.steady (h : Hands t w m m₁) (h' : Steady m₁ m₂) : Hands t w m m₂ :=
  h.trans h' (by simp) (by simp)

theorem Steady.hands (h : Steady m m₁) (h' : Hands t w m₁ m₂) : Hands t w m m₂ :=
  h.trans h' (by simp) (by simp)

/-- Somebody waits after somebody else was taken. -/
theorem Hands.waits (h : Hands t none m m₁) (h' : Hands none w m₁ m₂) : Hands t w m m₂ :=
  h.trans h' (by simp) (by simp)

/-- Who is taken and given back was not held, and is not held. -/
theorem Hands.returned (h : Hands (some p) none m m₁) (h' : Returns p m₁ m₂) : Steady m m₂ where
  held q := by
    rw [h'.held, h.held]
    constructor
    · rintro ⟨hq | hq, hne⟩
      · exact .inl hq
      · exact absurd (Option.some.inj hq).symm hne
    · rintro (hq | hq)
      · -- whoever was held before was not the one taken
        refine ⟨.inl hq, ?_⟩
        rintro rfl
        exact h.fresh q rfl hq
      · cases hq
  fresh _ := by rintro ⟨⟩
  awake q hq ha := h'.awake q (h.awake q hq ha)

theorem Aside.hands (h : Aside m m') : Hands none w m m' := h.calm.hands

theorem Hands.before (h : Aside m m₁) (h' : Hands t w m₁ m₂) : Hands t w m m₂ :=
  Steady.hands h.hands h'

theorem acrossDeeds_steady : AcrossDeeds Steady :=
  ⟨fun h => h.hands, fun h => h.clerical.settled.calm.hands⟩

namespace Machine

open Action.Keeps

/-! ## Single processes -/

/-- A process that is not held is taken. -/
theorem setProcess_takes {x : Process} (hp : (m.processes.get p).status.busy = false)
    (hb : x.status.busy = true) (hw : x.status.wait = none) :
    Hands (some p) none m ((setProcess p x).exec m).2 := by
  constructor
  case held =>
    intro q
    refine holds_put.trans ?_
    -- it is held from now on; nobody else is concerned
    by_cases hpq : p = q
    · simp [hpq, hb]
    · simp [hpq]
  case fresh =>
    rintro q ⟨⟩ hq
    rw [Holds, hp] at hq
    cases hq
  case awake =>
    intro q _ ha
    by_cases hpq : p = q
    · subst hpq
      exact awake_put_self.2 fun _ => hw
    · exact (awake_put_of_ne hpq).2 ha

/-- A process stays held, or not, and may wait afterwards only if it is said to. -/
theorem modifyProcess_hands {f : Process → Process} (hb : ∀ x, (f x).status.busy = x.status.busy)
    (hw : w ≠ some p → ∀ x, x.status.busy = true → x.status.wait = none →
      (f x).status.wait = none) : (modifyProcess p f).Keeps (Hands none w) := by
  intro m
  constructor
  case held => -- who is held depends on a bit that the change keeps
    intro q
    refine holds_put.trans ?_
    by_cases hpq : p = q
    · simp [hpq, hb, Holds]
    · simp [hpq]
  case fresh => rintro q ⟨⟩
  case awake =>
    intro q hq ha
    by_cases hpq : p = q
    · subst hpq
      refine awake_put_self.2 fun hbusy => ?_
      rw [hb] at hbusy
      exact hw hq _ hbusy (ha hbusy)
    · exact (awake_put_of_ne hpq).2 ha

/-- Whoever is changed into a process that is not held is given back. -/
theorem modifyProcess_returns {f : Process → Process} (hf : ∀ x, (f x).status.busy = false) :
    (modifyProcess p f).Keeps (Returns p) := by
  intro m
  constructor
  case held =>
    intro q
    refine holds_put.trans ?_
    by_cases hpq : p = q
    · simp [hpq, hf]
    · simp [hpq, Ne.symm hpq]
  case awake =>
    intro q ha
    by_cases hpq : p = q
    · subst hpq
      exact awake_put_self.2 fun hbusy => by rw [hf] at hbusy; cases hbusy
    · exact (awake_put_of_ne hpq).2 ha

theorem Returns.before (h : Steady m m₁) (h' : Returns p m₁ m₂) : Returns p m m₂ where
  held q := by rw [h'.held, h.held]; simp
  awake q ha := h'.awake q (h.awake q (by simp) ha)

/-- Releasing a process gives it back. -/
theorem release_returns (p : Pid) : (release p).Keeps (Returns p) := fun m =>
  Returns.before (expect_calm .hold _ m).hands
    (modifyProcess_returns Process.busy_release _)

/-- The process that waits is still held: its hart gives it back later. -/
theorem await_waits (k : Socket) (p : Pid) (b : Slot) :
    (await k p b).Keeps (Hands none (some p)) :=
  bind ((expect_calm _ _).mono Calm.hands) fun _ =>
    bind ((modifyRegistry_calm _).mono Calm.hands) fun _ =>
      bind ((process_aside p).mono Aside.hands) fun _ =>
        bind ((expect_calm _ _).mono Calm.hands) fun _ =>
          modifyProcess_hands (fun _ => rfl) fun h => absurd rfl h

end Machine
end SepKernel
