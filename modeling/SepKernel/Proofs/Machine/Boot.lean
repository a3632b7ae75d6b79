import SepKernel.Machine.Boot
import SepKernel.Proofs.Machine.Change

/-!
# After booting

Booting puts the roots into the first slots of process 0, each in a line of its own. What holds of
the empty machine, and is kept when one more root is installed, holds of the booted machine.
-/

namespace SepKernel

variable {m m' : Machine} {roots : List Capability} {c : Capability} {i : SlotIndex}
  {h : Hart} {col : Fin 64}

namespace Machine

/-! ## One root -/

structure Rooted (i : SlotIndex) (c : Capability) (m m' : Machine) : Prop where
  made : m' = ((installRoot i c).exec m).2
  table : m'.table = m.table.insertRoot ⟨0, i⟩ c
  genealogy : m'.genealogy = m.genealogy.bear ⟨0, i⟩ none
  schedule : ∀ h col, m'.schedule.get h col = (c.turn? 0 h col).or (m.schedule.get h col)
  registry : m'.registry = m.registry
  processes : m'.processes = m.processes

/-- What installing a root does, in terms of the table, the journal and the schedule. -/
theorem installRoot_rooted (i : SlotIndex) (c : Capability) (m : Machine) :
    Rooted i c m ((installRoot i c).exec m).2 := by
  have hexec : ∃ m₁ : Machine, m₁.schedule = m.schedule ∧ m₁.genealogy = m.genealogy ∧
      m₁.table = m.table.insertRoot ⟨0, i⟩ c ∧ m₁.registry = m.registry ∧
      m₁.processes = m.processes ∧
      (installRoot i c).exec m = (note (.booted i c)).exec ((takeUp 0 c).exec m₁).2 :=
    ⟨((modifyTable (·.insertRoot ⟨0, i⟩ c)).exec
      ((expect .slot (m.table.get ⟨0, i⟩).isNull).exec m).2).2, by simp, by simp [genealogy],
      by simp, by simp, by simp, rfl⟩
  obtain ⟨m₁, hs, hg, ht, hr, hp, he⟩ := hexec
  have hup := takeUp_timing (m := m₁) 0 c
  rw [he]
  constructor
  case made => rw [he]
  case table => exact hup.table.trans ht
  case genealogy =>
    rw [genealogy_push (m := ((takeUp 0 c).exec m₁).2) (.booted i c) rfl, hup.genealogy, hg,
      Genealogy.after_booted]
  case schedule =>
    intro h col
    show ((takeUp 0 c).exec m₁).2.schedule.get h col = _
    rw [takeUp_schedule, hs]
  case registry => exact hup.registry.trans hr
  case processes => exact hup.processes.trans hp

/-! ## All roots -/

/-- The table of a machine that is being booted: roots in the first slots of process 0, and no
links. -/
structure Booting (first : Nat) (m : Machine) : Prop where
  vacant : ∀ i : SlotIndex, first ≤ i → m.table.get ⟨0, i⟩ = .null
  links : ∀ s, m.table.next s = none ∧ m.table.previous s = none

/-- After a root has been installed, the slots that follow are vacant. -/
theorem Rooted.booting (hr : Rooted i c m m') (hb : Booting i m) : Booting (i + 1) m' := by
  constructor
  case vacant => -- the next root goes into the next slot
    intro j hj
    have hij : (⟨0, i⟩ : Slot) ≠ ⟨0, j⟩ := by
      simp only [ne_eq, Slot.mk.injEq, Fin.ext_iff]
      omega
    rw [hr.table, Table.get_insertRoot, if_neg hij]
    exact hb.vacant j (by omega)
  case links =>
    intro s
    rw [hr.table, Table.next, Table.previous, Table.entry_insertRoot]
    split
    · exact ⟨rfl, rfl⟩
    · exact hb.links s

/-- What is kept by installing one root after another is kept by installing all of them. `D` is
what the list says about any two roots. -/
theorem installRoots_keeps {P : Machine → Prop} {D : Capability → Capability → Prop} {first : Nat}
    (hstep : ∀ m m' (i : SlotIndex) c, Booting i m → c.isRoot = true →
      (∀ s, m.table.get s ≠ .null → D (m.table.get s) c) → P m → Rooted i c m m' → P m')
    (hroots : ∀ c ∈ roots, c.isRoot = true) (hpair : roots.Pairwise D)
    (hlength : first + roots.length ≤ 32) (hb : Booting first m)
    (hD : ∀ s, m.table.get s ≠ .null → ∀ c ∈ roots, D (m.table.get s) c) (hP : P m) :
    P ((installRoots first roots).exec m).2 := by
  induction roots generalizing first m with
  | nil => exact hP
  | cons c cs ih =>
    simp only [List.length_cons] at hlength
    have hf : first < 32 := by omega
    have hr := installRoot_rooted ⟨first, hf⟩ c m
    have hexec : (installRoots first (c :: cs)).exec m =
        (installRoots (first + 1) cs).exec ((installRoot ⟨first, hf⟩ c).exec m).2 := by
      rw [installRoots, dif_pos hf]
      rfl
    obtain ⟨hc, hcs⟩ := List.pairwise_cons.1 hpair
    -- the other roots go into the machine that has this one already
    rw [hexec]
    refine ih (fun d hd => hroots d (.tail _ hd)) hcs (by omega) (hr.booting hb) ?_ ?_
    · intro s hs d hd
      rw [hr.table, Table.get_insertRoot] at hs ⊢
      split at hs
      · next he =>
        rw [if_pos he]
        exact hc d hd
      · next he =>
        rw [if_neg he]
        exact hD s hs d (.tail _ hd)
    · exact hstep m _ ⟨first, hf⟩ c hb (hroots c (.head _)) (fun s hs => hD s hs c (.head _)) hP hr

/-! ## The whole boot -/

theorem initial_get (s : Slot) : Machine.initial.table.get s = .null :=
  Table.get_blank s

/-- Before booting, all slots are. -/
theorem initial_booting : Booting 0 Machine.initial where
  vacant i _ := initial_get _
  links s := by
    simp [initial, Kernel.blank, Table.next, Table.previous, Entry.vacant]

/-- What is kept by resetting one process is kept by resetting all. -/
theorem resetProcesses_keeps {R : Machine → Machine → Prop} [IsPreorder Machine R]
    (hreset : ∀ p, (modifyProcess p (·.reset (if p = 0 then .ready else .stopped))).Keeps R) :
    resetProcesses.Keeps R := by
  suffices ∀ ps : List Pid, Action.Keeps R
      (ps.forM fun p => modifyProcess p (·.reset (if p = 0 then .ready else .stopped))) from this _
  intro ps
  induction ps with
  | nil => exact .pure _
  | cons p ps ih =>
    rw [List.forM_eq_forM, List.forM_cons]
    exact .bind (hreset p) fun _ => ih

theorem resetProcesses_hushed : resetProcesses.Keeps Hushed :=
  resetProcesses_keeps fun p => modifyProcess_hushed p fun _ => rfl

/-- What a successful boot has checked, and what is left to do once the roots are installed. -/
theorem boot_exec (hb : (boot roots).exec .initial = (.ok (), m)) :
    roots.length ≤ 32 ∧ (∀ c ∈ roots, c.isRoot = true) ∧
      m = ((do resetProcesses; note (.initialised roots.length) : Action Unit).exec
        ((installRoots 0 roots).exec .initial).2).2 := by
  unfold boot at hb
  dsimp only at hb
  split at hb
  · cases hb
  · next hlength =>
    split at hb
    · cases hb
    · next hroots =>
      simp only [Bool.not_eq_true', Bool.not_eq_false, List.all_eq_true] at hroots
      cases hb
      exact ⟨Nat.le_of_not_lt hlength, hroots, rfl⟩

/-- Booting succeeds only with at most 32 capabilities that are roots, and after them does nothing
that concerns the capabilities. -/
theorem boot_ok (hb : (boot roots).exec .initial = (.ok (), m)) :
    roots.length ≤ 32 ∧ (∀ c ∈ roots, c.isRoot = true) ∧
      Hushed ((installRoots 0 roots).exec .initial).2 m := by
  obtain ⟨hlength, hroots, rfl⟩ := boot_exec hb
  refine ⟨hlength, hroots, ?_⟩
  exact Action.Keeps.bind resetProcesses_hushed (fun _ => (note_aside fun _ => rfl).hushed) _

/-- What holds of the empty machine, and is kept by installing a root and by hushed work, holds
after booting. -/
theorem boot_keeps {P : Machine → Prop} {D : Capability → Capability → Prop}
    (hinit : P .initial) (hhushed : ∀ m m', Hushed m m' → P m → P m')
    (hstep : ∀ m m' (i : SlotIndex) c, Booting i m → c.isRoot = true →
      (∀ s, m.table.get s ≠ .null → D (m.table.get s) c) → P m → Rooted i c m m' → P m')
    (hpair : roots.Pairwise D) (hb : (boot roots).exec .initial = (.ok (), m)) : P m := by
  obtain ⟨hlength, hroots, hq⟩ := boot_ok hb
  refine hhushed _ _ hq (installRoots_keeps hstep hroots hpair (by omega) initial_booting ?_ hinit)
  intro s hs
  exact absurd (initial_get s) hs

/-- The same, when it does not matter what else is installed. -/
theorem boot_keeps_any {P : Machine → Prop}
    (hinit : P .initial) (hhushed : ∀ m m', Hushed m m' → P m → P m')
    (hstep : ∀ m m' (i : SlotIndex) c, Booting i m → c.isRoot = true → P m → Rooted i c m m' → P m')
    (hb : (boot roots).exec .initial = (.ok (), m)) : P m := by
  refine boot_keeps (D := fun _ _ => True) hinit hhushed ?_ ?_ hb
  · intro m m' i c hboot hc _
    exact hstep m m' i c hboot hc
  · exact List.pairwise_of_forall fun _ _ => trivial

end Machine
end SepKernel
