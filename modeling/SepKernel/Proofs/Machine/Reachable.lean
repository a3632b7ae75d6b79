import SepKernel.Proofs.Machine.Boot
import SepKernel.Proofs.Machine.Calls
import SepKernel.Proofs.Machine.Sequel

/-!
# Reachable machines

A machine is reachable from some roots if it comes out of booting with them by any steps in any
order: operations under the lock, system calls, exceptions and scheduling decisions, on any hart. In
between the board moves on, and processes run, which may do anything but load their protection
registers.

Every step is a sequence of changes. So what holds after booting and is kept by each change holds of
every reachable machine.
-/

namespace SepKernel

open Relation (ReflTransGen)

variable {m m' : Machine} {roots : List Capability}

namespace Machine

/-- What can happen to a machine. -/
inductive Step (m : Machine) : Machine → Prop
  | operation (h : Hart) (op : Operation) : Step m ((op.run h).exec m).2
  | call (h : Hart) (p : Pid) : Step m ((handleCall h p).exec m).2
  | trap (p : Pid) (t : Trap) : Step m ((handleTrap p t).exec m).2
  | dispatch (h : Hart) : Step m ((nextProcess h).exec m).2
  | fetch (h : Hart) (slot now : Nat) : Step m ((fetch h slot now).exec m).2
  | release (p : Pid) : Step m ((release p).exec m).2
  /-- A process ran, or was seen to by its hart. -/
  | process (p : Pid) (q : Process) : q.bank = (m.processes.get p).bank →
      Step m { m with processes := m.processes.put p q }
  /-- The clock and the timers moved on, and the lock changed hands. -/
  | board (b : Board) (holder : Option Hart) : Step m { m with board := b, lockHolder := holder }

/-- In a step an operation is carried out, or everything is hushed. -/
theorem Step.cases (hs : Step m m') : Hushed m m' ∨ ∃ op, Performs m op m' := by
  cases hs with
  | operation h op => exact .inr ⟨op, .operation h op⟩
  | call h p =>
    -- a call amounts to an operation, or to nothing
    rcases handleCall_amounts h p m with hh | ⟨op, hop, _⟩
    · exact .inl hh
    · exact .inr ⟨op, .call h p hop⟩
  | trap p t => exact .inl (handleTrap_hushed p t m)
  | dispatch h => exact .inl (nextProcess_hushed h m)
  | fetch h slot now => exact .inl (fetch_hushed h slot now m)
  | release p => exact .inl (release_hushed p m)
  | process p q hq => exact .inl (hushed_put hq)
  | board b holder => exact .inl (hushed_board m b holder)

/-- Every step is a sequence of changes. -/
theorem Step.sequel (hs : Step m m') : Sequel m m' := by
  have hushed : ∀ {m m' : Machine}, Hushed m m' → Sequel m m' := fun hh => hh.toQuiet.sequel
  rcases hs.cases with hh | ⟨op, hp⟩
  · exact hushed hh
  · rcases hp.amounts with hh | ⟨h, m₁, h₁, h₂⟩
    · exact hushed hh
    · exact trans_of Sequel (hushed h₁) (trans_of Sequel (op.perform_sequel h m₁) (hushed h₂))

end Machine

/-- The machines that come out of booting with some roots. -/
inductive Reachable (roots : List Capability) : Machine → Prop
  | boot {m : Machine} : (Machine.boot roots).exec .initial = (.ok (), m) → Reachable roots m
  | step {m m' : Machine} : Reachable roots m → m.Step m' → Reachable roots m'

/-- The machine after booting and some operations, one after the other, each on its hart. -/
def Machine.afterAll (roots : List Capability) (ops : List (Hart × Operation)) : Machine :=
  ops.foldl (fun m op => ((op.2.run op.1).exec m).2) ((boot roots).exec .initial).2

theorem Reachable.afterAll (hb : ((Machine.boot roots).exec .initial).1 = .ok ())
    (ops : List (Hart × Operation)) : Reachable roots (Machine.afterAll roots ops) :=
  List.foldlRecOn ops _ (.boot (Prod.ext hb rfl)) fun _ hm op _ => hm.step (.operation op.1 op.2)

/-! ## The table is lineal -/

theorem Table.strung_of_links {t : Table} (hl : ∀ s, t.next s = none ∧ t.previous s = none) :
    t.Strung :=
  ⟨fun x y => by simp [hl], fun x _ => hl x, fun x => ⟨[], .last (hl x).1⟩⟩

/-- Without links there is no line, so that all its conditions hold. -/
theorem Table.lineal_of_links {t : Table} (hl : ∀ s, t.next s = none ∧ t.previous s = none)
    (hs : ∀ s, (t.get s).Sound) : t.Lineal := by
  -- without links there is nothing to be in order
  have hnot : ∀ x y, ¬ t.Before x y := by
    intro x y hb
    rw [Table.Before, Table.following_of_next_none (hl x).1] at hb
    cases hb
  constructor
  case strung => exact Table.strung_of_links hl
  case sound => exact hs
  case precedes => exact fun x y hb => absurd hb (hnot x y)
  case reaches_between => exact fun x y _ hb => absurd hb (hnot x y)

/-- A root that is accepted is sound: its range is in order. -/
theorem Capability.sound_of_isRoot {c : Capability} (h : c.isRoot = true) : c.Sound := by
  cases c <;> rintro _ ⟨⟩ <;> simp only [isRoot, decide_eq_true_eq] at h
  case time => exact h.2.1
  case memory => exact h
  case monitor => exact h.1
  case channel => exact h.1

/-- Booting makes no links, and what it installs is sound. -/
theorem boot_unlinked (hb : (Machine.boot roots).exec .initial = (.ok (), m)) :
    (∀ s, m.table.next s = none ∧ m.table.previous s = none) ∧ ∀ s, (m.table.get s).Sound := by
  -- roots are installed without links
  refine Machine.boot_keeps_any (P := fun m => (∀ s, m.table.next s = none ∧
    m.table.previous s = none) ∧ ∀ s, (m.table.get s).Sound) ?_ ?_ ?_ hb
  · exact ⟨Machine.initial_booting.links, fun s => by rw [Machine.initial_get]; rintro _ ⟨⟩⟩
  · intro m m' hq hP
    rwa [hq.table]
  · intro m m' i c hboot hc hP hr
    refine ⟨(hr.booting hboot).links, ?_⟩
    intro s
    rw [hr.table, Table.get_insertRoot]
    split
    · exact Capability.sound_of_isRoot hc
    · exact hP.2 s

theorem boot_lineal (hb : (Machine.boot roots).exec .initial = (.ok (), m)) : m.table.Lineal :=
  Table.lineal_of_links (boot_unlinked hb).1 (boot_unlinked hb).2

/-- In every reachable machine the line is in order. -/
theorem Reachable.lineal (h : Reachable roots m) : m.table.Lineal := by
  induction h with
  | boot hb => exact boot_lineal hb
  | step _ hs ih => exact lineal_of_changes (hs.sequel ih) ih

/-! ## Invariants -/

/-- What changes keep, sequences of changes keep. -/
theorem changes_keep {P : Machine → Prop}
    (hchange : ∀ m m', m.table.Lineal → P m → Change m m' → P m')
    (hc : ReflTransGen Change m m') (hl : m.table.Lineal) (hP : P m) : P m' := by
  induction hc with
  | refl => exact hP
  | tail hc hc' ih => exact hchange _ _ (lineal_of_changes hc hl) ih hc'

/-- What holds after booting and is kept by changes holds of every reachable machine. -/
theorem Reachable.invariant {P : Machine → Prop}
    (hboot : ∀ m, (Machine.boot roots).exec .initial = (.ok (), m) → P m)
    (hchange : ∀ m m', m.table.Lineal → P m → Change m m' → P m')
    (h : Reachable roots m) : P m := by
  induction h with
  | boot hb => exact hboot _ hb
  | step hr hs ih => exact changes_keep hchange (hs.sequel hr.lineal) hr.lineal ih

/-! ## The table is sized -/

/-- What booting accepts names what exists. -/
theorem boot_sized (hb : (Machine.boot roots).exec .initial = (.ok (), m)) : m.table.Sized := by
  refine Machine.boot_keeps_any (P := fun m => m.table.Sized) ?_ ?_ ?_ hb
  · intro s
    rw [Machine.initial_get]
    exact Capability.sized_null
  · intro m m' hh hm
    rwa [hh.table]
  · intro m m' i c _ hc hm hr s
    rw [hr.table, Table.get_insertRoot]
    split
    · exact Capability.sized_of_isRoot hc
    · exact hm s

/-- Changes keep all capabilities sized. -/
theorem Change.sized (hc : Change m m') (hl : m.table.Lineal) (hm : m.table.Sized) :
    m'.table.Sized := by
  rcases hc.edit with ht | he
  · rwa [ht]
  · exact he.sized hl hm

/-- Whatever the capabilities of a reachable machine name exists. -/
theorem Reachable.sized (hm : Reachable roots m) : m.table.Sized :=
  hm.invariant (P := fun m => m.table.Sized) (fun _ hb => boot_sized hb)
    fun _ _ hl hz hc => hc.sized hl hz

/-! ## Runs of a kind -/

/-- The machines that come out of booting with some roots by steps in which every operation is of a
kind, as it is carried out from one machine to the next. -/
inductive ReachableBy (kind : Machine → Operation → Machine → Prop) (roots : List Capability) :
    Machine → Prop
  | boot {m : Machine} : (Machine.boot roots).exec .initial = (.ok (), m) →
      ReachableBy kind roots m
  | hushed {m m' : Machine} : ReachableBy kind roots m → m.Step m' → Hushed m m' →
      ReachableBy kind roots m'
  | operation {m m' : Machine} {op : Operation} : ReachableBy kind roots m → m.Performs op m' →
      kind m op m' → ReachableBy kind roots m'

variable {kind : Machine → Operation → Machine → Prop}

/-- Performing an operation is a step, of one kind or the other. -/
theorem Machine.Performs.step {op : Operation} (hp : m.Performs op m') : m.Step m' := by
  cases hp with
  | operation h op => exact .operation h op
  | call h p => exact .call h p

/-- Restricted runs are runs. -/
theorem ReachableBy.reachable (h : ReachableBy kind roots m) : Reachable roots m := by
  induction h with
  | boot hb => exact .boot hb
  | hushed _ hs _ ih => exact ih.step hs
  | operation _ hp _ ih => exact ih.step hp.step

/-- A run goes on with some operations, one after the other, each on its hart. -/
theorem ReachableBy.foldl (h : ReachableBy kind roots m) (ops : List (Hart × Operation))
    (hkind : ∀ op ∈ ops, ∀ m m', kind m op.2 m') :
    ReachableBy kind roots (ops.foldl (fun m op => ((op.2.run op.1).exec m).2) m) :=
  List.foldlRecOn ops _ h fun _ hm op hop => hm.operation (.operation op.1 op.2) (hkind op hop _ _)

theorem ReachableBy.afterAll (hb : ((Machine.boot roots).exec .initial).1 = .ok ())
    (ops : List (Hart × Operation)) (hkind : ∀ op ∈ ops, ∀ m m', kind m op.2 m') :
    ReachableBy kind roots (Machine.afterAll roots ops) :=
  ReachableBy.foldl (.boot (Prod.ext hb rfl)) ops hkind

def Preserves (P : Machine → Prop) (m m' : Machine) : Prop := P m → P m'

instance (P : Machine → Prop) : IsPreorder Machine (Preserves P) where
  refl _ := id
  trans _ _ _ h h' := h' ∘ h

/-- Quiet work preserves all that is said of the table. -/
theorem Quiet.preserves {P : Table → Prop} (hq : Quiet m m') :
    Preserves (fun m => P m.table) m m' := by
  intro h
  show P m'.table
  rwa [hq.table]

/-- What holds after booting, and is kept by hushed work and by the operations of a kind, holds
after every run of that kind. -/
theorem ReachableBy.invariant {P : Machine → Prop}
    (hboot : ∀ m, (Machine.boot roots).exec .initial = (.ok (), m) → P m)
    (hhushed : ∀ m m', Hushed m m' → P m → P m')
    (hperform : ∀ m m₁ m' h op, m₁.table.Lineal → P m₁ → Hushed m m₁ →
      Hushed ((op.perform h).exec m₁).2 m' → kind m op m' → P ((op.perform h).exec m₁).2)
    (h : ReachableBy kind roots m) : P m := by
  induction h with
  | boot hb => exact hboot _ hb
  | hushed _ _ hh ih => exact hhushed _ _ hh ih
  | @operation m m' op hr hp hk ih =>
    -- around the operation of a call there is only hushed work
    rcases hp.amounts with hh | ⟨h, m₁, h₁, h₂⟩
    · exact hhushed _ _ hh ih
    · have hl : m₁.table.Lineal := by
        rw [h₁.table]
        exact hr.reachable.lineal
      exact hhushed _ _ h₂ (hperform m m₁ m' h op hl (hhushed _ _ h₁ ih) h₁ h₂ hk)

end SepKernel
