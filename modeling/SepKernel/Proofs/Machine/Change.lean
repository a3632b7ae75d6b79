import SepKernel.Proofs.Machine.Holding
import SepKernel.Proofs.Table.Edit
import SepKernel.Machine.Operation

/-!
# Changes

The kernel changes what it knows about capabilities in seven ways, each of which is a single edit of
the capability table together with what that brings with it. This is what each of them does, field
by field. Five of them are the deeds of operations that concern one capability, the other two are
the steps of a revocation. Whatever else the kernel does is quiet.
-/

namespace SepKernel

variable {m m' : Machine} {s d source target : Slot} {c : Capability} {h : Hart} {col : Fin 64}

namespace Machine

/-! ## Moving -/

/-- A capability as it arrives in its new slot: unloaded, if it changes hands. -/
def arriving (source target : Slot) (c : Capability) : Capability :=
  if source.owner = target.owner then c else c.unloaded

/-- What arrives is what was sent, but for where it sits. -/
theorem reseats_arriving (source target : Slot) (c : Capability) :
    c.Reseats (arriving source target c) := by
  unfold arriving
  split
  · exact .same c
  · exact c.reseats_unloaded

section Relocate
variable (m source target c)

/-- The capability goes to the other slot, which takes over the links. -/
theorem relocate_table :
    ((relocate source target c).exec m).2.table =
      m.table.relink source target (arriving source target c) := by
  unfold relocate arriving
  split
  · simp
  · simp [handOver_answer, (handOver_gaveUp source.owner target.owner c (m := m)).table]

/-- Its number goes along. -/
theorem relocate_genealogy :
    ((relocate source target c).exec m).2.genealogy = m.genealogy.move source target := by
  unfold relocate
  split
  · exact genealogy_push (.moved source target c) (by simp)
  · rw [genealogy_push (m := ((handOver source.owner target.owner c).exec m).2)
      (.moved source target c.unloaded) (by simp [handOver_answer]), (handOver_gaveUp ..).genealogy]
    rfl

/-- The turns of time are filled in for the new owner. -/
theorem relocate_schedule :
    ((relocate source target c).exec m).2.schedule.get h col =
      if source.owner = target.owner then m.schedule.get h col
      else (c.turn? target.owner h col).or (m.schedule.get h col) := by
  unfold relocate
  split
  · simp
  · simp [handOver_schedule]

/-- Whoever waits over a socket that is given to another process is struck out. -/
theorem relocate_registry :
    ((relocate source target c).exec m).2.registry =
      if source.owner = target.owner then m.registry else c.silence source.owner m.registry := by
  unfold relocate
  split
  · simp
  · simp [(handOver_gaveUp source.owner target.owner c (m := m)).registry]

/-- A region that is given to another process leaves the bank of the old one. -/
theorem relocate_bank (p : Pid) :
    (((relocate source target c).exec m).2.processes.get p).bank =
      if source.owner ≠ target.owner ∧ source.owner = p then c.unseat (m.processes.get p).bank
      else (m.processes.get p).bank := by
  unfold relocate
  -- within one process regions stay where they sit
  by_cases ho : source.owner = target.owner
  · simp [ho]
  · have hb := (handOver_gaveUp source.owner target.owner c (m := m)).bank p
    simp only [ho, ↓reduceIte, Action.exec_bind, expect_exec, modifyTable_exec, note_exec, ne_eq,
      not_false_eq_true, true_and] at hb ⊢
    apply hb.trans
    split
    · next hp => rw [hp]
    · rfl

end Relocate

/-! ## Deleting -/

section Discard
variable (m s c)

theorem discard_table :
    ((discardCapability s c).exec m).2.table = m.table.unlink s := by
  simp [discardCapability, vacate_exec, (giveUp_gaveUp s.owner c).table]

/-- The number is given up with the capability. -/
theorem discard_genealogy :
    ((discardCapability s c).exec m).2.genealogy = m.genealogy.drop s := by
  rw [genealogy_push (m := ((giveUp s.owner c).exec ((vacate s).exec m).2).2) (.deleted s c)
    (by simp [discardCapability]), (giveUp_gaveUp ..).genealogy, vacate_exec]
  rfl

theorem discard_schedule :
    ((discardCapability s c).exec m).2.schedule.get h col =
      if (c.turn? s.owner h col).isSome then none else m.schedule.get h col := by
  simp [discardCapability, vacate_exec, giveUp_schedule]

theorem discard_registry :
    ((discardCapability s c).exec m).2.registry = c.silence s.owner m.registry := by
  simp [discardCapability, vacate_exec, (giveUp_gaveUp s.owner c).registry]

/-- A region that is deleted leaves the bank of its owner. -/
theorem discard_bank (p : Pid) :
    (((discardCapability s c).exec m).2.processes.get p).bank =
      if s.owner = p then c.unseat (m.processes.get p).bank else (m.processes.get p).bank := by
  simp only [discardCapability, vacate_exec, Action.exec_bind, note_exec]
  rw [(giveUp_gaveUp s.owner c).bank]
  split
  · next hp => rw [hp]
  · rfl

end Discard

/-! ## Deriving -/

section Bear
variable (m source target c)

theorem bear_table :
    ((bear source target (m.table.get source) c).exec m).2.table =
      m.table.derive source target c := by
  simp [bear, setCapability_exec, (takeUp_timing target.owner c).table, Table.derive]

/-- The new capability has a number of its own, and its parent is the holder of the source. -/
theorem bear_genealogy (p : Capability) :
    ((bear source target p c).exec m).2.genealogy =
      m.genealogy.bear target (m.genealogy.holder source) := by
  rw [genealogy_push (m := ((takeUp target.owner c).exec m).2) (.derived source target c)
    (by simp [bear, setCapability_exec]), (takeUp_timing ..).genealogy]
  rfl

theorem bear_schedule (p : Capability) :
    ((bear source target p c).exec m).2.schedule.get h col =
      (c.turn? target.owner h col).or (m.schedule.get h col) := by
  simp [bear, setCapability_exec, takeUp_schedule]

theorem bear_registry (p : Capability) :
    ((bear source target p c).exec m).2.registry = m.registry := by
  simp [bear, setCapability_exec, (takeUp_timing target.owner c (m := m)).registry]

theorem bear_processes (p : Capability) :
    ((bear source target p c).exec m).2.processes = m.processes := by
  simp [bear, setCapability_exec, (takeUp_timing target.owner c (m := m)).processes]

end Bear

/-! ## Loading regions -/

section Install
variable (m s)

/-- Loading or unloading a region changes its slot and a protection register. -/
theorem install_exec (r : Region) (k : RegionIndex) : ∃ faults,
    (install s r k).exec m =
      ((), { m with
        table := m.table.set s (.pmp { r with loaded := true, slot := BitVec.ofNat 8 k })
        processes := m.processes.put s.owner { m.processes.get s.owner with
          bank := (m.processes.get s.owner).bank.load k r.access (r.address.setWidth 64) }
        journal := m.journal.push (.loaded s k)
        faults }) :=
  ⟨_, by simp [install, setCapability_exec]; rfl⟩

/-- Taking a region out of a bank changes that bank, and where the capability says that it sits. -/
theorem uninstall_exec (r : Region) : ∃ faults,
    (uninstall s r).exec m =
      ((), { m with
        table := m.table.set s (.pmp { r with loaded := false, slot := 0 })
        processes := m.processes.put s.owner { m.processes.get s.owner with
          bank := (index? 8 r.slot.toNat).elim (m.processes.get s.owner).bank
            (m.processes.get s.owner).bank.unload }
        journal := m.journal.push (.unloaded s)
        faults }) := by
  obtain ⟨_, he⟩ := freeRegister_exec (m := m) s.owner r.slot
  exact ⟨_, by simp [uninstall, setCapability_exec, he]; rfl⟩

end Install

/-! ## Taking back -/

/-- The turns that a capability of a process gets back with a child. -/
def regained? (parent child : Capability) (p : Pid) (h : Hart) (col : Fin 64) : Option Turn :=
  match parent, child with
  | .time hart s, .time _ t => turnIn? hart t.mark s.mark s.limit p h col
  | _, _ => none

/-- The turns that a capability of a process has handed out. -/
def withheld? (c : Capability) (p : Pid) (h : Hart) (col : Fin 64) : Option Turn :=
  match c with
  | .time hart s => turnIn? hart s.base s.mark s.limit p h col
  | _ => none

/-- What comes with a child goes, or goes to its parent, before the parent is written. -/
theorem reclaim_exec (parent child : Capability) : ∃ m₁ : Machine,
    (reclaim s parent d child).exec m =
      (setCapability s (parent.afterReclaiming child)).exec m₁ ∧ GaveUp child d.owner m m₁ ∧
      (parent.mayRevoke child = true → ∀ h col, m₁.schedule.get h col =
        (regained? parent child s.owner h col).or (m.schedule.get h col)) := by
  unfold reclaim
  split
  · next hart p hart' t =>
    dsimp only
    split
    · refine ⟨((assignTime s.owner hart t.mark p.mark p.limit).exec m).2, rfl,
        .of_timing (assignTime_timing ..) rfl fun _ => rfl, fun _ h col => ?_⟩
      exact assignTime_schedule ..
    · next hm =>
      refine ⟨m, rfl, .of_timing .rfl rfl fun _ => rfl, ?_⟩
      intro _ h col
      rw [regained?, turnIn?_of_le (by bv_omega), Option.none_or]
  · exact ⟨m, rfl, .of_timing .rfl rfl fun _ => rfl, fun _ _ _ => rfl⟩
  · exact ⟨m, rfl, .of_timing .rfl rfl fun _ => rfl, fun _ _ _ => rfl⟩
  · exact ⟨m, rfl, .of_timing .rfl rfl fun _ => rfl, fun _ _ _ => rfl⟩
  · next ht _ _ _ =>
    refine ⟨((giveUp d.owner child).exec m).2, rfl, giveUp_gaveUp .., ?_⟩
    intro hr h col
    -- only time reaches time, so that there are no turns to go back
    have hchild : ∀ hart t, child ≠ .time hart t := by
      rintro hart t rfl
      cases parent with
      | time hart' p => exact ht hart' p hart t rfl rfl
      | _ => cases hr
    have hturn : child.turn? d.owner h col = none := by
      cases child with
      | time hart t => exact absurd rfl (hchild hart t)
      | _ => rfl
    have hback : regained? parent child s.owner h col = none := by
      cases child with
      | time hart t => exact absurd rfl (hchild hart t)
      | _ => cases parent <;> rfl
    rw [giveUp_schedule, hturn, hback]
    rfl

structure TookBack (s d : Slot) (m m' : Machine) : Prop where
  table : m'.table = m.table.takeBack s d
  genealogy : m'.genealogy = m.genealogy.drop d
  registry : m'.registry = (m.table.get d).silence d.owner m.registry
  bank : ∀ k, (m'.processes.get k).bank =
    if d.owner = k then (m.table.get d).unseat (m.processes.get d.owner).bank
    else (m.processes.get k).bank
  schedule : (m.table.get s).mayRevoke (m.table.get d) = true → ∀ h col,
    m'.schedule.get h col =
      (regained? (m.table.get s) (m.table.get d) s.owner h col).or (m.schedule.get h col)

/-- What one step of a revocation does. -/
theorem takeBack_tookBack (s d : Slot) (m : Machine) :
    TookBack s d m ((takeBack s d).exec m).2 := by
  obtain ⟨m₁, he, hg, hs⟩ := reclaim_exec (s := s) (d := d) (m := ((vacate d).exec m).2)
    (m.table.get s) (m.table.get d)
  have hexec : (takeBack s d).exec m =
      (note (.revoked s d (m.table.get d))).exec
        ((reclaim s (m.table.get s) d (m.table.get d)).exec ((vacate d).exec m).2).2 := rfl
  -- vacating changes the table alone, so what was given up is read off the old machine
  rw [hexec, he, setCapability_exec]
  rw [vacate_exec] at hg hs
  constructor
  case table => simp [hg.table, Table.takeBack]
  case genealogy =>
    rw [genealogy_push (m := m₁) (.revoked s d (m.table.get d)) rfl, hg.genealogy]
    rfl
  case registry => exact hg.registry
  case bank => exact hg.bank
  case schedule => exact hs

structure Restored (s : Slot) (m m' : Machine) : Prop where
  table : m'.table = m.table.restore s
  genealogy : m'.genealogy = m.genealogy
  registry : m'.registry = m.registry
  processes : m'.processes = m.processes
  schedule : ∀ h col, m'.schedule.get h col =
    (withheld? (m.table.get s) s.owner h col).or (m.schedule.get h col)

/-- What the end of a revocation does. -/
theorem restore_restored (s : Slot) (m : Machine) : Restored s m ((restore s).exec m).2 := by
  -- only time has anything to give back, and only if the range has a rest
  have hexec : ∃ m₁ : Machine, (restore s).exec m =
      (setCapability s (m.table.get s).restored).exec m₁ ∧ Timing m m₁ ∧
      ∀ h col, m₁.schedule.get h col =
        (withheld? (m.table.get s) s.owner h col).or (m.schedule.get h col) := by
    unfold restore
    rw [Action.exec_bind, capability_exec]
    dsimp only
    split
    · next hart p hc =>
      split
      · refine ⟨((assignTime s.owner hart p.base p.mark p.limit).exec m).2, by rw [hc]; rfl,
          assignTime_timing .., fun h col => ?_⟩
        rw [hc]
        exact assignTime_schedule ..
      · next hm =>
        refine ⟨m, by rw [hc], .rfl, ?_⟩
        intro h col
        rw [hc, withheld?, turnIn?_of_le (by bv_omega), Option.none_or]
    · next hc =>
      refine ⟨m, rfl, .rfl, ?_⟩
      intro h col
      cases hm : m.table.get s with
      | time hart p => exact absurd hm (hc hart p)
      | _ => rfl
  obtain ⟨m₁, he, ht, hs⟩ := hexec
  rw [he, setCapability_exec]
  exact ⟨by simp [ht.table, Table.restore], ht.genealogy, ht.registry, ht.processes, hs⟩

end Machine

/-! ## Deeds and changes -/

/-- One change that an operation makes to a single capability, as its checks allow it. -/
inductive Deed (m : Machine) : Machine → Prop
  | move {source target : Slot} : m.table.get source ≠ .null → m.table.get target = .null →
      Deed m ((Machine.relocate source target (m.table.get source)).exec m).2
  | delete {s : Slot} : m.table.get s ≠ .null →
      Deed m ((Machine.discardCapability s (m.table.get s)).exec m).2
  | derive {source target : Slot} {c : Capability} :
      (m.table.get source).Derivation c → m.table.get target = .null →
      Deed m ((Machine.bear source target (m.table.get source) c).exec m).2
  | load {s : Slot} {r : Region} {k : RegionIndex} : m.table.get s = .pmp r → r.loaded = false →
      ((m.processes.get s.owner).bank.get k).isFree = true →
      Deed m ((Machine.install s r k).exec m).2
  | unload {s : Slot} {r : Region} : m.table.get s = .pmp r → r.loaded = true →
      Deed m ((Machine.uninstall s r).exec m).2

/-- One change that the kernel makes to what it knows about capabilities, or quiet work. -/
inductive Change (m : Machine) : Machine → Prop
  | quiet {m' : Machine} : Quiet m m' → Change m m'
  | deed {m' : Machine} : Deed m m' → Change m m'
  | takeBack {s d : Slot} : m.table.next s = some d →
      (m.table.get s).mayRevoke (m.table.get d) = true →
      Change m ((Machine.takeBack s d).exec m).2
  | restore {s : Slot} : m.table.get s ≠ .null →
      (∀ y, m.table.Before s y → (m.table.get s).mayRevoke (m.table.get y) = false) →
      Change m ((Machine.restore s).exec m).2

/-- A deed is one edit of the capability table. -/
theorem Deed.edit (hd : Deed m m') : m.table.Edit m'.table := by
  cases hd with
  | move hs ht =>
    rw [Machine.relocate_table]
    exact .move hs ht (Machine.reseats_arriving ..)
  | delete hs =>
    rw [Machine.discard_table]
    exact .delete hs
  | derive hd ht =>
    rw [Machine.bear_table]
    exact .derive ht hd
  | @load s r k hs => -- a region is the same capability, wherever it sits
    obtain ⟨_, he⟩ := Machine.install_exec m s r k
    rw [he]
    refine .reseat (by simp [hs]) ?_
    rw [hs]
    exact .region rfl rfl fun _ => by simp; omega
  | @unload s r hs =>
    obtain ⟨_, he⟩ := Machine.uninstall_exec m s r
    rw [he]
    refine .reseat (by simp [hs]) ?_
    rw [hs]
    exact .region rfl rfl (by simp)

/-- A change is quiet, or one edit of the capability table. -/
theorem Change.edit (hc : Change m m') : m'.table = m.table ∨ m.table.Edit m'.table := by
  cases hc with
  | quiet hq => exact .inl hq.table
  | deed hd => exact .inr hd.edit
  | takeBack hn hr =>
    rw [(Machine.takeBack_tookBack ..).table]
    exact .inr (.takeBack hn hr)
  | restore hs hr =>
    rw [(Machine.restore_restored ..).table]
    exact .inr (.restore hs hr)

/-- Changes keep the order of the line. -/
theorem Change.lineal (hc : Change m m') (h : m.table.Lineal) : m'.table.Lineal := by
  rcases hc.edit with he | he
  · rwa [he]
  · exact he.lineal h

end SepKernel
