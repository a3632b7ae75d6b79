import SepKernel.Proofs.Machine.Reachable

/-!
# The lengths of turns

The turns of a run count down to its end, and a run ends after its last slot. So no turn of the
schedule is empty, and whoever is taken for a turn gets a deadline past the slot that it begins in.
Nor is a turn longer than the frame, since each was made for a capability whose time lies within it.
-/

namespace SepKernel

variable {m m' : Machine} {roots : List Capability} {c p : Capability} {pid : Pid} {h : Hart}
  {col : Fin 64} {u : Turn}

/-! ## Turns -/

/-- Are there slots left in the turn, if there is one? -/
def Turn.Unspent (o : Option Turn) : Prop :=
  ∀ u, o = some u → 0 < u.length

/-- Can a turn come from a capability of time? Then there are slots left in it, and they lie within
that time. -/
def Capability.Allots (c : Capability) (u : Turn) : Prop :=
  ∃ hart s, c = .time hart s ∧ 0 < u.length ∧ u.length ≤ s.limit.toNat

namespace Capability

/-- A turn within the range lasts until the end of the range. -/
theorem allots_of_turnIn? {hart : BitVec 8} {s : Span} {first last : BitVec 16}
    (hle : last ≤ s.limit) (hu : turnIn? hart first last s.limit pid h col = some u) :
    (time hart s).Allots u := by
  rw [turnIn?, Option.ite_none_right_eq_some] at hu
  obtain ⟨⟨_, _, hl⟩, hu⟩ := hu
  cases hu
  have hle : last.toNat ≤ s.limit.toNat := hle
  refine ⟨hart, s, rfl, ?_, Nat.sub_le _ _⟩
  show 0 < s.limit.toNat - col.val
  omega

/-- The turns of a capability are within its range. -/
theorem allots_of_turn? (hu : c.turn? pid h col = some u) : c.Allots u := by
  cases c with
  | time hart s => exact allots_of_turnIn? (BitVec.le_refl _) hu
  | _ => cases hu

/-- What a parent gets back from a child is within its own range. -/
theorem allots_of_regained? (hp : p.Sound) (hu : Machine.regained? p c pid h col = some u) :
    p.Allots u := by
  cases p <;> cases c
  case time.time hart s hart' t => exact allots_of_turnIn? (hp s rfl).2 hu
  all_goals cases hu

/-- So is what it gets back when it is restored. -/
theorem allots_of_withheld? (hp : p.Sound) (hu : Machine.withheld? p pid h col = some u) :
    p.Allots u := by
  cases p with
  | time hart s => exact allots_of_turnIn? (hp s rfl).2 hu
  | _ => cases hu

/-- What a child allots, its parent could have allotted. -/
theorem Derivation.allots (hd : p.Derivation c) (hu : c.Allots u) : p.Allots u := by
  obtain ⟨hart, s, rfl, hpos, hle⟩ := hu
  cases hd with
  | time hc => exact ⟨_, _, rfl, hpos, Nat.le_trans hle hc.2⟩

/-- A turn is not empty, and not longer than the frame. -/
theorem Allots.length_bounds (hu : c.Allots u) (hc : c.Sized) :
    0 < u.length ∧ u.length ≤ frameSlots := by
  obtain ⟨hart, s, rfl, hpos, hle⟩ := hu
  exact ⟨hpos, Nat.le_trans hle hc.2⟩

end Capability

/-! ## Schedules -/

/-- Where a capability allots the turns that are put over the schedule, any other was there
before. -/
theorem Machine.allots_of_or {s : Slot} {o : Option Turn}
    (ho : o = some u → (m.table.get s).Allots u) (hu : o.or (m.schedule.get h col) = some u) :
    m.schedule.get h col = some u ∨ ∃ s, (m.table.get s).Allots u := by
  rcases Option.or_eq_some_iff.1 hu with hu | ⟨_, hu⟩
  · exact .inr ⟨s, ho hu⟩
  · exact .inl hu

/-- The turns that a deed adds to the schedule come from the capabilities before it. -/
theorem Deed.allots (hd : Deed m m') (hu : m'.schedule.get h col = some u) :
    m.schedule.get h col = some u ∨ ∃ s, (m.table.get s).Allots u := by
  cases hd with
  | move =>
    rw [Machine.relocate_schedule] at hu
    split at hu
    · exact .inl hu
    · exact Machine.allots_of_or Capability.allots_of_turn? hu
  | delete =>
    rw [Machine.discard_schedule] at hu
    split at hu
    · cases hu
    · exact .inl hu
  | derive hd => -- what the child allots, the parent could have allotted
    rw [Machine.bear_schedule] at hu
    exact Machine.allots_of_or (fun hu => hd.allots (Capability.allots_of_turn? hu)) hu
  | @load s r k =>
    obtain ⟨_, he⟩ := Machine.install_exec m s r k
    rw [he] at hu
    exact .inl hu
  | @unload s r =>
    obtain ⟨_, he⟩ := Machine.uninstall_exec m s r
    rw [he] at hu
    exact .inl hu

/-- A turn in the schedule has been there before, or a capability allots it. -/
theorem Change.allots (hc : Change m m') (hl : m.table.Lineal)
    (hu : m'.schedule.get h col = some u) :
    m.schedule.get h col = some u ∨ ∃ s, (m.table.get s).Allots u := by
  -- a turn is new only if a capability allots it
  cases hc with
  | quiet hq =>
    rw [hq.schedule] at hu
    exact .inl hu
  | deed hd => exact hd.allots hu
  | @takeBack s d hn hr =>
    rw [(Machine.takeBack_tookBack s d m).schedule hr] at hu
    exact Machine.allots_of_or (Capability.allots_of_regained? (hl.sound s)) hu
  | @restore s =>
    rw [(Machine.restore_restored s m).schedule] at hu
    exact Machine.allots_of_or (Capability.allots_of_withheld? (hl.sound s)) hu

/-- Are there slots left in every turn of the schedule, and no more than the frame has? -/
def Machine.Bounded (m : Machine) : Prop :=
  ∀ h col u, m.schedule.get h col = some u → 0 < u.length ∧ u.length ≤ frameSlots

/-- Changes keep the turns within their bounds. -/
theorem Change.bounded (hc : Change m m') (hl : m.table.Lineal) (hz : m.table.Sized)
    (hm : m.Bounded) : m'.Bounded := by
  intro h col u hu
  rcases hc.allots hl hu with hu | ⟨s, hs⟩
  · exact hm h col u hu
  · exact hs.length_bounds (hz s)

/-- The turns of the roots are within their bounds. -/
theorem boot_bounded (hb : (Machine.boot roots).exec .initial = (.ok (), m)) : m.Bounded := by
  refine Machine.boot_keeps_any (P := Machine.Bounded) ?_ ?_ ?_ hb
  · intro h col u hu
    simp [Machine.initial, Kernel.blank, Schedule.blank, Schedule.get] at hu
  · intro m m' hh hm h col
    rw [hh.schedule]
    exact hm h col
  · intro m m' i c _ hc hm hr h col u hu
    rw [hr.schedule] at hu
    rcases Option.or_eq_some_iff.1 hu with hu | ⟨_, hu⟩
    · exact (Capability.allots_of_turn? hu).length_bounds (Capability.sized_of_isRoot hc)
    · exact hm h col u hu

/-- In every reachable machine, no turn is empty or longer than the frame. -/
theorem Reachable.bounded (hm : Reachable roots m) : m.Bounded := by
  refine (hm.invariant (P := fun m => m.table.Sized ∧ m.Bounded) ?_ ?_).2
  · exact fun m hb => ⟨boot_sized hb, boot_bounded hb⟩
  · exact fun m m' hl hP hc => ⟨hc.sized hl hP.1, hc.bounded hl hP.1 hP.2⟩

def Machine.Unspent (m : Machine) : Prop :=
  ∀ h col, Turn.Unspent (m.schedule.get h col)

theorem Quiet.unspent_iff (hq : Quiet m m') : m'.Unspent ↔ m.Unspent := by
  rw [Machine.Unspent, Machine.Unspent, hq.schedule]

theorem Reachable.unspent (hm : Reachable roots m) : m.Unspent :=
  fun h col u hu => (hm.bounded h col u hu).1

/-! ## Deadlines -/

/-- Whoever is chosen to run has a turn in a slot, and the end of that turn for its deadline. -/
theorem Schedule.deadline_of_choose? {s : Schedule} {ps : Processes} {now patience : Nat}
    {c : Choice} (hc : s.choose? ps h now patience = some c) :
    ∃ t, s.get h (column c.slot) = some t ∧
      c.process.deadline = (c.slot + t.length) * slotTicks := by
  unfold choose? at hc
  obtain ⟨slot, _, hslot⟩ := List.exists_of_findSome?_eq_some hc
  obtain ⟨r, hr, rfl⟩ := Option.map_eq_some_iff.1 hslot
  -- the turn that was fetched, and how long it lasts
  unfold fetch? at hr
  obtain ⟨t, ht, hr⟩ := Option.bind_eq_some_iff.1 hr
  split at hr
  · cases hr
  obtain ⟨q, _, hr⟩ := Option.bind_eq_some_iff.1 hr
  cases hr
  exact ⟨t, ht, rfl⟩

/-- Whoever is chosen to run gets a deadline that leaves time for the next decision. -/
theorem Machine.Unspent.overheadTicks_le (hm : m.Unspent) {ps : Processes} {now patience : Nat}
    {c : Schedule.Choice} (hc : m.schedule.choose? ps h now patience = some c) :
    overheadTicks ≤ c.process.deadline := by
  obtain ⟨t, ht, hd⟩ := Schedule.deadline_of_choose? hc
  have hpos : 1 ≤ c.slot + t.length := Nat.le_add_left_of_le (hm h _ t ht)
  calc overheadTicks ≤ 1 * slotTicks := by decide
    _ ≤ (c.slot + t.length) * slotTicks := Nat.mul_le_mul_right _ hpos
    _ = c.process.deadline := hd.symm

/-- That deadline comes at most one frame after the slot. -/
theorem Machine.Bounded.deadline_le (hm : m.Bounded) {ps : Processes} {now patience : Nat}
    {c : Schedule.Choice} (hc : m.schedule.choose? ps h now patience = some c) :
    c.process.deadline ≤ (c.slot + frameSlots) * slotTicks := by
  obtain ⟨t, ht, hd⟩ := Schedule.deadline_of_choose? hc
  rw [hd]
  exact Nat.mul_le_mul_right _ (Nat.add_le_add_left (hm h _ t ht).2 _)

end SepKernel
