import SepKernel.Proofs.Machine.Owner

/-!
# The schedule is a picture of the time capabilities

A process has a turn on a hart at a position of the frame if and only if one of its time
capabilities has that slot in its free part. Every change that takes or gives turns edits the
schedule for itself; that it never overwrites the turn of another is due to the slot having at most
one owner.
-/

namespace SepKernel

open Relation (ReflTransGen)

variable {m m' : Machine} {roots : List Capability} {t t' : Table} {c p d : Capability}
  {x y z s : Slot} {pid : Pid} {h : Hart} {col : Fin 64} {u : Turn}

/-! ## Turns and their owners -/

/-- A time slot of a hart, as the schedule counts it. -/
def Resource.ofTurn (h : Hart) (col : Fin 64) : Resource :=
  .turn (BitVec.ofNat 8 h) (BitVec.ofNat 16 col)

/-- A turn in some slots of a hart is at a position between them. -/
theorem bounds_of_turnIn? {hart : BitVec 8} {first last limit : BitVec 16}
    (hu : turnIn? hart first last limit pid h col = some u) :
    hart = BitVec.ofNat 8 h ∧ first ≤ BitVec.ofNat 16 col ∧ BitVec.ofNat 16 col < last := by
  rw [turnIn?, Option.ite_none_right_eq_some] at hu
  obtain ⟨⟨hh, hf, hl⟩, -⟩ := hu
  refine ⟨?_, ?_, ?_⟩
  · apply BitVec.eq_of_toNat_eq
    simp only [BitVec.toNat_ofNat]
    omega
  · show first.toNat ≤ (BitVec.ofNat 16 col).toNat
    simp only [BitVec.toNat_ofNat]
    omega
  · show (BitVec.ofNat 16 col).toNat < last.toNat
    simp only [BitVec.toNat_ofNat]
    omega

namespace Capability

theorem turn?_eq_some_iff : c.turn? pid h col = some u ↔
    ∃ hart s, c = .time hart s ∧ (hart.toNat = h.val ∧ s.mark.toNat ≤ col.val ∧
      col.val < s.limit.toNat) ∧ u = ⟨pid, s.limit.toNat - col⟩ := by
  cases c <;> simp [turn?, turnIn?, eq_comm]

/-- Whoever has a turn owns it. -/
theorem owns_of_turn? (hu : c.turn? pid h col = some u) : c.Owns (.ofTurn h col) := by
  cases c with
  | time hart s => exact bounds_of_turnIn? hu
  | _ => cases hu

/-- Whether a capability has a turn does not depend on whose it is. -/
theorem turn?_eq_none_congr (q : Pid) (hn : c.turn? pid h col = none) : c.turn? q h col = none := by
  cases c <;> simp_all [turn?, turnIn?]

/-- Where a child has no turn, its parent keeps what it has. -/
theorem Derivation.turn?_afterDeriving (hd : p.Derivation c) (hp : p.Sound)
    (hn : c.turn? pid h col = none) : (p.afterDeriving c).turn? pid h col = p.turn? pid h col := by
  cases hd with
  | @time hart s s' hc hf =>
    have hs : s.Ordered := hp s rfl
    obtain ⟨hb, hl⟩ := hc
    obtain ⟨hm, hbl⟩ := hf
    have hsm : s.mark = s'.mark := by rw [← hm, hb]
    have hml : s.mark ≤ s'.limit := by rw [← hb]; exact BitVec.le_of_lt hbl
    -- the child has no turn here, so neither has the part that the parent lost
    have hnone : turnIn? hart s.mark s'.limit s.limit pid h col = none := by
      simp only [turn?, turnIn?, hsm, ite_eq_right_iff, reduceCtorEq, imp_false] at hn ⊢
      exact hn
    simp only [afterDeriving, turn?]
    rw [turnIn?_join hml hl, hnone, Option.none_or]
  | _ => rfl

/-- A parent has what it had, and what it regains with a child. -/
theorem turn?_afterReclaiming (hp : p.Sound) :
    (p.afterReclaiming c).turn? pid h col =
      (Machine.regained? p c pid h col).or (p.turn? pid h col) := by
  cases p <;> cases c <;> try rfl
  case channel.socket => rw [afterReclaiming]; split <;> rfl
  case time.time hart s hart' t =>
    have hs : s.Ordered := hp s rfl
    simp only [afterReclaiming, Span.lower, turn?, Machine.regained?]
    split
    · next hlt => exact turnIn?_join (BitVec.le_of_lt hlt) hs.2
    · next hlt => -- a child below the mark gives nothing back
      have hnone : turnIn? hart t.mark s.mark s.limit pid h col = none :=
        turnIn?_of_le (by bv_omega)
      rw [hnone, Option.none_or]

/-- A restored capability has what it had, and what it had handed out. -/
theorem turn?_restored (hp : p.Sound) :
    p.restored.turn? pid h col = (Machine.withheld? p pid h col).or (p.turn? pid h col) := by
  cases p <;> try rfl
  case time hart s => exact turnIn?_join (hp s rfl).1 (hp s rfl).2

/-- A capability regains nothing that it does not span. -/
theorem spans_of_regained? (hp : p.Sound) (hc : c.Sound) (hr : p.mayRevoke c = true)
    (hu : Machine.regained? p c pid h col = some u) : p.Spans (.ofTurn h col) := by
  cases p <;> cases c <;> try cases hu
  case time.time hart s hart' t =>
    obtain ⟨hh, hm, hl⟩ := bounds_of_turnIn? hu
    have hs := (hp s rfl).2
    have ht := (hc t rfl).1
    have hb := (mayRevoke_time.1 hr).2.1
    exact ⟨hh, BitVec.le_trans hb (BitVec.le_trans ht hm), Nat.lt_of_lt_of_le hl hs⟩

/-- It has handed out nothing that it does not span. -/
theorem spans_of_withheld? (hp : p.Sound) (hu : Machine.withheld? p pid h col = some u) :
    p.Spans (.ofTurn h col) := by
  cases p <;> try cases hu
  case time hart s =>
    obtain ⟨hh, hm, hl⟩ := bounds_of_turnIn? hu
    exact ⟨hh, hm, Nat.lt_of_lt_of_le hl (hp s rfl).2⟩

/-- What a child has, its parent regains. -/
theorem regained?_of_turn? (hpc : p.Precedes c) (hr : p.mayRevoke c = true) (q : Pid)
    (hu : c.turn? pid h col = some u) : Machine.regained? p c q h col ≠ none := by
  obtain ⟨hart, s, rfl, ⟨hh, hm, hl⟩, _⟩ := turn?_eq_some_iff.1 hu
  cases hpc with
  | @time hart s' _ ha =>
    have hle : s.limit.toNat ≤ s'.mark.toNat := ha.limit_le_mark (mayRevoke_time.1 hr).2
    rw [Machine.regained?, turnIn?, if_pos ⟨hh, hm, by omega⟩]
    simp

end Capability

/-! ## Turns in a table -/

def Table.HasTurn (t : Table) (h : Hart) (col : Fin 64) (u : Turn) : Prop :=
  ∃ s, (t.get s).turn? s.owner h col = some u

/-- Does the schedule have the turns of the capabilities, and no others? -/
def Machine.Projects (m : Machine) : Prop :=
  ∀ h col u, m.schedule.get h col = some u ↔ m.table.HasTurn h col u

/-- Does at most one slot own each time slot? -/
def Table.TimeShared (t : Table) : Prop :=
  ∀ h col, t.Confined (.ofTurn h col)

namespace Table

theorem Lineal.turn_unique (hl : t.Lineal) (hc : t.TimeShared) {q q' : Pid} {v : Turn}
    (hx : (t.get x).turn? q h col = some u) (hy : (t.get y).turn? q' h col = some v) : x = y :=
  hl.owner_unique (hc h col) (Capability.owns_of_turn? hx) (Capability.owns_of_turn? hy)

/-- If time is not shared, a column has at most one turn. -/
theorem Lineal.hasTurn_unique (hl : t.Lineal) (hc : t.TimeShared) {v : Turn}
    (hu : t.HasTurn h col u) (hv : t.HasTurn h col v) : u = v := by
  obtain ⟨x, hx⟩ := hu
  obtain ⟨y, hy⟩ := hv
  obtain rfl := hl.turn_unique hc hx hy
  exact Option.some.inj (hx.symm.trans hy)

/-- A table that gains at most one turn, as its schedule does, keeps in step with it. -/
theorem Lineal.hasTurn_of_gain (hl : t'.Lineal) (hc : t'.TimeShared) {o g : Option Turn}
    (hg : ∀ u, g = some u ↔ t.HasTurn h col u)
    (hgain : ∀ u, o = some u → t'.HasTurn h col u)
    (hsame : o = none → ∀ u, t'.HasTurn h col u ↔ t.HasTurn h col u) (u : Turn) :
    o.or g = some u ↔ t'.HasTurn h col u := by
  cases o with
  | none => rw [Option.none_or, hg, hsame rfl]
  | some v =>
    rw [Option.some_or]
    constructor
    · intro he
      exact hgain u he
    · intro hu
      rw [hl.hasTurn_unique hc hu (hgain v rfl)]

/-- If a slot has the same turn in both tables and every other slot the same capability, the tables
give the same turns. -/
theorem hasTurn_congr (hs : ∀ x, (t'.get x).turn? x.owner h col = (t.get x).turn? x.owner h col) :
    t'.HasTurn h col u ↔ t.HasTurn h col u :=
  exists_congr fun x => by rw [hs]

end Table

/-! ## Edits -/

theorem Capability.Reseats.turn?_eq (hr : c.Reseats d) : d.turn? pid h col = c.turn? pid h col := by
  cases hr <;> rfl

namespace Table

/-- A move that stays with the process, or moves no turn, leaves all turns. -/
theorem Strung.hasTurn_relink (hs : t.Strung) (hy : t.get y = .null) (hr : (t.get x).Reseats c)
    (hn : x.owner = y.owner ∨ (t.get x).turn? y.owner h col = none) :
    (t.relink x y c).HasTurn h col u ↔ t.HasTurn h col u := by
  have hturn : ∀ z, ((t.relink x y c).get z).turn? z.owner h col =
      (t.get (Equiv.swap x y z)).turn? (Equiv.swap x y z).owner h col := by
    intro z
    rw [(hs.reseats_relink hy hr z).turn?_eq]
    by_cases hzx : z = x
    · rw [hzx, Equiv.swap_apply_left, hy]
      rfl
    · -- the target has what the source had, for another process perhaps
      by_cases hzy : z = y
      · rw [hzy, Equiv.swap_apply_right]
        rcases hn with he | hn
        · rw [he]
        · rw [hn, Capability.turn?_eq_none_congr _ hn]
      · rw [Equiv.swap_apply_of_ne_of_ne hzx hzy]
  unfold HasTurn
  simp only [hturn]
  exact ((Equiv.swap x y).surjective.exists
    (p := fun z => (t.get z).turn? z.owner h col = some u)).symm

/-- The turns of a capability that is deleted are cleared, and belong to nobody else. -/
theorem Lineal.hasTurn_unlink (hl : t.Lineal) (hc : t.TimeShared) {g : Option Turn}
    (hg : ∀ u, g = some u ↔ t.HasTurn h col u) :
    (if ((t.get s).turn? s.owner h col).isSome then none else g) = some u ↔
      (t.unlink s).HasTurn h col u := by
  have hunlink : (t.unlink s).HasTurn h col u ↔
      ∃ x, x ≠ s ∧ (t.get x).turn? x.owner h col = some u := by
    apply exists_congr
    intro x
    rw [get_unlink]
    by_cases hx : s = x
    · simp [hx, Capability.turn?]
    · simp [hx, Ne.symm hx]
  rw [hunlink]
  cases hf : (t.get s).turn? s.owner h col with
  | none =>
    refine (hg u).trans (exists_congr fun x => ?_)
    constructor
    · rintro hx
      refine ⟨?_, hx⟩
      rintro rfl
      rw [hf] at hx
      cases hx
    · exact And.right
  | some v =>
    constructor
    · rintro ⟨⟩
    · rintro ⟨x, hx, hu⟩
      exact absurd (hl.turn_unique hc hu hf) hx -- somebody else's turn here would be a second one

/-- A derivation adds no turns but those of the child. -/
theorem Lineal.hasTurn_derive (hl : t.Lineal) (ht : t.get y = .null)
    (hd : (t.get x).Derivation c) (hn : c.turn? y.owner h col = none) :
    (t.derive x y c).HasTurn h col u ↔ t.HasTurn h col u := by
  apply hasTurn_congr
  intro z
  rw [hl.get_derive ht hd]
  -- the child has no turn there, as it has what its parent gave up
  split
  · next he => rw [← he, ht, hn]; rfl
  · split
    · next he =>
      rw [← he]
      exact hd.turn?_afterDeriving (hl.sound x) (Capability.turn?_eq_none_congr _ hn)
    · rfl

/-- One that is taken back has no turns that its parent does not regain. -/
theorem Lineal.hasTurn_takeBack (hl : t.Lineal) {d : Slot} (hnx : t.next s = some d)
    (hr : (t.get s).mayRevoke (t.get d) = true)
    (hn : Machine.regained? (t.get s) (t.get d) s.owner h col = none) :
    (t.takeBack s d).HasTurn h col u ↔ t.HasTurn h col u := by
  apply hasTurn_congr
  intro z
  rw [get_takeBack]
  split
  · next he => rw [Capability.turn?_afterReclaiming (hl.sound s), ← he, hn, Option.none_or]
  · split
    · next he =>
      have hpd := hl.precedes s d (hl.strung.before_of_next hnx)
      rw [← he]
      -- a turn of the child would be regained
      cases hu : (t.get d).turn? d.owner h col with
      | none => rfl
      | some v => exact absurd hn (Capability.regained?_of_turn? hpd hr _ hu)
    · rfl

/-- A range without a rest regains nothing. -/
theorem Lineal.hasTurn_restore (hl : t.Lineal)
    (hn : Machine.withheld? (t.get s) s.owner h col = none) :
    (t.restore s).HasTurn h col u ↔ t.HasTurn h col u := by
  apply hasTurn_congr
  intro z
  rw [Table.restore, get_set]
  split
  · next he => rw [Capability.turn?_restored (hl.sound s), ← he, hn, Option.none_or]
  · rfl

end Table

/-! ## Changes -/

/-- Every change edits the schedule as it edits the capabilities. -/
theorem Change.projects (hc : Change m m') (hl : m.table.Lineal) (ht : m.table.TimeShared)
    (hp : m.Projects) : m'.Projects := by
  have hl' := hc.lineal hl
  have ht' : m'.table.TimeShared := fun h col => hc.confined hl (ht h col)
  intro h col u
  have hg := hp h col
  cases hc with
  | quiet hq => rw [hq.schedule, hq.table, hg]
  | deed hd =>
    cases hd with
    | @move source target hs hv =>
      have hre := Machine.reseats_arriving source target (m.table.get source)
      rw [Machine.relocate_table] at hl' ht' ⊢
      rw [Machine.relocate_schedule]
      -- within a process all turns stay; otherwise the target gains those of the source
      split
      · next he => rw [hg, hl.strung.hasTurn_relink hv hre (.inl he)]
      · refine hl'.hasTurn_of_gain ht' hg (fun v hv' => ⟨target, ?_⟩) (fun hn v => ?_) u
        · rw [hl.strung.get_relink hv, if_neg (Table.ne_of_vacant hs hv), if_pos rfl, hre.turn?_eq]
          exact hv'
        · exact hl.strung.hasTurn_relink hv hre (.inr hn)
    | delete =>
      rw [Machine.discard_table, Machine.discard_schedule]
      exact hl.hasTurn_unlink ht hg
    | @derive source target c hd hv =>
      -- the child gains the turns that its parent gives away
      rw [Machine.bear_table] at hl' ht' ⊢
      rw [Machine.bear_schedule]
      refine hl'.hasTurn_of_gain ht' hg (fun v hv' => ⟨target, ?_⟩) (fun hn v => ?_) u
      · rw [hl.get_derive hv hd, if_pos rfl]
        exact hv'
      · exact hl.hasTurn_derive hv hd hn
    | @load s r k hs =>
      obtain ⟨_, he⟩ := Machine.install_exec m s r k
      rw [he]
      refine (hg u).trans (Table.hasTurn_congr fun x => ?_).symm
      rw [Table.get_set]
      split
      · next hx => rw [← hx, hs]; rfl
      · rfl
    | @unload s r hs =>
      obtain ⟨_, he⟩ := Machine.uninstall_exec m s r
      rw [he]
      refine (hg u).trans (Table.hasTurn_congr fun x => ?_).symm
      rw [Table.get_set]
      split
      · next hx => rw [← hx, hs]; rfl
      · rfl
  | @takeBack s d hn hr =>
    -- the parent gains the turns from the mark of the child up to its own
    have htb := Machine.takeBack_tookBack s d m
    rw [htb.table] at hl' ht' ⊢
    rw [htb.schedule hr]
    refine hl'.hasTurn_of_gain ht' hg (fun v hv => ⟨s, ?_⟩) (fun hn' v => ?_) u
    · rw [Table.get_takeBack, if_pos rfl, Capability.turn?_afterReclaiming (hl.sound s), hv]
      rfl
    · exact hl.hasTurn_takeBack hn hr hn'
  | @restore s hs hr =>
    have hrs := Machine.restore_restored s m
    rw [hrs.table] at hl' ht' ⊢
    rw [hrs.schedule]
    refine hl'.hasTurn_of_gain ht' hg (fun v hv => ⟨s, ?_⟩) (fun hn' v => ?_) u
    · rw [Table.restore, Table.get_set_self, Capability.turn?_restored (hl.sound s), hv]
      rfl
    · exact hl.hasTurn_restore hn'

/-- What every change keeps, a sequence of them keeps. -/
theorem projects_of_changes (hc : ReflTransGen Change m m') (hl : m.table.Lineal)
    (ht : m.table.TimeShared) (hp : m.Projects) : m'.Projects := by
  suffices m'.table.TimeShared ∧ m'.Projects from this.2
  refine changes_keep (P := fun m => m.table.TimeShared ∧ m.Projects) ?_ hc hl ⟨ht, hp⟩
  intro m m' hl hP hc
  exact ⟨fun h col => hc.confined hl (hP.1 h col), hc.projects hl hP.1 hP.2⟩

/-! ## Booting -/

def Capability.TimeDisjoint (c d : Capability) : Prop :=
  ∀ h n, c.Spans (.turn h n) → ¬ d.Spans (.turn h n)

/-- Installing a root that spans no time slot of others extends the schedule by its turns. -/
theorem Machine.Rooted.projects {i : SlotIndex} (hr : Machine.Rooted i c m m')
    (hb : Machine.Booting i m) (hc : c.Sound)
    (hd : ∀ s, m.table.get s ≠ .null → (m.table.get s).TimeDisjoint c)
    (hs : ∀ s, (m.table.get s).Sound) (hp : m.Projects) : m'.Projects := by
  intro h col u
  have hi : m.table.get ⟨0, i⟩ = .null := hb.vacant i (Nat.le_refl _)
  -- no other root has a turn of the new one
  have hnone : ∀ s v, (m.table.get s).turn? s.owner h col = some v → c.turn? 0 h col = none := by
    intro s v hv
    have hspan := (Capability.owns_of_turn? hv).spans (hs s)
    cases hcv : c.turn? 0 h col with
    | none => rfl
    | some w =>
      exact absurd ((Capability.owns_of_turn? hcv).spans hc) (hd s hspan.ne_null _ _ hspan)
  have hturn : m'.table.HasTurn h col u ↔ c.turn? 0 h col = some u ∨ m.table.HasTurn h col u := by
    unfold Table.HasTurn
    simp only [hr.table, Table.get_insertRoot]
    constructor
    · rintro ⟨s, hu⟩
      split at hu
      · next he => exact .inl (by rwa [← he] at hu)
      · exact .inr ⟨s, hu⟩
    · rintro (hu | ⟨s, hu⟩)
      · exact ⟨⟨0, i⟩, by rw [if_pos rfl]; exact hu⟩
      · refine ⟨s, ?_⟩
        rw [if_neg]
        · exact hu
        · rintro rfl
          rw [hi] at hu
          cases hu
  rw [hr.schedule, hturn, ← hp]
  cases hcu : c.turn? 0 h col with
  | none => simp
  | some v =>
    have hg : m.schedule.get h col = none := by
      cases hg : m.schedule.get h col with
      | none => rfl
      | some w =>
        obtain ⟨s, hw⟩ := (hp h col w).1 hg
        rw [hnone s w hw] at hcu
        cases hcu
    simp [hg]

/-- After booting, the schedule is that of the roots. -/
theorem boot_projects (hb : (Machine.boot roots).exec .initial = (.ok (), m))
    (hpair : roots.Pairwise Capability.TimeDisjoint) : m.Projects := by
  -- that all roots are sound is needed on the way
  suffices m.Projects ∧ ∀ s, (m.table.get s).Sound from this.1
  refine Machine.boot_keeps
    (P := fun m => m.Projects ∧ ∀ s, (m.table.get s).Sound) ?_ ?_ ?_ hpair hb
  · refine ⟨fun h col u => ?_, fun s => by rw [Machine.initial_get]; rintro _ ⟨⟩⟩
    have hblank : Machine.initial.schedule.get h col = none := by
      simp [Machine.initial, Kernel.blank, Schedule.blank, Schedule.get]
    have hno : ¬ Machine.initial.table.HasTurn h col u := by
      rintro ⟨s, hu⟩
      rw [Machine.initial_get] at hu
      cases hu
    simp [hblank, hno]
  · intro m m' hq hP
    rw [Machine.Projects, hq.table, hq.schedule]
    exact hP
  · intro m m' i c hboot hc hD hP hr
    have hcs := Capability.sound_of_isRoot hc
    refine ⟨hr.projects hboot hcs hD hP.2 hP.1, ?_⟩
    intro s
    rw [hr.table, Table.get_insertRoot]
    split
    · exact hcs
    · exact hP.2 s

/-! ## Every reachable machine -/

theorem Reachable.timeShared (h : Reachable roots m)
    (hpair : roots.Pairwise Capability.TimeDisjoint) : m.table.TimeShared :=
  fun _ _ => h.confined (hpair.imp fun hd => hd _ _)

/-- In every reachable machine, the schedule is that of the capabilities, if the roots share no
time. -/
theorem Reachable.projects (h : Reachable roots m)
    (hpair : roots.Pairwise Capability.TimeDisjoint) : m.Projects := by
  induction h with
  | boot hb => exact boot_projects hb hpair
  | step hm hs ih =>
    exact projects_of_changes (hs.sequel hm.lineal) hm.lineal (hm.timeShared hpair) ih

/-- The schedule is exactly the picture of the time capabilities: whoever holds a position of the
frame free has its turn, up to the end of the capability, and nobody has the turn of a position that
is free in no capability. -/
theorem schedule_eq_time (hroots : roots.Pairwise Capability.TimeDisjoint) (hm : Reachable roots m)
    (h : Hart) (col : Fin 64) :
    (∀ (s : Slot) (hart : BitVec 8) (r : Span), m.table.get s = .time hart r →
      hart.toNat = h.val → r.mark.toNat ≤ col.val → col.val < r.limit.toNat →
      m.schedule.get h col = some ⟨s.owner, r.limit.toNat - col⟩) ∧
    ((¬ ∃ (s : Slot) (hart : BitVec 8) (r : Span), m.table.get s = .time hart r ∧
      hart.toNat = h.val ∧ r.mark.toNat ≤ col.val ∧ col.val < r.limit.toNat) →
      m.schedule.get h col = none) := by
  have hp := hm.projects hroots h col
  constructor
  · intro s hart r hs hh hmark hlimit
    refine (hp _).2 ⟨s, ?_⟩
    rw [hs, Capability.turn?, turnIn?, if_pos ⟨hh, hmark, hlimit⟩]
  · intro hno
    -- an entry would come from some capability
    cases hg : m.schedule.get h col with
    | none => rfl
    | some u =>
      obtain ⟨s, hu⟩ := (hp u).1 hg
      obtain ⟨hart, r, hs, hr, _⟩ := Capability.turn?_eq_some_iff.1 hu
      exact absurd ⟨s, hart, r, hs, hr⟩ hno

/-- If process 0 has the time of a hart in two parts, and gave the beginning of the second to
process 1, then that has its turns up to the end of what it was given, and process 0 the others. -/
theorem schedule_eq_time_divided : ∃ m,
    [Capability.wholeTime 0 0 32, .wholeTime 0 32 64].Pairwise Capability.TimeDisjoint ∧
      Reachable [.wholeTime 0 0 32, .wholeTime 0 32 64] m ∧
      m.schedule.get 0 40 = some ⟨1, 8⟩ ∧ m.schedule.get 0 50 = some ⟨0, 14⟩ := by
  have hroots : [Capability.wholeTime 0 0 32, .wholeTime 0 32 64].Pairwise
      Capability.TimeDisjoint := by
    rw [List.pairwise_pair]
    -- the roots meet in slot 32, which belongs to the second
    rintro h n ⟨-, -, hn⟩ ⟨-, hn', -⟩
    exact absurd hn (BitVec.not_lt.2 hn')
  obtain ⟨m, he⟩ : ∃ m, m = Machine.afterAll [.wholeTime 0 0 32, .wholeTime 0 32 64]
    [(0, .capDerive ⟨0, 1⟩ ⟨1, 0⟩ (.wholeTime 0 32 48))] := ⟨_, rfl⟩
  have hm : Reachable [.wholeTime 0 0 32, .wholeTime 0 32 64] m := he ▸ .afterAll rfl _
  have hchild : m.table.get ⟨1, 0⟩ = .wholeTime 0 32 48 := by rw [he]; decide +kernel
  have hparent : m.table.get ⟨0, 1⟩ = .time 0 ⟨32, 48, 64⟩ := by rw [he]; decide +kernel
  refine ⟨m, hroots, hm, ?_, ?_⟩
  · exact (schedule_eq_time hroots hm 0 40).1 ⟨1, 0⟩ 0 _ hchild rfl (by decide) (by decide)
  · exact (schedule_eq_time hroots hm 0 50).1 ⟨0, 1⟩ 0 _ hparent rfl (by decide) (by decide)

end SepKernel
