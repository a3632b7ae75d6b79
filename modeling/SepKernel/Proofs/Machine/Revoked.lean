import SepKernel.Proofs.Machine.Release
import SepKernel.Proofs.Machine.Revocation
import SepKernel.Proofs.Schedule.Projection

/-!
# What a completed revocation leaves

A revocation that completes has emptied all slots that it reaches and no others, and with each of
them went the protection register and the waiters of what it held. Its own capability is as if
nothing was ever derived from it. This file adds up what the single steps of the run do.
-/

namespace SepKernel

open Relation (ReflTransGen)

variable {m m' : Machine} {roots : List Capability} {t t' : Table} {c p : Capability}
  {s d x y : Slot} {ds : List Slot} {h : Hart} {col : Fin 64}

/-! ## The whole run, table by table -/

/-- What a capability is restored to does not depend on what it took back. -/
@[simp] theorem Capability.restored_afterReclaiming (p c : Capability) :
    (p.afterReclaiming c).restored = p.restored := by
  cases p <;> cases c <;> try rfl
  case channel.socket s k =>
    show (if k.isServer then channel (s.lower k.chan) else channel s).restored = _
    split
    · simp only [restored, Span.reset_lower]
    · rfl
  all_goals simp only [afterReclaiming, restored, Span.reset_lower]

@[simp] theorem Capability.restored_restored (c : Capability) :
    c.restored.restored = c.restored := by
  cases c <;> rfl

/-- What one step brings about and the others keep holds after all of them. -/
theorem foldl_of_mem {α β : Type} {P : α → Prop} {f : α → β → α} {l : List β} {b : β}
    (hb : b ∈ l) (hset : ∀ a, P (f a b)) (hkeep : ∀ a b, P a → P (f a b)) (a : α) :
    P (l.foldl f a) := by
  obtain ⟨l₁, l₂, rfl⟩ := List.append_of_mem hb
  rw [List.foldl_append, List.foldl_cons]
  exact List.foldlRecOn _ _ (hset _) fun a ha b _ => hkeep a b ha

namespace Takes

/-- A capability is not taken back from itself. -/
theorem not_mem_self (ht : Takes s ds m m') (hl : m.table.Lineal) : s ∉ ds := by
  induction ht with
  | nil => exact List.not_mem_nil
  | cons b hn hr _ ih =>
    rw [List.mem_cons, not_or]
    constructor
    · intro he
      exact hl.strung.next_ne_self s (he ▸ hn)
    · exact ih (lineal_step hl hn hr b)

/-- Outside its own slot, the run empties the slots that it takes back, and no others. -/
theorem get (ht : Takes s ds m m') (hx : x ≠ s) :
    m'.table.get x = if x ∈ ds then .null else m.table.get x := by
  induction ht with
  | nil => rfl
  | @cons d ds m m' b _ _ _ ih =>
    rw [ih, table_step, Table.get_takeBack, if_neg hx.symm]
    by_cases hd : d = x
    · simp [hd]
    · simp [hd, Ne.symm hd]

/-- It takes back from occupied slots, each of them once. -/
theorem get_of_mem (ht : Takes s ds m m') (hl : m.table.Lineal) (hd : d ∈ ds) :
    m.table.get d ≠ .null := by
  have hds : d ≠ s := fun he => ht.not_mem_self hl (he ▸ hd)
  induction ht with
  | nil => cases hd
  | cons b hn hr _ ih =>
    rcases List.mem_cons.1 hd with rfl | hd
    · exact hl.strung.occupied_right (hl.strung.before_of_next hn)
    · have hne := ih (lineal_step hl hn hr b) hd
      rw [table_step, Table.get_takeBack, if_neg hds.symm] at hne
      split at hne
      · exact absurd rfl hne
      · exact hne

/-- Who was in a slot is still there, unless it was taken back. -/
theorem vacated (ht : Takes s ds m m') (hl : m.table.Lineal) (hx : m.table.get x ≠ .null) :
    m'.table.get x = .null ↔ x ∈ ds := by
  by_cases hxs : x = s
  · subst hxs
    have hself := Capability.ne_null_of_outline (ht.outline_self hl).symm hx
    exact ⟨fun he => absurd he hself, fun he => absurd he (ht.not_mem_self hl)⟩
  · rw [ht.get hxs]
    split
    · next hd => simp [hd]
    · next hd => simp [hd, hx]

/-- Its own capability remains, but for what it took back. -/
theorem restored (ht : Takes s ds m m') (hl : m.table.Lineal) :
    (m'.table.get s).restored = (m.table.get s).restored := by
  induction ht with
  | nil => rfl
  | cons b hn hr _ ih =>
    rw [ih (lineal_step hl hn hr b), table_step, Table.get_takeBack, if_pos rfl,
      Capability.restored_afterReclaiming]

/-- What it does not take back stays in its line, in the same order. -/
theorem following (ht : Takes s ds m m') (hl : m.table.Lineal) (hx : x ∉ ds) :
    m'.table.following x = (m.table.following x).filter (· ∉ ds) := by
  induction ht with
  | nil => simp
  | @cons d ds m m' b hn hr _ ih =>
    obtain ⟨hxd, hx⟩ := not_or.1 (mt List.mem_cons.2 hx)
    rw [ih (lineal_step hl hn hr b) hx, table_step, hl.strung.following_takeBack hxd,
      List.filter_filter]
    apply List.filter_congr
    intro y _
    simp only [List.mem_cons, not_or, Bool.decide_and, Bool.and_comm]

/-- What each step does to a part of the machine, by the capability that it takes back, the run does
in the same order. -/
theorem foldl {α : Type} {v : Machine → α} {f : Capability → Slot → α → α}
    (hf : ∀ m d b, v (((Machine.takeBack s d).exec m).2.onBoard b) =
      f (m.table.get d) d (v m))
    (ht : Takes s ds m m') (hl : m.table.Lineal) :
    v m' = ds.foldl (fun a d => f (m.table.get d) d a) (v m) := by
  induction ht with
  | nil => rfl
  | @cons d ds m m' b hn hr ht ih =>
    have hl' := lineal_step hl hn hr b
    rw [ih hl', hf, List.foldl_cons]
    apply List.foldl_ext _ _ _
    intro a e he
    -- the rest was not touched by the first step, for it is still there
    have hes : s ≠ e := fun hs => ht.not_mem_self hl' (hs ▸ he)
    have hne := ht.get_of_mem hl' he
    rw [table_step, Table.get_takeBack, if_neg hes] at hne ⊢
    split at hne
    · exact absurd rfl hne
    · next hde => rw [if_neg hde]

/-- The waiters go with the sockets that it takes back. -/
theorem registry (ht : Takes s ds m m') (hl : m.table.Lineal) :
    m'.registry = ds.foldl (fun g d => (m.table.get d).silence d.owner g) m.registry :=
  ht.foldl (v := fun m => m.registry) (f := fun c d => c.silence d.owner)
    (fun m d _ => (Machine.takeBack_tookBack s d m).registry) hl

/-- The protection registers go with the regions that it takes back. -/
theorem bank (ht : Takes s ds m m') (hl : m.table.Lineal) (q : Pid) :
    (m'.processes.get q).bank =
      ds.foldl (fun b d => if d.owner = q then (m.table.get d).unseat b else b)
        (m.processes.get q).bank := by
  refine ht.foldl (v := fun m => (m.processes.get q).bank)
    (f := fun c d b => if d.owner = q then c.unseat b else b) (fun m d _ => ?_) hl
  apply ((Machine.takeBack_tookBack s d m).bank q).trans
  split
  · next he => rw [he]
  · rfl

/-- The turns of others stay. -/
theorem schedule (ht : Takes s ds m m') (hl : m.table.Lineal)
    (hn : ¬ (m.table.get s).Spans (.ofTurn h col)) :
    m'.schedule.get h col = m.schedule.get h col := by
  induction ht with
  | nil => rfl
  | @cons d ds m m' b hnx hr _ ih =>
    have hsd : s ≠ d := fun he => hl.strung.next_ne_self s (by rw [hnx, ← he])
    have hout : ((m.table.takeBack s d).get s).outline = (m.table.get s).outline :=
      Table.outline_takeBack hsd
    have hgone : Machine.regained? (m.table.get s) (m.table.get d) s.owner h col = none := by
      rw [Option.eq_none_iff_forall_ne_some]
      intro u hu
      exact hn (Capability.spans_of_regained? (hl.sound s) (hl.sound d) hr hu)
    -- by induction: one that is taken back gives back turns of the range only
    rw [ih (lineal_step hl hnx hr b)]
    · apply ((Machine.takeBack_tookBack s d m).schedule hr h col).trans
      rw [hgone, Option.none_or]
    · rwa [table_step, Capability.spans_congr hout]

/-- No region that is taken back stays loaded. -/
theorem isFree_bank (ht : Takes s ds m m') (hl : m.table.Lineal) (hd : d ∈ ds) {k : RegionIndex}
    (hk : (m.table.get d).SitsIn k) : ((m'.processes.get d.owner).bank.get k).isFree = true := by
  rw [ht.bank hl]
  refine foldl_of_mem (P := fun b : Bank => (b.get k).isFree = true) hd ?_ ?_ _
  · intro b
    rw [if_pos rfl]
    exact Capability.isFree_unseat hk b
  · intro b e hb
    split
    · exact Capability.isFree_unseat_of_isFree hb _
    · exact hb

/-- The other protection registers stay. -/
theorem get_bank (ht : Takes s ds m m') (hl : m.table.Lineal) {q : Pid} {k : RegionIndex}
    (hk : ∀ d ∈ ds, d.owner = q → ¬ (m.table.get d).SitsIn k) :
    (m'.processes.get q).bank.get k = (m.processes.get q).bank.get k := by
  rw [ht.bank hl]
  refine List.foldlRecOn
    (motive := fun b : Bank => b.get k = (m.processes.get q).bank.get k) _ _ rfl ?_
  intro b hb d hd
  split
  · next hq => rw [Capability.get_unseat_of_not_sitsIn (hk d hd hq), hb]
  · exact hb

/-- Nobody waits on the channel of a server that is taken back. -/
theorem quiet_registry (ht : Takes s ds m m') (hl : m.table.Lineal) (hd : d ∈ ds) {k : Socket}
    {i : Fin 16} (hk : m.table.get d = .socket k) (hi : k.chan.toNat = i.val)
    (hserver : k.isServer = true) : m'.registry.get i = .quiet := by
  rw [ht.registry hl]
  refine foldl_of_mem (P := fun g : Registry => g.get i = .quiet) hd ?_ ?_ _
  · intro g
    rw [hk, Capability.get_silence_socket k _ _ hi, Socket.role, if_pos hserver]
    rfl
  · intro g e hg
    rcases Capability.get_silence_cases (m.table.get e) e.owner g i with he | ⟨role, he⟩
    · rw [he, hg]
    · rw [he, hg, Channel.forget_quiet]

/-- The owner of a client that is taken back does not wait on its channel as a client. -/
theorem client_registry (ht : Takes s ds m m') (hl : m.table.Lineal) (hd : d ∈ ds) {k : Socket}
    {i : Fin 16} {w : Waiter} (hk : m.table.get d = .socket k) (hi : k.chan.toNat = i.val)
    (hclient : k.isServer = false) (hw : (m'.registry.get i).client = some w) :
    w.pid ≠ d.owner := by
  rw [ht.registry hl] at hw
  -- once it is forgotten, the later ones do not bring it back
  refine foldl_of_mem
    (P := fun g : Registry => (g.get i).client = some w → w.pid ≠ d.owner) hd ?_ ?_ _ hw
  · intro g hg
    rw [hk, Capability.get_silence_socket k _ _ hi, Socket.role, if_neg (by simp [hclient])] at hg
    exact Channel.ne_of_client_forget hg
  · intro g e hP hg
    rcases Capability.get_silence_cases (m.table.get e) e.owner g i with he | ⟨role, he⟩
    · exact hP (he ▸ hg)
    · exact hP (Channel.client_of_forget (he ▸ hg))

/-- The channels of no socket that is taken back stay. -/
theorem get_registry (ht : Takes s ds m m') (hl : m.table.Lineal) {i : Fin 16}
    (hi : ∀ d ∈ ds, ∀ k, m.table.get d = .socket k → k.chan.toNat ≠ i.val) :
    m'.registry.get i = m.registry.get i := by
  rw [ht.registry hl]
  refine List.foldlRecOn (motive := fun g : Registry => g.get i = m.registry.get i) _ _ rfl ?_
  intro g hg d hd
  rw [Capability.get_silence_of_ne (hi d hd), hg]

end Takes

/-! ## A completed revocation -/

/-- Does a capability reach another one: does that stand anywhere after it, where a revocation may
take it back? -/
def Table.Reaches (t : Table) (s d : Slot) : Prop :=
  d ∈ t.following s ∧ (t.get s).mayRevoke (t.get d) = true

/-- What a completed revocation does to the machine. -/
structure Revoked (s : Slot) (m m' : Machine) : Prop where
  /-- It empties the slots that it reaches. -/
  emptied : ∀ d, m.table.get d ≠ .null ∧ m'.table.get d = .null ↔ m.table.Reaches s d
  self : m'.table.get s = (m.table.get s).restored
  others : ∀ x, x ≠ s → ¬ m.table.Reaches s x → m'.table.get x = m.table.get x
  /-- What remains in a line remains in its order. -/
  order : ∀ x, ¬ m.table.Reaches s x →
    m'.table.following x = (m.table.following x).filter fun y => decide (m'.table.get y ≠ .null)
  /-- The register that an emptied region was loaded in is free. -/
  regions : ∀ d r, m.table.Reaches s d → m.table.get d = .pmp r → r.loaded = true →
    ∃ k : RegionIndex, k.val = r.slot.toNat ∧
      ((m'.processes.get d.owner).bank.get k).isFree = true
  registers : ∀ p k, (∀ d, m.table.Reaches s d → d.owner = p → ¬ (m.table.get d).SitsIn k) →
    (m'.processes.get p).bank.get k = (m.processes.get p).bank.get k
  /-- The waiters are cleared for one emptied socket after the other. -/
  registry : m'.registry =
    (m.table.descendants s).foldl (fun g d => (m.table.get d).silence d.owner g) m.registry
  servers : ∀ d k (i : Fin 16), m.table.Reaches s d → m.table.get d = .socket k →
    k.chan.toNat = i.val → k.isServer = true → m'.registry.get i = .quiet
  clients : ∀ d k (i : Fin 16) w, m.table.Reaches s d → m.table.get d = .socket k →
    k.chan.toNat = i.val → k.isServer = false → (m'.registry.get i).client = some w →
    w.pid ≠ d.owner
  channels : ∀ i : Fin 16, (∀ d k, m.table.Reaches s d → m.table.get d = .socket k →
    k.chan.toNat ≠ i.val) → m'.registry.get i = m.registry.get i
  schedule : ∀ h col, ¬ (m.table.get s).Spans (.ofTurn h col) →
    m'.schedule.get h col = m.schedule.get h col

/-- A run that takes back everything, and the restoration after it, make a completed revocation. -/
theorem Takes.revoked {m₁ : Machine} (ht : Takes s (m.table.descendants s) m m₁)
    (hl : m.table.Lineal) (hseat : m.table.Seated) (hr : Machine.Restored s m₁ m') :
    Revoked s m m' := by
  have hmem : ∀ {d}, m.table.Reaches s d ↔ d ∈ m.table.descendants s := hl.mem_descendants.symm
  have hget : ∀ {x}, x ≠ s → m'.table.get x =
      if x ∈ m.table.descendants s then .null else m.table.get x := by
    intro x hx
    rw [hr.table, Table.restore, Table.get_set_of_ne _ _ hx.symm, ht.get hx]
  have hleft : ∀ y, m.table.get y ≠ .null →
      (m'.table.get y = .null ↔ y ∈ m.table.descendants s) := by
    intro y hy
    rw [hr.table, Table.restore, Table.get_set_eq_null (Capability.outline_restored _).symm]
    exact ht.vacated hl hy
  have hreg : m'.registry = m₁.registry := hr.registry
  have hproc : m'.processes = m₁.processes := hr.processes
  constructor
  case emptied =>
    intro d
    rw [hmem]
    constructor
    · rintro ⟨hd, he⟩
      exact (hleft d hd).1 he
    · intro hd
      have hne := ht.get_of_mem hl hd
      exact ⟨hne, (hleft d hne).2 hd⟩
  case self => rw [hr.table, Table.restore, Table.get_set_self, ht.restored hl]
  case others =>
    intro x hx hn
    rw [hget hx, if_neg (mt hmem.2 hn)]
  case order =>
    intro x hx
    rw [hr.table, Table.restore, Table.following_set, ht.following hl (mt hmem.2 hx),
      ← Table.restore, ← hr.table]
    apply List.filter_congr
    intro y hy
    have hne : m.table.get y ≠ .null := hl.strung.occupied_right hy
    simp only [ne_eq, hleft y hne]
  case regions =>
    intro d r hd he hload
    obtain ⟨k, hk, hsits⟩ := Capability.Seated.exists_sitsIn (he ▸ hseat d) hload
    rw [hproc]
    exact ⟨k, hk, ht.isFree_bank hl (hmem.1 hd) (he ▸ hsits)⟩
  case registers =>
    intro q k hk
    rw [hproc]
    exact ht.get_bank hl fun d hd => hk d (hmem.2 hd)
  case registry => rw [hreg, ht.registry hl]
  case servers =>
    intro d k i hd he hi hserver
    rw [hreg]
    exact ht.quiet_registry hl (hmem.1 hd) he hi hserver
  case clients =>
    intro d k i w hd he hi hclient hw
    rw [hreg] at hw
    exact ht.client_registry hl (hmem.1 hd) he hi hclient hw
  case channels =>
    intro i hi
    rw [hreg]
    exact ht.get_registry hl fun d hd k => hi d k (hmem.2 hd)
  case schedule =>
    intro h col hn
    have hspan : ¬ (m₁.table.get s).Spans (.ofTurn h col) := by
      rwa [Capability.spans_congr (ht.outline_self hl)]
    -- what is restored at the end lies in the capability, like all that was regained before
    have hkept : Machine.withheld? (m₁.table.get s) s.owner h col = none := by
      rw [Option.eq_none_iff_forall_ne_some]
      intro u hu
      exact hspan (Capability.spans_of_withheld? ((ht.lineal hl).sound s) hu)
    rw [hr.schedule, hkept, Option.none_or, ht.schedule hl hn]

/-- A revocation that completes empties all slots that it reaches, gives the capability its whole
range back and touches nothing else. The turns of a time capability are its own again if no two
roots had any in common. -/
theorem revokeCapability_complete (hm : Reachable roots m)
    (hr : (Machine.revokeCapability h s).exec m = (.ok (), m')) :
    Revoked s m m' ∧ (roots.Pairwise Capability.TimeDisjoint →
      ∀ (hart : BitVec 8) (r : Span), m.table.get s = .time hart r →
        ∀ (h' : Hart) (col : Fin 64), hart.toNat = h'.val → r.base.toNat ≤ col.val →
          col.val < r.limit.toNat →
          m'.schedule.get h' col = some ⟨s.owner, r.limit.toNat - col⟩) := by
  have hl := hm.lineal
  have hrevoked : Revoked s m m' := by
    rcases Machine.revokeCapability_cases hl h s with ⟨_, he⟩ | ⟨_, taken, rest, m₁, hd, ht, he⟩
    · rw [he] at hr
      cases hr
    · rcases he with ⟨rfl, he⟩ | he
      · rw [he] at hr
        cases hr
        rw [List.append_nil] at hd
        exact (hd ▸ ht).revoked hl hm.seated (Machine.restore_restored s m₁)
      · rw [he] at hr
        cases hr
  refine ⟨hrevoked, ?_⟩
  intro hroots hart r hs h' col hh hb hlim
  have hseq := Machine.revokeCapability_sequel h s m
  rw [hr] at hseq
  -- the turns follow from the table, in which the range is whole
  have hP := projects_of_changes (hseq hl) hl (hm.timeShared hroots) (hm.projects hroots)
  refine (hP h' col _).2 ⟨s, ?_⟩
  rw [hrevoked.self, hs, Capability.restored, Capability.turn?, turnIn?]
  exact if_pos ⟨hh, hb, hlim⟩

/-- Process 2 has its time from process 1, whose capability was deleted. When process 0 revokes what
it once gave to process 1, the time of process 2 goes back to it. -/
theorem revokeCapability_complete_orphaned : ∃ m m',
    Reachable [.wholeTime 0 0 64] m ∧ m.table.get ⟨1, 0⟩ = .null ∧
      (Machine.revokeCapability 0 ⟨0, 0⟩).exec m = (.ok (), m') ∧
      m.table.get ⟨2, 0⟩ = .wholeTime 0 0 16 ∧ m'.table.get ⟨2, 0⟩ = .null ∧
      m.schedule.get 0 3 = some ⟨2, 13⟩ ∧ m'.schedule.get 0 3 = some ⟨0, 61⟩ := by
  obtain ⟨m, he⟩ : ∃ m, m = Machine.afterAll [.wholeTime 0 0 64]
    [(0, .capDerive ⟨0, 0⟩ ⟨1, 0⟩ (.wholeTime 0 0 32)),
      (0, .capDerive ⟨1, 0⟩ ⟨2, 0⟩ (.wholeTime 0 0 16)), (0, .capDelete ⟨1, 0⟩)] := ⟨_, rfl⟩
  have hm : Reachable [.wholeTime 0 0 64] m := he ▸ .afterAll rfl _
  have hok : ((Machine.revokeCapability 0 ⟨0, 0⟩).exec m).1 = .ok () := by rw [he]; decide +kernel
  have hr : (Machine.revokeCapability 0 ⟨0, 0⟩).exec m = (.ok (), _) := Prod.ext hok rfl
  -- the middle one of three has been deleted
  have hroot : m.table.get ⟨0, 0⟩ = .time 0 ⟨0, 32, 64⟩ := by rw [he]; decide +kernel
  have hreach : m.table.Reaches ⟨0, 0⟩ ⟨2, 0⟩ :=
    ⟨by rw [he]; decide +kernel, by rw [he]; decide +kernel⟩
  obtain ⟨hrevoked, hturns⟩ := revokeCapability_complete hm hr
  refine ⟨m, _, hm, by rw [he]; decide +kernel, hr, by rw [he]; decide +kernel, ?_,
    by rw [he]; decide +kernel, ?_⟩
  · exact ((hrevoked.emptied ⟨2, 0⟩).2 hreach).2
  · exact hturns (List.pairwise_singleton ..) 0 _ hroot 0 3 rfl (by decide) (by decide)

end SepKernel
