import SepKernel.Proofs.Channel.Mark
import SepKernel.Proofs.Machine.Descent
import SepKernel.Proofs.Machine.Effects
import SepKernel.Proofs.Machine.Resumption
import SepKernel.Proofs.Protection.Mirror
import SepKernel.Proofs.Table.Remainder

/-!
# Reclaiming what was handed out

Whoever holds a range that is still whole may hand out parts of it, and those may be divided
further, moved from process to process, deleted in any order, revoked halfway or in full, and loaded
into protection registers. Revoking the range until that succeeds brings back the capability table
as it was, with all its links, and so the schedule and the protection registers.

The table stays alike beside the range, since all that happens does so within what the range
reaches. A revocation is no exception, and once it succeeds nothing is left to be alike but for.

For a range of channels this takes that no earlier revocation of channels stopped halfway. One that
did may have left a client of a channel that was free again, and whoever is handed out that channel
deletes the client with what it revokes.
-/

namespace SepKernel

open Relation (ReflTransGen)

variable {m m' n n' : Machine} {roots : List Capability} {s x y : Slot} {ds : List Slot}
  {op : Operation} {h : Hart} {P Q : Slot → Prop}

/-! ## What depends on the capability table -/

/-- Turns come from the capability table. -/
theorem Machine.Projects.schedule_eq (hm : m.Projects) (hm' : m'.Projects)
    (ht : m'.table = m.table) : m'.schedule = m.schedule := by
  ext hart col u
  have hturn := hm hart col u
  have hturn' := hm' hart col u
  rw [ht] at hturn'
  exact hturn'.trans hturn.symm

/-- The configuration bytes come from the capability table. -/
theorem Machine.Mirrors.config_eq (hm : m.Mirrors) (hm' : m'.Mirrors) (ht : m'.table = m.table)
    (p : Pid) (k : RegionIndex) :
    ((m'.processes.get p).bank.get k).config = ((m.processes.get p).bank.get k).config := by
  have hpk := hm p k
  have hpk' := hm' p k
  rw [ht] at hpk'
  by_cases hex : ∃ x r, m.table.Seats p k x r
  · obtain ⟨x, r, hx⟩ := hex
    rw [hpk.content x r hx, hpk'.content x r hx]
  · -- without a loaded region the register is free
    have hzero : ∀ b : Protection, ¬ b.isFree = false → b.config = 0 := fun b hb =>
      beq_iff_eq.1 (Bool.of_not_eq_false hb)
    rw [hzero _ fun hf => hex (hpk.backed hf), hzero _ fun hf => hex (hpk'.backed hf)]

/-! ## What may be touched -/

namespace Machine

/-- Was the capability in a slot obtained by derivations from the one in `s`? -/
def Obtained (m : Machine) (s x : Slot) : Prop :=
  ∃ i j, m.genealogy.holder s = some i ∧ m.genealogy.holder x = some j ∧ m.genealogy.Descends j i

/-- Is a slot vacant, or does it hold something that was obtained from the capability in `s`? -/
def Open (m : Machine) (s x : Slot) : Prop :=
  m.table.get x = .null ∨ m.Obtained s x

end Machine

/-- The operation works on capabilities. It derives from `s` or revokes it, and all other slots that
it names are of a kind. -/
def Operation.TouchesOnly (s : Slot) (P : Slot → Prop) : Operation → Prop
  | capDerive x y _ => (x = s ∨ P x) ∧ P y
  | capMove x y => P x ∧ P y
  | capRevoke x => x = s ∨ P x
  | capDelete x | pmpLoad x _ | pmpUnload x => P x
  | _ => False

/-- What is allowed may be weakened. -/
theorem Operation.TouchesOnly.mono (hop : op.TouchesOnly s P) (hPQ : ∀ x, P x → Q x) :
    op.TouchesOnly s Q := by
  cases op with
  | capDerive => exact ⟨hop.1.imp_right (hPQ _), hPQ _ hop.2⟩
  | capMove => exact ⟨hPQ _ hop.1, hPQ _ hop.2⟩
  | capRevoke => exact hop.imp_right (hPQ _)
  | capDelete => exact hPQ _ hop
  | pmpLoad => exact hPQ _ hop
  | pmpUnload => exact hPQ _ hop
  | _ => exact hop.elim

/-- The machines that come out of another one by operations that derive from `s` or revoke it, and
apart from that touch only what was obtained from it, and vacant slots. -/
inductive Machine.Tends (s : Slot) (m : Machine) : Machine → Prop
  | refl : Tends s m m
  | hushed {n n' : Machine} : Tends s m n → n.Step n' → Hushed n n' → Tends s m n'
  | operation {n n' : Machine} {op : Operation} : Tends s m n → n.Performs op n' →
      op.TouchesOnly s (n.Open s) → Tends s m n'

/-! ## What is left alike -/

open Table (AlikeBeside)

/-- A run of a revocation, within what a slot reaches, leaves the table alike beside the slot. -/
theorem Takes.alike (ht : Takes x ds m m') (hl : m.table.Lineal) (hx : m.table.Within s x) :
    AlikeBeside s m.table m'.table ∧ m'.table.Within s x := by
  induction ht with
  | nil => exact ⟨refl_of (AlikeBeside s) _, hx⟩
  | @cons d ds m m' b hn hr _ ih =>
    have hd : m.table.Reaches x d := ⟨hl.strung.before_of_next hn, hr⟩
    have hne : x ≠ d := hl.strung.ne_of_reaches hd
    -- the first one that is taken back is within the range, and so are the others
    have hsd : s ≠ d := hl.strung.ne_of_reaches (hl.strung.within_of_reaches hx hd)
    have hx' : (m.table.takeBack x d).Within s x :=
      hx.imp_right fun hr => (hl.strung.reaches_takeBack hsd hne).2 ⟨hr, hne⟩
    rw [Takes.table_step] at ih
    obtain ⟨halike, hwithin⟩ := ih (hl.takeBack hn hr) hx'
    exact ⟨trans_of (AlikeBeside s) (AlikeBeside.takeBack hl.strung hx hd) halike, hwithin⟩

/-- So does the whole revocation, whether it is preempted or not. -/
theorem Machine.revokeCapability_alike (h : Hart) (hl : m.table.Lineal)
    (hx : m.table.get x ≠ .null → m.table.Within s x) :
    AlikeBeside s m.table ((revokeCapability h x).exec m).2.table := by
  obtain ⟨_, he⟩ | ⟨hn, taken, rest, m₁, _, ht, ⟨_, he⟩ | he⟩ := revokeCapability_cases hl h x
  · rw [he]
    exact refl_of (AlikeBeside s) _
  · obtain ⟨halike, hwithin⟩ := ht.alike hl (hx hn)
    rw [he, (restore_restored x m₁).table]
    exact trans_of (AlikeBeside s) halike (AlikeBeside.restore hwithin)
  · rw [he]
    exact (ht.alike hl (hx hn)).1

/-- Whatever is done to what a slot reaches leaves the table alike beside the slot. -/
theorem Operation.Effect.alike (he : op.Effect h m m') (hl : m.table.Lineal)
    (hop : op.TouchesOnly s fun x => m.table.get x = .null ∨ m.table.Reaches s x) :
    AlikeBeside s m.table m'.table := by
  cases he with
  | move hs ht =>
    rw [Machine.relocate_table]
    exact .relink hl.strung (hop.1.resolve_left hs) ht (Machine.reseats_arriving ..)
  | delete hs =>
    rw [Machine.discard_table]
    exact .unlink hl.strung (hop.resolve_left hs)
  | derive hd ht =>
    rw [Machine.bear_table]
    exact .derive hl (hop.1.imp_right fun hr => hr.resolve_left hd.ne_null.1) ht hd
  | revoke =>
    refine Machine.revokeCapability_alike h hl fun hn => ?_
    exact hop.imp_right fun hr => hr.resolve_left hn
  | @load x r k hs =>
    -- a region that is loaded is there, so it is reached
    have hr : m.table.Reaches s x := hop.resolve_left (by simp [hs])
    obtain ⟨_, he⟩ := Machine.install_exec m x r k
    rw [he]
    have hne : x ≠ s := (hl.strung.ne_of_reaches hr).symm
    exact .set (.inr hr) (by rw [hs]; rfl) fun hxs => absurd hxs hne
  | @unload x r hs =>
    have hr : m.table.Reaches s x := hop.resolve_left (by simp [hs])
    obtain ⟨_, he⟩ := Machine.uninstall_exec m x r
    rw [he]
    have hne : x ≠ s := (hl.strung.ne_of_reaches hr).symm
    exact .set (.inr hr) (by rw [hs]; rfl) fun hxs => absurd hxs hne
  | _ => exact hop.elim

theorem Reachable.reaches_of_obtained (hm : Reachable roots m) (hx : m.Obtained s x) :
    m.table.Reaches s x := by
  obtain ⟨i, j, hi, hj, hd⟩ := hx
  exact hm.reaches_of_descends hi hj hd

/-- The table stays alike beside a slot as long as only what was obtained from it is touched. -/
theorem Machine.Tends.alike (ht : m.Tends s n) (hm : Reachable roots m) :
    Reachable roots n ∧ AlikeBeside s m.table n.table := by
  induction ht with
  | refl => exact ⟨hm, refl_of (AlikeBeside s) _⟩
  | hushed _ hs hh ih =>
    refine ⟨ih.1.step hs, ?_⟩
    rw [hh.table]
    exact ih.2
  | @operation n n' op _ hp hop ih =>
    obtain ⟨hn, halike⟩ := ih
    refine ⟨hn.step hp.step, trans_of (AlikeBeside s) halike ?_⟩
    rcases hp.amounts with hh | ⟨h, m₁, h₁, h₂⟩
    · rw [hh.table]
      exact refl_of (AlikeBeside s) _
    · rw [h₂.table, ← h₁.table]
      -- what is reached in this machine was obtained in an earlier one
      have hop' : op.TouchesOnly s fun x => m₁.table.get x = .null ∨ m₁.table.Reaches s x := by
        rw [h₁.table]
        exact hop.mono fun x hx => hx.imp_right hn.reaches_of_obtained
      rcases op.aside_or_effect h m₁ with ha | ⟨he, _⟩
      · rw [ha.hushed.table]
        exact refl_of (AlikeBeside s) _
      · exact he.alike (h₁.table ▸ hn.lineal) hop'

/-! ## What nothing was handed out of -/

/-- A range that is fresh is what it is restored to. -/
theorem Capability.restored_of_isFresh {c : Capability} (hc : c.isFresh = true) :
    c.restored = c := by
  have hreset : ∀ r : Span, r.Fresh → r.reset = r := by
    rintro ⟨b, k, l⟩ ⟨hb, _⟩
    have hb : b = k := hb
    rw [hb]
    rfl
  cases c with
  | memory r =>
    simp only [isFresh, Bool.and_eq_true, Bool.not_eq_true', decide_eq_true_eq] at hc
    rw [restored, hreset _ hc.2, ← hc.1]
  | time hart r => rw [restored, hreset r (of_decide_eq_true hc)]
  | monitor r => rw [restored, hreset r (of_decide_eq_true hc)]
  | channel r => rw [restored, hreset r (of_decide_eq_true hc)]
  | _ => rfl

/-- A fresh range of channels reaches nothing, as long as its mark is above the sockets. -/
theorem Capability.not_mayRevoke_of_fresh {r : Span} {c : Capability} (hr : r.Fresh)
    (hp : (channel r).Precedes c) (hb : (channel r).Bounds c) :
    ¬ (channel r).mayRevoke c = true := by
  -- nothing lies between the base of a fresh range and its mark
  cases hp with
  | channel ha =>
    rw [mayRevoke_channel]
    simp only [Span.Fresh, Span.Above, Span.Covers] at *
    bv_omega
  | @ends _ k =>
    have hlt : k.chan < r.mark := hb r k rfl rfl
    rw [mayRevoke_end]
    simp only [Span.Fresh, Span.Contains] at *
    bv_omega

/-- A fresh range from which nothing is there that was obtained from it reaches nothing. -/
theorem Reachable.bare (hm : Reachable roots m) (hfresh : (m.table.get s).isFresh = true)
    {r : Span} (hspan : (m.table.get s).span? = some r) (hnone : ∀ x, ¬ m.Obtained s x)
    (hchan : ∀ r, m.table.get s = .channel r →
      ReachableBy Thorough roots m ∨ ∀ x, ¬ m.table.Reaches s x) : m.table.Bare s := by
  refine ⟨Capability.restored_of_isFresh hfresh, fun x hx => ?_⟩
  have hg := hm.reflects
  obtain ⟨i, hi⟩ := hg.exists_holder (hm.lineal.strung.occupied_left hx.1)
  obtain ⟨j, hj⟩ := hg.exists_holder (hm.lineal.strung.occupied_of_reaches hx)
  by_cases htract : (m.table.get s).isTract = true
  · exact hnone x ⟨i, j, hi, hj, (hg.reached hi hj htract hx.1).1 hx.2⟩
  · -- what is left of the ranges are those of channels
    generalize hc : m.table.get s = c at hfresh hspan htract
    cases c with
    | channel r =>
      rcases hchan r hc with hby | hno
      · have hp := hm.lineal.precedes s x hx.1
        have hb := hby.bounded s x hx.1
        have hr := hx.2
        rw [hc] at hp hb hr
        exact Capability.not_mayRevoke_of_fresh (of_decide_eq_true hfresh) hp hb hr
      · exact hno x hx
    | time => exact htract rfl
    | memory => exact htract rfl
    | monitor => exact htract rfl
    | _ => cases hspan

/-! ## A completed revocation -/

/-- Once a slot has taken everything back, it reaches nothing and has its whole range. -/
theorem Takes.bare (ht : Takes s (m.table.descendants s) m m') (hl : m.table.Lineal)
    (hs : m.table.get s ≠ .null) : (m'.table.restore s).Bare s := by
  obtain ⟨_, hnone⟩ := ht.ready_restore hl hs rfl
  constructor
  case whole =>
    rw [Table.restore, Table.get_set_self, Capability.restored_restored]
  case reaches =>
    intro x hx
    rw [Table.restore, Table.reaches_set (Capability.outline_restored _).symm] at hx
    have hr := hx.2
    rw [hnone x hx.1] at hr
    cases hr

/-- Revoking a range until that succeeds leaves a machine of the same kernel that changes lead to,
and a table of which nothing is handed out. -/
theorem Machine.insist_reclaims (hl : n.table.Lineal) (hs : n.table.get s ≠ .null)
    {calls : Nat → Hart × Board} {i : Nat} (hok : insistAnswer s calls n i = .ok ())
    (hp : ∀ j < i, insistAnswer s calls n j = .error .preempted) :
    ∃ k : Machine, ReflTransGen Change n k ∧ (insist s calls n (i + 1)).toKernel = k.toKernel ∧
      AlikeBeside s n.table k.table ∧ k.table.Bare s := by
  have hb := (begun_insist hl hs hp).1
  have he := insist_exec s calls n i
  rw [hok] at he
  -- the attempts together are one revoke that was not interrupted
  obtain ⟨k, ht, hk⟩ := revokeCapability_completed hb hl hs he
  obtain ⟨hn, hnone⟩ := ht.ready_restore hl hs rfl
  obtain ⟨halike, hwithin⟩ := ht.alike hl (.inl rfl)
  have htable : ((restore s).exec k).2.table = k.table.restore s := (restore_restored s k).table
  refine ⟨((restore s).exec k).2, .tail ht.changes (.restore hn hnone), hk, ?_, ?_⟩
  · rw [htable]
    exact trans_of (AlikeBeside s) halike (AlikeBeside.restore hwithin)
  · rw [htable]
    exact ht.bare hl hs

/-- Whatever was done to what was handed out of a range, revoking the range until that succeeds
brings back the capability table, the schedule and the configuration of all protection registers.
A range of channels must not have come after a revocation of channels that stopped halfway, unless
there is nothing that it reaches. -/
theorem revokeCapability_reclaims (hroots : roots.Pairwise Capability.TimeDisjoint)
    (hm : Reachable roots m) {r : Span} (hfresh : (m.table.get s).isFresh = true)
    (hspan : (m.table.get s).span? = some r) (hnone : ∀ x, ¬ m.Obtained s x)
    (hchan : ∀ r, m.table.get s = .channel r →
      ReachableBy Thorough roots m ∨ ∀ x, ¬ m.table.Reaches s x)
    (ht : m.Tends s n) (calls : Nat → Hart × Board) : ∃ i,
    (∀ j < i, Machine.insistAnswer s calls n j = .error .preempted) ∧
      Machine.insistAnswer s calls n i = .ok () ∧
      (Machine.insist s calls n (i + 1)).table = m.table ∧
      (Machine.insist s calls n (i + 1)).schedule = m.schedule ∧
      ∀ p k, (((Machine.insist s calls n (i + 1)).processes.get p).bank.get k).config =
        ((m.processes.get p).bank.get k).config := by
  obtain ⟨hn, halike⟩ := ht.alike hm
  have hbare := hm.bare hfresh hspan hnone hchan
  have hs : n.table.get s ≠ .null := by
    intro hnull
    have hr := halike.restored
    rw [hnull, hbare.whole] at hr
    rw [← hr] at hspan
    cases hspan
  obtain ⟨i, hok, hp⟩ := Machine.exists_completed hn.lineal hs calls
  obtain ⟨k, hc, hk, halike', hbare'⟩ := Machine.insist_reclaims hn.lineal hs hok hp
  -- both tables are bare at the range, and alike beside it
  have htable : k.table = m.table :=
    (trans_of (AlikeBeside s) halike halike').eq hm.lineal.strung
      (lineal_of_changes hc hn.lineal).strung hbare hbare'
  -- schedule and registers follow from the table
  have hprojects : k.Projects :=
    projects_of_changes hc hn.lineal (hn.timeShared hroots) (hn.projects hroots)
  have hmirrors : k.Mirrors :=
    changes_keep (P := Machine.Mirrors) (fun _ _ hl hP hc => hc.mirrors hl hP) hc hn.lineal
      hn.mirrors
  refine ⟨i, hp, hok, ?_, ?_, ?_⟩
  · exact (congrArg Kernel.table hk).trans htable
  · exact (congrArg Kernel.schedule hk).trans ((hm.projects hroots).schedule_eq hprojects htable)
  · intro p j
    have hprocesses : (Machine.insist s calls n (i + 1)).processes = k.processes :=
      congrArg Kernel.processes hk
    rw [hprocesses]
    exact hm.mirrors.config_eq hmirrors htable p j

/-- Memory goes to process 1, which carves a region out of it for process 2. That is loaded, and
what was in between is deleted. Process 0 gets all of its memory back, and the register is free. -/
theorem revokeCapability_reclaims_orphaned : ∃ m n,
    Reachable [.wholeTime 0 0 64, .wholeMemory 0x80000000 0x80010000 ⟨true, true, true⟩] m ∧
      n.table.get ⟨1, 0⟩ = .null ∧ ((n.processes.get 2).bank.get 3).config = 0x1b ∧
      ∀ calls : Nat → Hart × Board, ∃ i, Machine.insistAnswer ⟨0, 1⟩ calls n i = .ok () ∧
        (Machine.insist ⟨0, 1⟩ calls n (i + 1)).table = m.table ∧
        (((Machine.insist ⟨0, 1⟩ calls n (i + 1)).processes.get 2).bank.get 3).config = 0 := by
  let memory : Capability := .wholeMemory 0x80000000 0x80010000 ⟨true, true, true⟩
  let region : Region := ⟨0x200001ff, ⟨true, true, false⟩, false, 0⟩
  obtain ⟨m, hm⟩ : ∃ m, m = Machine.afterAll [.wholeTime 0 0 64, memory] [] := ⟨_, rfl⟩
  have hreach : Reachable [.wholeTime 0 0 64, memory] m := hm ▸ .afterAll rfl _
  have hroots : [.wholeTime 0 0 64, memory].Pairwise Capability.TimeDisjoint := by
    rw [List.pairwise_pair]
    rintro h k - ⟨⟩
  -- the memory is the youngest instance so far
  have hholder : m.genealogy.holder ⟨0, 1⟩ = some 1 := by rw [hm]; decide +kernel
  have hcount : m.genealogy.count = 2 := by rw [hm]; decide +kernel
  have hnone : ∀ x, ¬ m.Obtained ⟨0, 1⟩ x := by
    rintro x ⟨i, j, hi, _, hd⟩
    obtain rfl := Option.some.inj (hholder.symm.trans hi)
    have := hreach.reflects.wellFormed.lt_of_descends hd
    omega
  have hget : m.table.get ⟨0, 1⟩ = memory := by rw [hm]; decide +kernel
  let part : Capability := .wholeMemory 0x80000000 0x80008000 ⟨true, true, false⟩
  obtain ⟨m₁, h₁⟩ : ∃ m₁, m₁ = ((Operation.run 0
    (.capDerive ⟨0, 1⟩ ⟨1, 0⟩ part)).exec m).2 := ⟨_, rfl⟩
  obtain ⟨m₂, h₂⟩ : ∃ m₂, m₂ = ((Operation.run 0
    (.capDerive ⟨1, 0⟩ ⟨2, 0⟩ (.pmp region))).exec m₁).2 := ⟨_, rfl⟩
  obtain ⟨m₃, h₃⟩ : ∃ m₃, m₃ = ((Operation.run 0 (.pmpLoad ⟨2, 0⟩ 3)).exec m₂).2 := ⟨_, rfl⟩
  obtain ⟨n, hn⟩ : ∃ n, n = ((Operation.run 0 (.capDelete ⟨1, 0⟩)).exec m₃).2 := ⟨_, rfl⟩
  have ht₁ : m.Tends ⟨0, 1⟩ m₁ := by
    refine h₁ ▸ .operation .refl (.operation 0 _) ⟨.inl rfl, .inl ?_⟩
    rw [hm]; decide +kernel
  have ht₂ : m.Tends ⟨0, 1⟩ m₂ := by
    refine h₂ ▸ .operation ht₁ (.operation 0 _) ⟨.inr (.inr ⟨1, 2, ?_, ?_, .single ?_⟩), .inl ?_⟩
    all_goals rw [h₁, hm]; decide +kernel
  have ht₃ : m.Tends ⟨0, 1⟩ m₃ := by
    have hdesc : m₂.genealogy.Descends 3 1 := by
      refine .tail (b := 2) (.single ?_) ?_
      all_goals rw [h₂, h₁, hm]; decide +kernel
    refine h₃ ▸ .operation ht₂ (.operation 0 _) (.inr ⟨1, 3, ?_, ?_, hdesc⟩)
    all_goals rw [h₂, h₁, hm]; decide +kernel
  have ht : m.Tends ⟨0, 1⟩ n := by
    refine hn ▸ .operation ht₃ (.operation 0 _) (.inr ⟨1, 2, ?_, ?_, .single ?_⟩)
    all_goals rw [h₃, h₂, h₁, hm]; decide +kernel
  refine ⟨m, n, hreach, ?_, ?_, fun calls => ?_⟩
  · rw [hn, h₃, h₂, h₁, hm]; decide +kernel
  · rw [hn, h₃, h₂, h₁, hm]; decide +kernel
  · have hchan : ∀ r, m.table.get ⟨0, 1⟩ = .channel r →
        ReachableBy Thorough [.wholeTime 0 0 64, memory] m ∨
          ∀ x, ¬ m.table.Reaches ⟨0, 1⟩ x := by
      intro r hr
      rw [hget] at hr
      simp [memory, Capability.wholeMemory] at hr
    obtain ⟨i, _, hok, htable, _, hconfig⟩ := revokeCapability_reclaims hroots hreach
      (by rw [hget]; decide) (by rw [hget]; rfl) hnone hchan ht calls
    refine ⟨i, hok, htable, (hconfig 2 3).trans ?_⟩
    rw [hm]; decide +kernel

/-- A revocation of channels stopped right after it took a server back. The channels that are handed
out next come with a client of that server, which was not made of them: revoking them right away
deletes the client. -/
theorem reclaims_foreign_client : ∃ m m' r k,
    [Capability.wholeTime 0 0 64, .wholeChannel 0 16].Pairwise Capability.TimeDisjoint ∧
      Reachable [.wholeTime 0 0 64, .wholeChannel 0 16] m ∧
      m.table.get ⟨2, 0⟩ = .channel r ∧ (m.table.get ⟨2, 0⟩).isFresh = true ∧
      (∀ x, ¬ m.Obtained ⟨2, 0⟩ x) ∧ m.table.get ⟨1, 0⟩ = .socket k ∧
      (Machine.revokeCapability 0 ⟨2, 0⟩).exec m = (.ok (), m') ∧
      m'.table.get ⟨1, 0⟩ = .null := by
  have hroots : [Capability.wholeTime 0 0 64, .wholeChannel 0 16].Pairwise
      Capability.TimeDisjoint := by
    rw [List.pairwise_pair]
    rintro h k - ⟨⟩
  obtain ⟨m₀, h₀⟩ : ∃ m₀, m₀ = Machine.afterAll [.wholeTime 0 0 64, .wholeChannel 0 16]
    [(0, .capDerive ⟨0, 1⟩ ⟨0, 2⟩ (.socket ⟨3, .yield, .ofBits 15, 0⟩)),
      (0, .capDerive ⟨0, 2⟩ ⟨1, 0⟩ (.socket ⟨3, .yield, .ofBits 15, 5⟩))] := ⟨_, rfl⟩
  have hm₀ : Reachable [.wholeTime 0 0 64, .wholeChannel 0 16] m₀ := h₀ ▸ .afterAll rfl _
  -- the deadline of the first hart is reached when it asks for the first time
  obtain ⟨m₁, h₁⟩ : ∃ m₁, m₁ = ((Operation.run 0 (.capRevoke ⟨0, 1⟩)).exec
    { m₀ with board := m₀.board.setDeadline 0 0, lockHolder := none }).2 := ⟨_, rfl⟩
  have hm₁ : Reachable [.wholeTime 0 0 64, .wholeChannel 0 16] m₁ :=
    h₁ ▸ (hm₀.step (.board _ none)).step (.operation 0 _)
  obtain ⟨m, hm⟩ : ∃ m, m = ((Operation.run 1 (.capDerive ⟨0, 1⟩ ⟨2, 0⟩
    (.wholeChannel 3 16))).exec { m₁ with board := .initial, lockHolder := none }).2 := ⟨_, rfl⟩
  have hreach : Reachable [.wholeTime 0 0 64, .wholeChannel 0 16] m :=
    hm ▸ (hm₁.step (.board _ none)).step (.operation 1 _)
  have hholder : m.genealogy.holder ⟨2, 0⟩ = some 4 := by rw [hm, h₁, h₀]; decide +kernel
  have hcount : m.genealogy.count = 5 := by rw [hm, h₁, h₀]; decide +kernel
  have hok : ((Machine.revokeCapability 0 ⟨2, 0⟩).exec m).1 = .ok () := by
    rw [hm, h₁, h₀]; decide +kernel
  have hr : (Machine.revokeCapability 0 ⟨2, 0⟩).exec m = (.ok (), _) := Prod.ext hok rfl
  refine ⟨m, _, ⟨3, 3, 16⟩, ⟨3, .yield, .ofBits 15, 5⟩, hroots, hreach, ?_, ?_, ?_, ?_, hr, ?_⟩
  · rw [hm, h₁, h₀]; decide +kernel
  · rw [hm, h₁, h₀]; decide +kernel
  · rintro x ⟨i, j, hi, _, hd⟩
    obtain rfl := Option.some.inj (hholder.symm.trans hi)
    have := hreach.reflects.wellFormed.lt_of_descends hd
    omega
  · rw [hm, h₁, h₀]; decide +kernel
  · rw [hm, h₁, h₀]; decide +kernel

end SepKernel
