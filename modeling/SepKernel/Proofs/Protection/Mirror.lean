import SepKernel.Proofs.Machine.Release

/-!
# Protection registers mirror loaded regions

A process can touch memory through its protection registers only, and those are written in another
table than the capabilities that justify them. In every reachable machine the two agree: a register
is taken if and only if exactly one capability of its process is loaded in it, and what it contains
is that capability's area and access.

A register at a time agrees with the slots of its process. Whatever the kernel does to the slots is
one of three things for a register: the regions stay, though perhaps in other slots; a slot gives up
its region, and with it the register; or a region is loaded into a free register.
-/

namespace SepKernel

variable {m m' : Machine} {roots : List Capability} {t t' : Table} {b b' : Bank} {p : Pid}
  {k : RegionIndex} {c d : Capability} {s x source target : Slot} {r : Region}

/-! ## Loaded regions -/

def Capability.loaded? : Capability → Option Region
  | .pmp r => if r.loaded then some r else none
  | _ => none

def Region.protection (r : Region) : Protection :=
  ⟨Protection.configFor r.access, r.address.setWidth 64⟩

theorem Region.isFree_protection (r : Region) : r.protection.isFree = false :=
  beq_eq_false_iff_ne.2 (Protection.configFor_ne_zero r.access)

namespace Capability

/-- Only regions are loaded. -/
theorem loaded?_eq_some_iff : c.loaded? = some r ↔ c = pmp r ∧ r.loaded = true := by
  cases c with
  | pmp r' =>
    rw [loaded?, pmp.injEq]
    constructor
    · intro h
      split at h
      · next hl =>
        cases h
        exact ⟨rfl, hl⟩
      · cases h
    · rintro ⟨rfl, hl⟩
      rw [if_pos hl]
  | _ => simp [loaded?]

/-- Sitting in a register is being loaded there. -/
theorem sitsIn_iff : c.SitsIn k ↔ ∃ r, c.loaded? = some r ∧ r.slot.toNat = k.val := by
  simp only [SitsIn, loaded?_eq_some_iff, and_assoc]

@[simp] theorem loaded?_null : null.loaded? = none := rfl

/-- A region is unloaded when it goes to another process. -/
theorem loaded?_unloaded (c : Capability) : c.unloaded.loaded? = none := by
  cases c with
  | pmp r =>
    cases hl : r.loaded <;> simp [unloaded, loaded?, hl]
  | _ => rfl

/-- What is fresh is not loaded. -/
theorem loaded?_of_isFresh (h : c.isFresh = true) : c.loaded? = none := by
  cases c with
  | pmp r => simp_all [isFresh, loaded?]
  | _ => rfl

theorem loaded?_afterDeriving (c d : Capability) : (c.afterDeriving d).loaded? = c.loaded? := by
  cases c <;> cases d <;> rfl

/-- Taking a child back loads and unloads nothing, although the capability may be a channel that
gets its number back. -/
theorem loaded?_afterReclaiming (c d : Capability) :
    (c.afterReclaiming d).loaded? = c.loaded? := by
  cases c with
  | channel =>
    cases d with
    | socket k =>
      rw [afterReclaiming]
      split <;> rfl
    | _ => rfl
  | _ => cases d <;> rfl

theorem loaded?_restored (c : Capability) : c.restored.loaded? = c.loaded? := by
  cases c <;> rfl

end Capability

/-! ## A register and the slots of its process -/

namespace Table

/-- Does a slot of a process hold a region that is loaded in a register? -/
def Seats (t : Table) (p : Pid) (k : RegionIndex) (s : Slot) (r : Region) : Prop :=
  s.owner = p ∧ (t.get s).loaded? = some r ∧ r.slot.toNat = k.val

theorem Seats.sitsIn (h : t.Seats p k s r) : (t.get s).SitsIn k :=
  Capability.sitsIn_iff.2 ⟨r, h.2⟩

/-- A region that sits in a register is seated there by its slot. -/
theorem seats_of_sitsIn (ho : s.owner = p) (h : (t.get s).SitsIn k) : ∃ r, t.Seats p k s r := by
  obtain ⟨r, hr, hk⟩ := Capability.sitsIn_iff.1 h
  exact ⟨r, ho, hr, hk⟩

/-- A register of a process agrees with the regions in the slots of the process. -/
structure Mirrors (t : Table) (b : Bank) (p : Pid) (k : RegionIndex) : Prop where
  content : ∀ s r, t.Seats p k s r → b.get k = r.protection
  unique : ∀ s s' r r', t.Seats p k s r → t.Seats p k s' r' → s = s'
  backed : (b.get k).isFree = false → ∃ s r, t.Seats p k s r

namespace Mirrors

/-- The register stays, and so do the regions, if some slots are exchanged. -/
theorem map (h : t.Mirrors b p k) (σ : Equiv.Perm Slot) (hb : b'.get k = b.get k)
    (ht : ∀ s r, t'.Seats p k s r ↔ t.Seats p k (σ s) r) : t'.Mirrors b' p k where
  content s r hs := by
    rw [hb]
    exact h.content (σ s) r ((ht s r).1 hs)
  unique s s' r r' hs hs' :=
    σ.injective (h.unique _ _ r r' ((ht s r).1 hs) ((ht s' r').1 hs'))
  backed hf := by
    rw [hb] at hf
    obtain ⟨s, r, hs⟩ := h.backed hf
    exact ⟨σ.symm s, r, (ht _ r).2 (by rwa [Equiv.apply_symm_apply])⟩

/-- The register stays, and so does what is loaded in each slot. -/
theorem congr (h : t.Mirrors b p k) (hb : b'.get k = b.get k)
    (ht : ∀ s, (t'.get s).loaded? = (t.get s).loaded?) : t'.Mirrors b' p k :=
  h.map (Equiv.refl _) hb fun s r => by rw [Seats, Seats, ht, Equiv.refl_apply]

/-- The register is free, and there is no region for it. -/
theorem of_free (hb : (b.get k).isFree = true) (ht : ∀ s r, ¬ t.Seats p k s r) :
    t.Mirrors b p k where
  content s r hs := absurd hs (ht s r)
  unique s _ r _ hs := absurd hs (ht s r)
  backed hf := by
    rw [hb] at hf
    cases hf

/-- No region is loaded in a free register. -/
theorem not_seats (h : t.Mirrors b p k) (hb : (b.get k).isFree = true) : ¬ t.Seats p k s r := by
  intro hs
  rw [h.content s r hs, r.isFree_protection] at hb
  cases hb

/-- A slot gives up its capability, or its region is unloaded. -/
theorem giveUp (h : t.Mirrors b p k)
    (ht : ∀ s, (t'.get s).loaded? = if s = x then none else (t.get s).loaded?)
    (hb : b' = if x.owner = p then (t.get x).unseat b else b) : t'.Mirrors b' p k := by
  -- the seats of the others are the same
  have hseats : ∀ s r, t'.Seats p k s r ↔ s ≠ x ∧ t.Seats p k s r := by
    intro s r
    rw [Seats, Seats, ht]
    by_cases hs : s = x
    · simp [hs]
    · simp [hs]
  by_cases hsits : x.owner = p ∧ (t.get x).SitsIn k
  · -- nobody else was in the register, so that it is free now
    obtain ⟨rx, hrx⟩ := seats_of_sitsIn hsits.1 hsits.2
    refine of_free ?_ ?_
    · rw [hb, if_pos hsits.1]
      exact Capability.isFree_unseat hsits.2 b
    · intro s r hs
      obtain ⟨hne, hs⟩ := (hseats s r).1 hs
      exact hne (h.unique s x r rx hs hrx)
  · refine h.map (Equiv.refl _) ?_ ?_
    · rw [hb]
      split
      · next ho => exact Capability.get_unseat_of_not_sitsIn (fun hk => hsits ⟨ho, hk⟩) b
      · rfl
    · intro s r
      rw [hseats, Equiv.refl_apply]
      constructor
      · rintro ⟨_, hs⟩
        exact hs
      · intro hs
        refine ⟨?_, hs⟩
        rintro rfl
        exact hsits ⟨hs.1, hs.sitsIn⟩

/-- A region is loaded into a free register. -/
theorem load (h : t.Mirrors b p k) {j : RegionIndex} (hs : t.get x = .pmp r)
    (hl : r.loaded = false) (hf : x.owner = p → (b.get j).isFree = true)
    (ht : t' = t.set x (.pmp { r with loaded := true, slot := BitVec.ofNat 8 j }))
    (hb : b' = if x.owner = p then b.load j r.access (r.address.setWidth 64) else b) :
    t'.Mirrors b' p k := by
  let r' : Region := { r with loaded := true, slot := BitVec.ofNat 8 j }
  have hj : r'.slot.toNat = j.val := by
    simp only [r', BitVec.toNat_ofNat]
    omega
  have hget : ∀ s, (t'.get s).loaded? = if s = x then some r' else (t.get s).loaded? := by
    intro s
    rw [ht, get_set]
    by_cases hsx : s = x
    · rw [if_pos hsx, if_pos hsx.symm]
      rfl
    · rw [if_neg hsx, if_neg (Ne.symm hsx)]
  by_cases hin : x.owner = p ∧ j = k
  · -- the only region in the register is the new one
    obtain ⟨ho, rfl⟩ := hin
    have hnot : ∀ s r, ¬ t.Seats p j s r := fun s r => h.not_seats (hf ho)
    have honly : ∀ s r, t'.Seats p j s r → s = x ∧ r = r' := by
      rintro s r ⟨hsp, hsl, hsk⟩
      rw [hget] at hsl
      split at hsl
      · next hsx =>
        cases hsl
        exact ⟨hsx, rfl⟩
      · exact absurd ⟨hsp, hsl, hsk⟩ (hnot s r)
    constructor
    case content =>
      intro s r hs
      obtain ⟨_, rfl⟩ := honly s r hs
      rw [hb, if_pos ho, Bank.load, Bank.get_put, if_pos rfl]
      rfl
    case unique =>
      intro s s' r r' hs hs'
      rw [(honly s r hs).1, (honly s' r' hs').1]
    case backed => exact fun _ => ⟨x, r', ho, by rw [hget, if_pos rfl], hj⟩
  · -- the region was nowhere before, and is not in this register now
    refine h.map (Equiv.refl _) ?_ ?_
    · rw [hb]
      split
      · next ho => rw [Bank.load, Bank.get_put, if_neg fun hjk => hin ⟨ho, hjk⟩]
      · rfl
    · intro s r₁
      rw [Seats, Seats, hget, Equiv.refl_apply]
      by_cases hsx : s = x
      · subst hsx
        rw [if_pos rfl]
        constructor
        · rintro ⟨ho, he, hk⟩
          cases he
          exact absurd ⟨ho, Fin.ext (hj.symm.trans hk)⟩ hin
        · rintro ⟨_, he, _⟩
          rw [hs, Capability.loaded?, hl] at he
          cases he
      · rw [if_neg hsx]

end Mirrors

end Table

/-! ## Changes -/

def Machine.Mirrors (m : Machine) : Prop :=
  ∀ p k, m.table.Mirrors (m.processes.get p).bank p k

/-- Every deed keeps the registers and the slots in agreement. A move within a process only renames
the slot; whatever else takes a region away frees its register, and loading fills a register that
was free. -/
theorem Deed.mirrors (hd : Deed m m') (hl : m.table.Lineal) (h : m.Mirrors) : m'.Mirrors := by
  intro p k
  have hpk := h p k
  cases hd with
  | @move source target hs hv =>
    rw [Machine.relocate_table, Machine.relocate_bank, Machine.arriving]
    by_cases ho : source.owner = target.owner
    · -- the slots that were exchanged belong to the same process
      have hswap : ∀ s, (Equiv.swap source target s).owner = s.owner := by
        intro s
        rw [Equiv.swap_apply_def]
        split
        · next he => rw [he, ho]
        · split
          · next he => rw [he, ho]
          · rfl
      rw [if_pos ho, if_neg (by simp [ho])]
      refine hpk.map (Equiv.swap source target) rfl ?_
      intro s r
      rw [Table.Seats, Table.Seats, hl.strung.get_relink_self hv, hswap]
    · rw [if_neg ho]
      -- between processes the region leaves the bank of its owner and arrives unloaded
      refine hpk.giveUp (x := source) ?_ (by simp [ho])
      intro s
      rw [hl.strung.get_relink hv]
      by_cases hss : s = source
      · rw [if_pos hss, if_pos hss.symm]
        rfl
      · rw [if_neg hss, if_neg (Ne.symm hss)]
        split
        · next hts => rw [← hts, hv, Capability.loaded?_unloaded, Capability.loaded?_null]
        · rfl
  | @delete s hs =>
    rw [Machine.discard_table, Machine.discard_bank]
    refine hpk.giveUp (x := s) ?_ rfl
    intro u
    rw [Table.get_unlink]
    by_cases hus : u = s
    · simp [hus]
    · simp [hus, Ne.symm hus]
  | @derive source target c hd hv =>
    rw [Machine.bear_table, Machine.bear_processes]
    -- the newborn is not loaded, and its parent stays as it was
    refine hpk.congr rfl ?_
    intro s
    rw [hl.get_derive hv hd]
    split
    · next hts =>
      rw [← hts, hv]
      exact Capability.loaded?_of_isFresh
        (Capability.isFresh_of_mayDerive (Capability.mayDerive_iff.2 hd))
    · split
      · next hss => rw [← hss, Capability.loaded?_afterDeriving]
      · rfl
  | @load s r j hs hload hf =>
    obtain ⟨_, he⟩ := Machine.install_exec m s r j
    rw [he]
    refine hpk.load hs hload (j := j) ?_ rfl ?_
    · rintro rfl
      exact hf
    · simp only [Processes.get_put]
      split
      · next hp => rw [hp]
      · rfl
  | @unload s r hs hload =>
    obtain ⟨_, he⟩ := Machine.uninstall_exec m s r
    rw [he]
    refine hpk.giveUp (x := s) ?_ ?_
    · intro u
      rw [Table.get_set]
      by_cases hus : u = s
      · simp [hus, Capability.loaded?]
      · simp [hus, Ne.symm hus]
    · simp only [Processes.get_put, hs, Capability.unseat, hload, if_true]
      split
      · next hp => rw [hp]
      · rfl

/-- Besides the deeds, only taking a child back has to do with registers: it frees the one of the
child. -/
theorem Change.mirrors (hc : Change m m') (hl : m.table.Lineal) (h : m.Mirrors) : m'.Mirrors := by
  cases hc with
  | quiet hq =>
    intro p k
    rw [hq.table, hq.bank]
    exact h p k
  | deed hd => exact hd.mirrors hl h
  | @takeBack s d hn hr =>
    intro p k
    have htb := Machine.takeBack_tookBack s d m
    have hsd : s ≠ d := fun he => hl.strung.next_ne_self s (by rw [hn, ← he])
    rw [htb.table]
    -- the owner of what is taken back gives it up
    refine (h p k).giveUp (x := d) ?_ ?_
    · intro u
      rw [Table.get_takeBack]
      by_cases hud : u = d
      · rw [if_neg (hud ▸ hsd), if_pos hud.symm, if_pos hud]
        rfl
      · rw [if_neg hud, if_neg (Ne.symm hud)]
        split
        · next hsu => rw [← hsu, Capability.loaded?_afterReclaiming]
        · rfl
    · rw [htb.bank]
      split
      · next hp => rw [hp]
      · rfl
  | @restore s hs =>
    intro p k
    have hrs := Machine.restore_restored s m
    rw [hrs.table, hrs.processes]
    refine (h p k).congr rfl ?_
    intro u
    rw [Table.restore, Table.get_set]
    split
    · next hsu => rw [← hsu, Capability.loaded?_restored]
    · rfl

/-! ## Reachable machines -/

/-- No root is loaded, so that after booting all registers are free. -/
theorem boot_mirrors (hb : (Machine.boot roots).exec .initial = (.ok (), m)) : m.Mirrors := by
  -- nothing is loaded, and all registers are free
  suffices (∀ s, (m.table.get s).loaded? = none) ∧
      ∀ p k, ((m.processes.get p).bank.get k).isFree = true by
    intro p k
    refine .of_free (this.2 p k) ?_
    rintro s r ⟨_, hr, _⟩
    rw [this.1] at hr
    cases hr
  refine Machine.boot_keeps_any (P := fun m => (∀ s, (m.table.get s).loaded? = none) ∧
    ∀ p k, ((m.processes.get p).bank.get k).isFree = true) ?_ ?_ ?_ hb
  · refine ⟨fun s => by rw [Machine.initial_get]; rfl, fun p k => ?_⟩
    simp [Machine.initial, Kernel.blank, Processes.blank, Processes.get, Process.blank, Bank.blank,
      Bank.get, Protection.blank, Protection.isFree]
  · intro m m' hh hP
    refine ⟨fun s => by rw [hh.table]; exact hP.1 s, fun p k => ?_⟩
    rw [hh.bank]
    exact hP.2 p k
  · intro m m' i c _ hc hP hr
    refine ⟨fun s => ?_, fun p k => ?_⟩
    · rw [hr.table, Table.get_insertRoot]
      split
      · cases c with
        | pmp r => simp_all [Capability.isRoot, Capability.loaded?]
        | _ => rfl
      · exact hP.1 s
    · rw [hr.processes]
      exact hP.2 p k

/-- In every reachable machine, the registers mirror the table. -/
theorem Reachable.mirrors (h : Reachable roots m) : m.Mirrors :=
  h.invariant (P := Machine.Mirrors) (fun _ hb => boot_mirrors hb)
    fun _ _ hl hP hc => hc.mirrors hl hP

/-- In every reachable machine, a protection register is taken if and only if exactly one capability
of its process is a region that is loaded in it. It contains the access and the area of that region,
and every loaded region is in a register that exists. -/
theorem register_taken_iff (hm : Reachable roots m) (p : Pid) (k : RegionIndex) :
    (((m.processes.get p).bank.get k).isFree = false ↔
        ∃! s : Slot, s.owner = p ∧ (m.table.get s).SitsIn k) ∧
      (∀ s r, s.owner = p → m.table.get s = .pmp r → r.loaded = true → r.slot.toNat = k.val →
        (m.processes.get p).bank.get k =
          ⟨r.access.bits.setWidth 8 ||| 0x18, r.address.setWidth 64⟩) ∧
      ∀ s r, m.table.get s = .pmp r → r.loaded = true → r.slot.toNat < regionCount := by
  have hpk := hm.mirrors p k -- all of it is what the mirror of the register says
  refine ⟨⟨?_, ?_⟩, ?_, fun s r hs hl => hm.seated s r hs hl⟩
  · intro hf
    obtain ⟨s, r, hs⟩ := hpk.backed hf
    refine ⟨s, ⟨hs.1, hs.sitsIn⟩, ?_⟩
    rintro s' ⟨ho, hsits⟩
    obtain ⟨r', hs'⟩ := Table.seats_of_sitsIn ho hsits
    exact hpk.unique s' s r' r hs' hs
  · rintro ⟨s, ⟨ho, hsits⟩, _⟩
    obtain ⟨r, hs⟩ := Table.seats_of_sitsIn ho hsits
    rw [hpk.content s r hs, r.isFree_protection]
  · intro s r ho hs hl hk
    exact hpk.content s r ⟨ho, Capability.loaded?_eq_some_iff.2 ⟨hs, hl⟩, hk⟩

/-- A loaded region goes to another slot of its process: the register stays as it is, and the new
slot is the only one that it can belong to. -/
theorem register_taken_iff_moved : ∃ m,
    Reachable [.wholeTime 0 0 64, .wholeMemory 0x80000000 0x80010000 ⟨true, true, true⟩] m ∧
      m.table.get ⟨0, 2⟩ = .null ∧ (m.table.get ⟨0, 5⟩).SitsIn 3 ∧
      ((m.processes.get 0).bank.get 3).isFree = false ∧
      (∀ s : Slot, s.owner = 0 → (m.table.get s).SitsIn 3 → s = ⟨0, 5⟩) ∧
      (m.processes.get 0).bank.get 3 = ⟨0x1b, 0x200001ff⟩ := by
  let region : Region := ⟨0x200001ff, ⟨true, true, false⟩, false, 0⟩
  obtain ⟨m, he⟩ : ∃ m, m = Machine.afterAll
    [.wholeTime 0 0 64, .wholeMemory 0x80000000 0x80010000 ⟨true, true, true⟩]
    [(0, .capDerive ⟨0, 1⟩ ⟨0, 2⟩ (.pmp region)), (0, .pmpLoad ⟨0, 2⟩ 3),
      (0, .capMove ⟨0, 2⟩ ⟨0, 5⟩)] := ⟨_, rfl⟩
  have hm : Reachable
      [.wholeTime 0 0 64, .wholeMemory 0x80000000 0x80010000 ⟨true, true, true⟩] m :=
    he ▸ .afterAll rfl _
  -- the region stays in register 3 when it moves to another slot of its owner
  have hget : m.table.get ⟨0, 5⟩ = .pmp { region with loaded := true, slot := 3 } := by
    rw [he]; decide +kernel
  have hsits : (m.table.get ⟨0, 5⟩).SitsIn 3 := ⟨_, hget, rfl, rfl⟩
  have hfree : ((m.processes.get 0).bank.get 3).isFree = false := by rw [he]; decide +kernel
  obtain ⟨htaken, hcontent, _⟩ := register_taken_iff hm 0 3
  obtain ⟨s, _, honly⟩ := htaken.1 hfree
  refine ⟨m, hm, by rw [he]; decide +kernel, hsits, hfree, ?_, ?_⟩
  · intro u ho hu
    rw [honly u ⟨ho, hu⟩, honly ⟨0, 5⟩ ⟨rfl, hsits⟩]
  · exact (hcontent ⟨0, 5⟩ _ rfl hget rfl rfl).trans (by decide)

end SepKernel
