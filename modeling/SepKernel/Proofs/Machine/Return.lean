import SepKernel.Proofs.Machine.Calm
import SepKernel.Proofs.Machine.Flawless
import SepKernel.Proofs.Schedule.Projection

/-!
# There and back

A capability that goes to a vacant slot and comes back leaves the capability table as it was, links
and all. Within a process that is all there is to say. Between processes, what comes with the
capability is handed over twice. Its turns come back too, because on a reachable machine they were
those of its first owner before. A loaded region comes back unloaded, and a socket leaves its
channel twice, each time without those who wait because of it.
-/

namespace SepKernel

variable {m m₁ m₂ : Machine} {roots : List Capability} {source target : Slot} {c : Capability}

attribute [ext] Machine

/-! ## The table -/

namespace Table

variable {t : Table}

section Relink
variable (h : t.Strung) (hs : t.get source ≠ .null) (ht : t.get target = .null)
include h hs ht

/-- What the table must look like for the way back. -/
theorem Strung.ready_relink (hc : c ≠ .null) :
    (t.relink source target c).Strung ∧ (t.relink source target c).get target = c ∧
      (t.relink source target c).get source = .null := by
  refine ⟨h.relink hs ht hc, ?_, ?_⟩
  · rw [h.get_relink ht, if_neg (ne_of_vacant hs ht), if_pos rfl]
  · rw [h.get_relink ht, if_pos rfl]

/-- Exchanging the slots a second time, the other way round, brings all links back. -/
theorem Strung.links_relink_relink (hc : c ≠ .null) (d : Capability) (x : Slot) :
    ((t.relink source target c).relink target source d).next x = t.next x ∧
      ((t.relink source target c).relink target source d).previous x = t.previous x := by
  obtain ⟨h₁, hs₁, ht₁⟩ := h.ready_relink hs ht hc
  have hthere := h.links_relink hs ht c x
  have hback := h₁.links_relink (hs₁ ▸ hc) ht₁ d (Equiv.swap source target x)
  have hid : (Equiv.swap source target) ∘ (Equiv.swap source target) = id :=
    funext fun y => Equiv.swap_apply_self source target y
  rw [Equiv.swap_comm target source, Equiv.swap_apply_self, hthere.1, hthere.2, Option.map_map,
    Option.map_map, hid, Option.map_id] at hback
  exact hback

/-- A move and the move back leave all links, and write the capability that came back. -/
theorem Strung.relink_relink (hc : c ≠ .null) (d : Capability) :
    (t.relink source target c).relink target source d = t.set source d := by
  obtain ⟨h₁, hs₁, ht₁⟩ := h.ready_relink hs ht hc
  have hlinks := h.links_relink_relink hs ht hc d
  -- the capabilities first, then the links
  have hget : ∀ x, ((t.relink source target c).relink target source d).get x =
      (t.set source d).get x := by
    intro x
    rw [h₁.get_relink ht₁, h.get_relink ht, get_set]
    by_cases hxt : target = x
    · rw [if_pos hxt, ← hxt, if_neg (ne_of_vacant hs ht), ht]
    · rw [if_neg hxt, if_neg hxt]
      split <;> rfl
  apply Table.ext
  intro x
  calc ((t.relink source target c).relink target source d).entry x
      = ⟨((t.relink source target c).relink target source d).get x,
          ((t.relink source target c).relink target source d).previous x,
          ((t.relink source target c).relink target source d).next x⟩ := rfl
    _ = ⟨(t.set source d).get x, (t.set source d).previous x, (t.set source d).next x⟩ := by
        rw [hget, (hlinks x).1, (hlinks x).2, next_set, previous_set]
    _ = (t.set source d).entry x := rfl

end Relink
end Table

/-! ## What is handed over twice -/

namespace Capability

/-- Unloading twice is unloading. -/
theorem unloaded_unloaded (c : Capability) : c.unloaded.unloaded = c.unloaded := by
  cases c with
  | pmp r => by_cases hl : r.loaded <;> simp [unloaded, hl]
  | _ => rfl

theorem silence_unloaded (c : Capability) : c.unloaded.silence = c.silence := by
  cases c <;> rfl

/-- An unloaded region is in no register. -/
theorem unseat_unloaded (c : Capability) (b : Bank) : c.unloaded.unseat b = b := by
  cases c with
  | pmp r => by_cases hl : r.loaded <;> simp [unloaded, unseat, hl]
  | _ => rfl

end Capability

/-- The board stays as it is and the lock with whoever holds it, and the journal only grows. -/
structure Logged (m m' : Machine) : Prop where
  board : m'.board = m.board
  lockHolder : m'.lockHolder = m.lockHolder
  journal : ∃ notes, m'.journal = m.journal ++ notes

instance : IsPreorder Machine Logged where
  refl _ := ⟨rfl, rfl, #[], Array.append_empty.symm⟩
  trans _ _ _ h h' := by
    obtain ⟨hb, hl, notes, hn⟩ := h
    obtain ⟨hb', hl', notes', hn'⟩ := h'
    exact ⟨hb'.trans hb, hl'.trans hl, notes ++ notes', by rw [hn', hn, Array.append_assoc]⟩

namespace Machine

/-- Changing hands notes at most one event, and asks no clock. -/
theorem handOver_logged (p q : Pid) (c : Capability) :
    Logged m ((handOver p q c).exec m).2 := by
  cases c with
  | time hart s =>
    obtain ⟨_, he⟩ := assignTime_exec (m := m) q hart s.mark s.limit s.limit
    rw [handOver, Action.exec_bind, he]
    exact ⟨rfl, rfl, #[_], Array.push_eq_append⟩
  | pmp r => -- freeing a register is not noted
    rw [handOver]
    split
    · obtain ⟨_, he⟩ := freeRegister_exec (m := m) p r.slot
      rw [Action.exec_bind, he]
      exact ⟨rfl, rfl, #[], Array.append_empty.symm⟩
    · exact refl_of Logged m
  | socket k =>
    obtain ⟨_, he⟩ := clearChannel_exec (m := m) k p
    rw [handOver, Action.exec_bind, he]
    exact ⟨rfl, rfl, #[], Array.append_empty.symm⟩
  | _ => exact refl_of Logged m

/-- A move notes what happened, and nothing else about it. -/
theorem relocate_logged (source target : Slot) (c : Capability) :
    Logged m ((relocate source target c).exec m).2 := by
  unfold relocate
  split
  · exact ⟨by simp, by simp, #[.moved source target c], by simp⟩
  · refine trans_of Logged (handOver_logged source.owner target.owner c) ?_
    exact ⟨by simp, by simp, #[.moved source target c.unloaded], by simp [handOver_answer]⟩

/-- Between processes, only the bank of the one that gives a capability away changes. -/
theorem relocate_processes (source target : Slot) (c : Capability) :
    ((relocate source target c).exec m).2.processes =
      if source.owner = target.owner then m.processes
      else m.processes.put source.owner { m.processes.get source.owner with
        bank := c.unseat (m.processes.get source.owner).bank } := by
  apply Processes.ext
  intro p
  have hbank := relocate_bank m source target c p
  obtain ⟨b, hb⟩ := (relocate_clerical source target c m).settled p
  rw [hb] at hbank ⊢
  dsimp only at hbank
  rw [hbank]
  -- only the process that gives it away has a region unloaded
  by_cases ho : source.owner = target.owner
  · simp [ho]
  · rw [if_neg ho, Processes.get_put]
    by_cases hp : source.owner = p
    · rw [if_pos ⟨ho, hp⟩, if_pos hp, hp]
    · rw [if_neg fun hn => hp hn.2, if_neg hp]

end Machine

/-! ## The way back -/

/-- How a machine differs once the capability in `source` went to `target` and came back. -/
inductive Returned (source target : Slot) (m : Machine) : Machine → Prop
  /-- Within a process, in nothing but the journal. -/
  | within (notes : Array Event) : source.owner = target.owner →
      Returned source target m { m with journal := m.journal ++ notes }
  /-- Nor otherwise, if nothing but turns comes with the capability. -/
  | alone (notes : Array Event) :
      (∀ r, m.table.get source = .pmp r → r.loaded = false) →
      (∀ k, m.table.get source ≠ .socket k) →
      Returned source target m { m with journal := m.journal ++ notes }
  /-- A loaded region is unloaded, and its register free. -/
  | region {r : Region} {k : RegionIndex} (notes : Array Event) :
      source.owner ≠ target.owner → m.table.get source = .pmp r → r.loaded = true →
      r.slot.toNat = k.val →
      Returned source target m { m with
        table := m.table.set source (.pmp { r with loaded := false, slot := 0 })
        processes := m.processes.put source.owner { m.processes.get source.owner with
          bank := (m.processes.get source.owner).bank.unload k }
        journal := m.journal ++ notes }
  /-- Whoever waited because of a socket of one of the two owners waits no longer. -/
  | socket {k : Socket} (notes : Array Event) :
      source.owner ≠ target.owner → m.table.get source = .socket k →
      Returned source target m { m with
        registry := (m.registry.clear k source.owner).clear k target.owner
        journal := m.journal ++ notes }

/-- A capability that is handed over twice gives up its register once and its channel twice. -/
theorem Returned.between (notes : Array Event) (ho : source.owner ≠ target.owner)
    (hsized : (m.table.get source).Sized) :
    Returned source target m { m with
      table := m.table.set source (m.table.get source).unloaded
      processes := m.processes.put source.owner { m.processes.get source.owner with
        bank := (m.table.get source).unseat (m.processes.get source.owner).bank }
      registry := (m.table.get source).silence target.owner
        ((m.table.get source).silence source.owner m.registry)
      journal := m.journal ++ notes } := by
  have htable := m.table.set_get source
  have hprocesses := m.processes.put_get source.owner
  cases hc : m.table.get source with
  | pmp r =>
    rw [hc] at htable hsized
    cases hl : r.loaded with
    | true =>
      -- a loaded region of a sized table names a register
      have hindex : index? 8 r.slot.toNat = some ⟨r.slot.toNat, hsized hl⟩ :=
        index?_eq_some_iff.2 rfl
      simp only [Capability.unloaded, Capability.unseat, Capability.silence, hl, if_true, hindex,
        Option.elim_some]
      exact .region notes ho hc hl rfl
    | false =>
      simp only [Capability.unloaded, Capability.unseat, Capability.silence, hl, if_false,
        Bool.false_eq_true, htable, hprocesses]
      refine .alone notes ?_ ?_ <;> simp [hc, hl]
  | socket k =>
    rw [hc] at htable
    simp only [Capability.unloaded, Capability.unseat, Capability.silence, htable, hprocesses]
    exact .socket notes ho hc
  | _ =>
    rw [hc] at htable
    simp only [Capability.unloaded, Capability.unseat, Capability.silence, htable, hprocesses]
    refine .alone notes ?_ ?_ <;> simp [hc]

theorem Returned.schedule (h : Returned source target m m₂) : m₂.schedule = m.schedule := by
  cases h <;> rfl

/-- In every case the links are as before. -/
theorem Returned.links (h : Returned source target m m₂) (x : Slot) :
    m₂.table.next x = m.table.next x ∧ m₂.table.previous x = m.table.previous x := by
  cases h with
  | region => exact ⟨Table.next_set .., Table.previous_set ..⟩
  | _ => exact ⟨rfl, rfl⟩

namespace Machine

section Back
variable (hl : m.table.Lineal) (hz : m.table.Sized) (hp : m.Projects)
  (hs : m.table.get source ≠ .null) (ht : m.table.get target = .null)
  (hm₁ : m₁ = ((relocate source target (m.table.get source)).exec m).2)
  (hm₂ : m₂ = ((relocate target source (m₁.table.get target)).exec m₁).2)
include hl hs ht hm₁

/-- On the way back, the table is ready and the capability as it arrived. -/
theorem ready_relocate :
    m₁.table.get target = arriving source target (m.table.get source) ∧
      m₁.table.get target ≠ .null ∧ m₁.table.get source = .null := by
  have hre := reseats_arriving source target (m.table.get source)
  have hc : arriving source target (m.table.get source) ≠ .null :=
    Capability.ne_null_of_outline hre.outline_eq hs
  obtain ⟨_, htarget, hsource⟩ := hl.strung.ready_relink hs ht hc
  rw [hm₁, relocate_table, htarget]
  exact ⟨rfl, hc, hsource⟩

include hm₂

/-- The table is as before, but for a region that is no longer loaded. -/
theorem relocate_back_table :
    m₂.table = m.table.set source (arriving source target (m.table.get source)) := by
  obtain ⟨htarget, hn, _⟩ := ready_relocate hl hs ht hm₁
  have hself : arriving target source (m₁.table.get target) = m₁.table.get target := by
    rw [htarget]
    unfold arriving
    by_cases ho : source.owner = target.owner
    · rw [if_pos ho.symm]
    · rw [if_neg (Ne.symm ho), if_neg ho, Capability.unloaded_unloaded]
  rw [hm₂, relocate_table, hself, htarget, hm₁, relocate_table]
  exact hl.strung.relink_relink hs ht (htarget ▸ hn) _

include hp in
/-- The turns that come back to their first owner are those that it had. -/
theorem relocate_back_schedule : m₂.schedule = m.schedule := by
  obtain ⟨htarget, _⟩ := ready_relocate hl hs ht hm₁
  have hre := reseats_arriving source target (m.table.get source)
  apply Schedule.ext
  intro h col
  rw [hm₂, relocate_schedule, htarget, hre.turn?_eq, hm₁, relocate_schedule]
  by_cases ho : source.owner = target.owner
  · rw [if_pos ho.symm, if_pos ho]
  · rw [if_neg (Ne.symm ho), if_neg ho]
    -- a turn of the capability was in the schedule, and comes back there
    cases hu : (m.table.get source).turn? source.owner h col with
    | none => rw [Capability.turn?_eq_none_congr _ hu, Option.none_or, Option.none_or]
    | some u => exact ((hp h col u).2 ⟨source, hu⟩).symm

/-- The waiter has been struck out on both sides. -/
theorem relocate_back_registry (ho : source.owner ≠ target.owner) :
    m₂.registry = (m.table.get source).silence target.owner
      ((m.table.get source).silence source.owner m.registry) := by
  obtain ⟨htarget, _⟩ := ready_relocate hl hs ht hm₁
  rw [hm₂, relocate_registry, if_neg (Ne.symm ho), htarget, arriving, if_neg ho,
    Capability.silence_unloaded, hm₁, relocate_registry, if_neg ho]

/-- Only the bank of the first owner is another. -/
theorem relocate_back_processes (ho : source.owner ≠ target.owner) :
    m₂.processes = m.processes.put source.owner { m.processes.get source.owner with
      bank := (m.table.get source).unseat (m.processes.get source.owner).bank } := by
  obtain ⟨htarget, _⟩ := ready_relocate hl hs ht hm₁
  rw [hm₂, relocate_processes, if_neg (Ne.symm ho), htarget, arriving, if_neg ho,
    Capability.unseat_unloaded]
  have hput := m₁.processes.put_get target.owner
  refine hput.trans ?_
  rw [hm₁, relocate_processes, if_neg ho]

include hz in
/-- Neither move notes a fault. -/
theorem relocate_back_faults : m₂.faults = m.faults := by
  obtain ⟨_, hn, hv⟩ := ready_relocate hl hs ht hm₁
  have hthere : Deed m m₁ := hm₁ ▸ .move hs ht
  have hback : Deed m₁ m₂ := hm₂ ▸ .move hn hv
  have hl₁ : m₁.table.Lineal := (Change.deed hthere).lineal hl
  have hz₁ : m₁.table.Sized := (Change.deed hthere).sized hl hz
  exact (hback.flawless hl₁ hz₁).trans (hthere.flawless hl hz)

omit hl hs ht in
/-- What two moves log. -/
theorem relocate_back_logged : Logged m m₂ := by
  rw [hm₂]
  refine trans_of Logged ?_ (relocate_logged ..)
  rw [hm₁]
  exact relocate_logged ..

include hz hp in
/-- What is left of the way there and back. -/
theorem relocate_back : Returned source target m m₂ := by
  have htable := relocate_back_table hl hs ht hm₁ hm₂
  have hschedule := relocate_back_schedule hl hp hs ht hm₁ hm₂
  have hfaults := relocate_back_faults hl hz hs ht hm₁ hm₂
  obtain ⟨hboard, hlock, notes, hjournal⟩ := relocate_back_logged hm₁ hm₂
  by_cases ho : source.owner = target.owner
  case pos =>
    rw [arriving, if_pos ho, Table.set_get] at htable
    have hregistry : m₂.registry = m.registry := by
      rw [hm₂, relocate_registry, if_pos ho.symm, hm₁, relocate_registry, if_pos ho]
    have hprocesses : m₂.processes = m.processes := by
      rw [hm₂, relocate_processes, if_pos ho.symm, hm₁, relocate_processes, if_pos ho]
    have he : m₂ = { m with journal := m.journal ++ notes } :=
      Machine.ext htable hregistry hprocesses hschedule hboard hlock hjournal hfaults
    exact he ▸ .within notes ho
  case neg => -- between two processes, what changes hands may have lost something
    have hregistry := relocate_back_registry hl hs ht hm₁ hm₂ ho
    have hprocesses := relocate_back_processes hl hs ht hm₁ hm₂ ho
    rw [arriving, if_neg ho] at htable
    have he : m₂ = { m with table := _, registry := _, processes := _, journal := _ } :=
      Machine.ext htable hregistry hprocesses hschedule hboard hlock hjournal hfaults
    exact he ▸ .between notes ho (hz source)

end Back

/-- A move whose checks pass. -/
theorem moveCapability_exec (hs : m.table.get source ≠ .null) (ht : m.table.get target = .null) :
    (moveCapability source target).exec m =
      (.ok (), ((relocate source target (m.table.get source)).exec m).2) := by
  show (Functor.map (fun _ => ()) (transferCapability source target)).exec m = _
  rw [Attempt.exec_map, transferCapability_exec hs ht]
  rfl

/-- If a capability went to a vacant slot, it can come back. Then all links of the capability table
and all turns of the schedule are what they were. Within a process nothing differs at all but the
journal; between processes, a loaded region is unloaded, and those are gone who waited because of a
socket. -/
theorem moveCapability_back (hroots : roots.Pairwise Capability.TimeDisjoint)
    (hm : Reachable roots m) (hmove : (moveCapability source target).exec m = (.ok (), m₁)) :
    ∃ m₂, (moveCapability target source).exec m₁ = (.ok (), m₂) ∧ Returned source target m m₂ ∧
      m₂.schedule = m.schedule ∧
      ∀ x, m₂.table.next x = m.table.next x ∧ m₂.table.previous x = m.table.previous x := by
  obtain ⟨hs, ht, hm₁⟩ := (moveCapability_decides source target m).of_ok (congrArg Prod.fst hmove)
  rw [hmove] at hm₁
  obtain ⟨_, hn, hv⟩ := ready_relocate hm.lineal hs ht hm₁
  have hback : Returned source target m _ :=
    relocate_back hm.lineal hm.sized (hm.projects hroots) hs ht hm₁ rfl
  exact ⟨_, moveCapability_exec hn hv, hback, hback.schedule, hback.links⟩

/-- A loaded region goes to another process and comes back: it stands after its parent again, and
its register is free. -/
theorem moveCapability_back_region : ∃ m m₁ m₂,
    Reachable [.wholeTime 0 0 64, .wholeMemory 0x80000000 0x80010000 ⟨true, true, true⟩] m ∧
      m.table.get ⟨0, 2⟩ = .pmp ⟨0x200001ff, ⟨true, true, false⟩, true, 3⟩ ∧
      (moveCapability ⟨0, 2⟩ ⟨1, 0⟩).exec m = (.ok (), m₁) ∧
      (moveCapability ⟨1, 0⟩ ⟨0, 2⟩).exec m₁ = (.ok (), m₂) ∧
      m₂.table.get ⟨0, 2⟩ = .pmp ⟨0x200001ff, ⟨true, true, false⟩, false, 0⟩ ∧
      m₂.table.next ⟨0, 1⟩ = some ⟨0, 2⟩ ∧ ((m₂.processes.get 0).bank.get 3).isFree = true := by
  let roots : List Capability :=
    [.wholeTime 0 0 64, .wholeMemory 0x80000000 0x80010000 ⟨true, true, true⟩]
  let region : Region := ⟨0x200001ff, ⟨true, true, false⟩, false, 0⟩
  have hroots : roots.Pairwise Capability.TimeDisjoint := by
    rw [List.pairwise_pair]
    exact fun _ _ _ => id
  obtain ⟨m, hm⟩ : ∃ m, m = Machine.afterAll roots
    [(0, .capDerive ⟨0, 1⟩ ⟨0, 2⟩ (.pmp region)), (0, .pmpLoad ⟨0, 2⟩ 3)] := ⟨_, rfl⟩
  have hreach : Reachable roots m := hm ▸ .afterAll rfl _
  -- the region is loaded in register 3, and is not when it comes back
  have hget : m.table.get ⟨0, 2⟩ = .pmp { region with loaded := true, slot := 3 } := by
    rw [hm]
    decide +kernel
  have hnext : m.table.next ⟨0, 1⟩ = some ⟨0, 2⟩ := by rw [hm]; decide +kernel
  have hok : ((moveCapability ⟨0, 2⟩ ⟨1, 0⟩).exec m).1 = .ok () := by rw [hm]; decide +kernel
  obtain ⟨m₂, hback, hreturned, _, hlinks⟩ := moveCapability_back hroots hreach (Prod.ext hok rfl)
  refine ⟨m, _, m₂, hreach, hget, Prod.ext hok rfl, hback, ?_⟩
  rw [(hlinks ⟨0, 1⟩).1, hnext]
  cases hreturned with
  | within _ ho => cases ho
  | alone _ hr => cases hr _ hget
  | @region r k _ _ hr _ hk =>
    rw [hget] at hr
    cases hr
    obtain rfl : k = 3 := Fin.ext hk.symm
    refine ⟨Table.get_set_self .., rfl, ?_⟩
    rw [Processes.get_put_self, Bank.unload, Bank.get_put, if_pos rfl]
    rfl
  | socket _ _ hk =>
    rw [hget] at hk
    cases hk

end Machine

end SepKernel
