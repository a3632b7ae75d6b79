import SepKernel.Proofs.Machine.Reachable

/-!
# Registers and waiters

What comes with a region or a socket besides the capability itself: the protection register that a
region is loaded in, and the process that waits because of a socket. Whoever gives the capability up
frees the register and stops waiting; nothing else is freed and nobody else is stopped.
-/

namespace SepKernel

variable {m m' : Machine} {roots : List Capability} {t t' : Table} {c p : Capability}

/-! ## Protection registers -/

def Capability.SitsIn (c : Capability) (k : RegionIndex) : Prop :=
  ∃ r, c = .pmp r ∧ r.loaded = true ∧ r.slot.toNat = k.val

namespace Capability

variable {b : Bank} {k : RegionIndex}

/-- Other registers keep what they have. -/
theorem get_unseat_of_not_sitsIn (hk : ¬ c.SitsIn k) (b : Bank) :
    (c.unseat b).get k = b.get k := by
  cases c with
  | pmp r =>
    rw [unseat]
    split
    · next hl =>
      cases hi : index? 8 r.slot.toNat with
      | none => rfl
      | some j =>
        have hjk : j ≠ k := by
          rintro rfl
          exact hk ⟨r, rfl, hl, (index?_eq_some_iff.1 hi).symm⟩
        rw [Option.elim_some, Bank.unload, Bank.get_put, if_neg hjk]
    · rfl
  | _ => rfl

/-- The register is free then. -/
theorem isFree_unseat (hk : c.SitsIn k) (b : Bank) : ((c.unseat b).get k).isFree = true := by
  obtain ⟨r, rfl, hl, hi⟩ := hk
  rw [unseat, if_pos hl, index?_eq_some_iff.2 hi.symm, Option.elim_some, Bank.unload, Bank.get_put,
    if_pos rfl]
  rfl

/-- A free register stays free. -/
theorem isFree_unseat_of_isFree (hb : (b.get k).isFree = true) (c : Capability) :
    ((c.unseat b).get k).isFree = true := by
  by_cases hk : c.SitsIn k
  · exact isFree_unseat hk b
  · rwa [get_unseat_of_not_sitsIn hk]

/-- Does a loaded region name a protection register that exists? -/
def Seated (c : Capability) : Prop :=
  ∀ r, c = .pmp r → r.loaded = true → r.slot.toNat < 8

theorem Seated.exists_sitsIn {r : Region} (hs : (pmp r).Seated) (hl : r.loaded = true) :
    ∃ k : RegionIndex, k.val = r.slot.toNat ∧ (pmp r).SitsIn k :=
  ⟨⟨r.slot.toNat, hs r rfl hl⟩, rfl, r, rfl, hl, rfl⟩

theorem seated_null : null.Seated := by
  rintro _ ⟨⟩

/-- A capability may be reseated only in a register that exists. -/
theorem Reseats.seated {c' : Capability} (hr : c.Reseats c') (hs : c.Seated) : c'.Seated := by
  cases hr with
  | same => exact hs
  | region _ _ hl =>
    rintro _ ⟨⟩
    exact hl

theorem seated_of_isFresh (hf : c.isFresh = true) : c.Seated := by
  rintro r rfl hl
  simp [isFresh, hl] at hf

/-- Deriving takes no region out of its register. -/
theorem Seated.afterDeriving (hs : p.Seated) (c : Capability) : (p.afterDeriving c).Seated := by
  cases p with
  | pmp => exact hs
  | _ => cases c <;> rintro _ ⟨⟩

/-- Reclaiming touches the mark and the lock, and no seat. -/
theorem Seated.afterReclaiming (hs : p.Seated) (c : Capability) :
    (p.afterReclaiming c).Seated := by
  cases p with
  | pmp => exact hs
  | channel =>
    cases c with
    | socket k =>
      rw [Capability.afterReclaiming]
      split <;> rintro _ ⟨⟩
    | _ => rintro _ ⟨⟩
  | _ => cases c <;> rintro _ ⟨⟩

theorem Seated.restored (hs : p.Seated) : p.restored.Seated := by
  cases p with
  | pmp => exact hs
  | _ => rintro _ ⟨⟩

end Capability

def Table.Seated (t : Table) : Prop :=
  ∀ x, (t.get x).Seated

/-- Every edit keeps loaded regions in protection registers that exist. -/
theorem Table.Edit.seated (he : t.Edit t') (hl : t.Lineal) (hs : t.Seated) : t'.Seated := by
  intro x
  cases he with
  | move _ ht hc => exact (hl.strung.reseats_relink ht hc x).seated (hs _)
  | delete =>
    rw [get_unlink]
    split
    · exact Capability.seated_null
    · exact hs x
  | derive ht hd =>
    rw [hl.get_derive ht hd]
    split
    · -- what is derived is fresh, and not loaded
      exact Capability.seated_of_isFresh
        (Capability.isFresh_of_mayDerive (Capability.mayDerive_iff.2 hd))
    · split
      · exact (hs _).afterDeriving _
      · exact hs x
  | reseat _ hc =>
    rw [get_set]
    split
    · exact hc.seated (hs _)
    · exact hs x
  | takeBack =>
    rw [get_takeBack]
    split
    · exact (hs _).afterReclaiming _
    · split
      · exact Capability.seated_null
      · exact hs x
  | restore =>
    rw [Table.restore, get_set]
    split
    · exact (hs _).restored
    · exact hs x

/-- Roots are not loaded. -/
theorem boot_seated (hb : (Machine.boot roots).exec .initial = (.ok (), m)) : m.table.Seated := by
  refine Machine.boot_keeps_any (P := fun m => m.table.Seated) ?_ ?_ ?_ hb
  · intro x
    rw [Machine.initial_get]
    exact Capability.seated_null
  · intro m m' hq hP
    rwa [hq.table]
  · intro m m' i c _ hc hP hr x
    rw [hr.table, Table.get_insertRoot]
    split
    · rintro r rfl hl
      simp [Capability.isRoot, hl] at hc
    · exact hP x

/-- In every reachable machine, a region that is loaded names a protection register that exists. -/
theorem Reachable.seated (h : Reachable roots m) : m.table.Seated := by
  refine h.invariant (P := fun m => m.table.Seated) (fun m hb => boot_seated hb) ?_
  intro m m' hl hs hc
  rcases hc.edit with he | he
  · rwa [he]
  · exact he.seated hl hs

/-! ## Waiters -/

namespace Channel

variable {k : Channel} {role : Role} {q q' : Pid} {w : Waiter}

/-- On a quiet channel there is nobody to forget. -/
theorem forget_quiet (role : Role) (q : Pid) : quiet.forget role q = quiet := by
  cases role <;> rfl

/-- Whoever is in a channel of which somebody was forgotten was there before. -/
theorem client_of_forget (hw : (k.forget role q).client = some w) : k.client = some w := by
  cases role with
  | server => cases hw
  | client =>
    rw [forget] at hw
    split at hw
    · cases hw
    · exact hw

/-- And it is not the one that was forgotten. -/
theorem ne_of_client_forget (hw : (k.forget .client q).client = some w) : w.pid ≠ q := by
  rintro rfl
  have hk := client_of_forget hw
  rw [forget, if_pos (by simp [hk])] at hw
  cases hw

end Channel

theorem Registry.get_clear (g : Registry) (k : Socket) (q : Pid) (i : Fin 16) :
    (g.clear k q).get i =
      if k.chan.toNat = i.val then (g.get i).forget k.role q else g.get i :=
  g.get_update k.chan _ i

namespace Capability

variable {g : Registry} {i : Fin 16} {q : Pid}

theorem get_silence_socket (k : Socket) (q : Pid) (g : Registry) (hi : k.chan.toNat = i.val) :
    ((socket k).silence q g).get i = (g.get i).forget k.role q := by
  rw [silence, Registry.get_clear, if_pos hi]

/-- Other channels stay as they are. -/
theorem get_silence_of_ne (hi : ∀ k, c = socket k → k.chan.toNat ≠ i.val) (q : Pid)
    (g : Registry) : (c.silence q g).get i = g.get i := by
  cases c with
  | socket k => rw [silence, Registry.get_clear, if_neg (hi k rfl)]
  | _ => rfl

/-- Whatever is silenced, a channel stays as it is, or somebody on it is forgotten. -/
theorem get_silence_cases (c : Capability) (q : Pid) (g : Registry) (i : Fin 16) :
    (c.silence q g).get i = g.get i ∨
      ∃ role, (c.silence q g).get i = (g.get i).forget role q := by
  cases c with
  | socket k =>
    rw [silence, Registry.get_clear]
    split
    · exact .inr ⟨_, rfl⟩
    · exact .inl rfl
  | _ => exact .inl rfl

end Capability

end SepKernel
