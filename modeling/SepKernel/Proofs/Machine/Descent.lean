import SepKernel.Proofs.Machine.History

/-!
# Descendants are reached

A revocation looks at what a capability is, and not at where it came from. Still it reaches whatever
was obtained from its capability by derivations, of whatever kind they are, and even if what was in
between is gone: every instance has the outline that it was born with, and a parent reaches what it
bears.
-/

namespace SepKernel

variable {m m' : Machine} {roots : List Capability} {t t' : Table} {g g' : Genealogy}
  {birth : Nat → Capability} {p : Option Nat} {c : Capability} {s d x y source target : Slot}
  {i j : Nat}

namespace Table

/-- What every instance was born as. Its slot has still the same outline, and whatever became of its
parent, the parent reached it. -/
structure Traces (t : Table) (g : Genealogy) (birth : Nat → Capability) : Prop where
  held : ∀ {x i}, g.holder x = some i → (t.get x).outline = (birth i).outline
  parent : ∀ {i j}, g.parent i = some j → (birth j).mayRevoke (birth i) = true

namespace Traces

/-- By induction on the descent: revoking is transitive. -/
theorem mayRevoke_of_descends (h : t.Traces g birth) (hd : g.Descends j i) :
    (birth i).mayRevoke (birth j) = true := by
  induction hd with
  | single hp => exact h.parent hp
  | tail _ hp ih => exact Capability.mayRevoke_trans (h.parent hp) ih

/-- Whatever exchanges slots, or drops some, but brings nothing new, leaves everything as it was
born. -/
theorem map (h : t.Traces g birth) (σ : Slot → Slot) (hp : g'.parent = g.parent)
    (hσ : ∀ {x i}, g'.holder x = some i → g.holder (σ x) = some i)
    (ho : ∀ {x i}, g'.holder x = some i → (t'.get x).outline = (t.get (σ x)).outline) :
    t'.Traces g' birth where
  held hx := (ho hx).trans (h.held (hσ hx))
  parent hij := h.parent (by rwa [← hp])

theorem set (h : t.Traces g birth) (ho : (t.get s).outline = c.outline) :
    (t.set s c).Traces g birth :=
  h.map id rfl id fun {x _} _ => outline_set ho x

/-- A deletion forgets a number, and changes no outline. -/
theorem unlink (h : t.Traces g birth) (s : Slot) : (t.unlink s).Traces (g.drop s) birth := by
  refine h.map id rfl (fun hx => (Genealogy.holder_of_drop hx).2) fun hx => ?_
  rw [get_unlink, if_neg (Genealogy.holder_of_drop hx).1.symm]
  rfl

/-- A move changes where the number is held. -/
theorem relink (h : t.Traces g birth) (hg : t.Reflects g) (hl : t.Strung)
    (ht : t.get target = .null) (hc : (t.get source).Reseats c) :
    (t.relink source target c).Traces (g.move source target) birth := by
  refine h.map (Equiv.swap source target) rfl (fun {x i} hx => ?_) fun {x _} _ => ?_
  · rwa [Genealogy.holder_move ((hg.held target).2 ht)] at hx
  · exact (hl.reseats_relink ht hc x).outline_eq.symm

/-- A newborn is added, which its parent reaches. -/
theorem bear (h : t.Traces g birth) (hw : g.WellFormed)
    (hp : ∀ q, p = some q → q < g.count ∧ (birth q).mayRevoke c = true)
    (hs : (t'.get s).outline = c.outline)
    (ho : ∀ x, x ≠ s → (t'.get x).outline = (t.get x).outline) :
    t'.Traces (g.bear s p) (Function.update birth g.count c) := by
  -- the births before are left as they are
  have hold : ∀ {i}, i < g.count → Function.update birth g.count c i = birth i :=
    fun hi => Function.update_of_ne (Nat.ne_of_lt hi) _ _
  constructor
  case held =>
    intro x i hx
    rw [Genealogy.holder_bear] at hx
    split at hx
    · next hxs =>
      cases hx
      rw [hxs, hs, Function.update_self]
    · next hxs => rw [ho x hxs, hold (hw.known hx), h.held hx]
  case parent =>
    intro i j hij
    rw [Genealogy.parent_bear] at hij
    split at hij
    · next hi =>
      obtain ⟨hlt, hr⟩ := hp j hij
      rw [hi, hold hlt, Function.update_self, hr]
    · have hlt := hw.older hij
      rw [hold hlt.2, hold (Nat.lt_trans hlt.1 hlt.2), h.parent hij]

/-- A derivation bears one that the parent may revoke. -/
theorem derive (h : t.Traces g birth) (hg : t.Reflects g) (hl : t.Lineal)
    (ht : t.get target = .null) (hd : (t.get source).Derivation c) :
    (t.derive source target c).Traces (g.bear target (g.holder source))
      (Function.update birth g.count c) := by
  refine h.bear hg.wellFormed (fun q hq => ⟨hg.wellFormed.known hq, ?_⟩) ?_ ?_
  · rw [← Capability.mayRevoke_congr (h.held hq) rfl]
    exact hd.mayRevoke (hl.sound source)
  · rw [hl.get_derive ht hd, if_pos rfl]
  · exact fun x hx => hl.outline_derive ht hd hx

theorem takeBack (h : t.Traces g birth) (hl : t.Strung) (hn : t.next s = some d) :
    (t.takeBack s d).Traces (g.drop d) birth := by
  have hds : d ≠ s := fun he => hl.next_ne_self s (he ▸ hn)
  exact (h.unlink d).set (outline_reclaiming hds)

end Traces

def Traced (t : Table) (g : Genealogy) : Prop :=
  ∃ birth, t.Traces g birth

/-- An edit leaves the capabilities as they were born, but for the one that it bears. -/
theorem Recorded.traced (hr : t.Recorded g t' g') (hl : t.Lineal) (hg : t.Reflects g)
    (h : t.Traced g) : t'.Traced g' := by
  obtain ⟨birth, h⟩ := h
  cases hr with
  | same => exact ⟨birth, h⟩
  | move _ ht hc => exact ⟨birth, h.relink hg hl.strung ht hc⟩
  | delete s => exact ⟨birth, h.unlink s⟩
  | derive ht hd => exact ⟨_, h.derive hg hl ht hd⟩
  | set ho => exact ⟨birth, h.set ho⟩
  | takeBack hn => exact ⟨birth, h.takeBack hl.strung hn⟩

end Table

/-- Roots have no parents. -/
theorem boot_traced (hb : (Machine.boot roots).exec .initial = (.ok (), m)) :
    m.table.Traced m.genealogy := by
  suffices m.genealogy.WellFormed ∧ m.table.Traced m.genealogy from this.2
  refine Machine.boot_keeps_any
    (P := fun m => m.genealogy.WellFormed ∧ m.table.Traced m.genealogy) ?_ ?_ ?_ hb
  · refine ⟨Genealogy.wellFormed_empty, fun _ => .null, ?_, ?_⟩
    · rintro _ _ ⟨⟩
    · rintro _ _ ⟨⟩
  · intro m m' hq hP
    rwa [hq.table, hq.genealogy]
  · rintro m m' i c hboot hc ⟨hw, birth, h⟩ hr
    rw [hr.table, hr.genealogy]
    -- a root is born to nobody
    refine ⟨hw.bear _ (by rintro _ ⟨⟩), _, h.bear (c := c) hw (by rintro _ ⟨⟩) ?_ ?_⟩
    · rw [Table.get_insertRoot, if_pos rfl]
    · intro x hx
      rw [Table.get_insertRoot, if_neg hx.symm]

/-- In every reachable machine, there is a record of births. -/
theorem Reachable.traced (hm : Reachable roots m) : m.table.Traced m.genealogy := by
  suffices m.table.Reflects m.genealogy ∧ m.table.Traced m.genealogy from this.2
  refine hm.invariant
    (P := fun m => m.table.Reflects m.genealogy ∧ m.table.Traced m.genealogy) ?_ ?_
  · exact fun _ hb => ⟨boot_reflects hb, boot_traced hb⟩
  · exact fun _ _ hl hP hc => ⟨hc.reflects hl hP.1, hc.recorded.traced hl hP.1 hP.2⟩

/-- Whatever descends from a capability is reached by it. -/
theorem Reachable.reaches_of_descends (hm : Reachable roots m) (hx : m.genealogy.holder x = some i)
    (hy : m.genealogy.holder y = some j) (hd : m.genealogy.Descends j i) :
    m.table.Reaches x y := by
  obtain ⟨birth, h⟩ := hm.traced
  refine ⟨hm.reflects.ordered hx hy hd, ?_⟩
  rw [Capability.mayRevoke_congr (h.held hx) (h.held hy)]
  exact h.mayRevoke_of_descends hd

end SepKernel
