import SepKernel.Proofs.Lineage.Ownership
import SepKernel.Proofs.Table.Edit

/-!
# At most one owner

If at most one of the capabilities that begin the lines has a heritable property, then whatever has
it later stands in one line. Spanning a resource is such a property, and there the order of the line
leaves at most one owner.
-/

namespace SepKernel
namespace Table

variable {t t' : Table} {s x y source target : Slot} {c : Capability} {r : Resource}
  {P Q : Capability → Prop}

/-- Does everything with the one property stand in one line with everything with the other? -/
def Gathered (t : Table) (P Q : Capability → Prop) : Prop :=
  ∀ x y, P (t.get x) → Q (t.get y) → x = y ∨ t.Before x y ∨ t.Before y x

/-- Does everything that spans a resource stand in one line? -/
def Confined (t : Table) (r : Resource) : Prop :=
  ∀ x y, (t.get x).Spans r → (t.get y).Spans r → x = y ∨ t.Before x y ∨ t.Before y x

/-- A resource has at most one owner. -/
theorem Lineal.owner_unique (h : t.Lineal) (hr : t.Confined r) (hx : (t.get x).Owns r)
    (hy : (t.get y).Owns r) : x = y := by
  rcases hr x y (hx.spans (h.sound x)) (hy.spans (h.sound y)) with he | hb | hb
  · exact he
  · exact absurd hy ((h.precedes _ _ hb).not_both_own (h.sound x) (h.sound y) hx)
  · exact absurd hx ((h.precedes _ _ hb).not_both_own (h.sound y) (h.sound x) hy)

/-! ## Edits -/

section Gathered
variable (hP : Capability.Heritable P) (hQ : Capability.Heritable Q) (hg : t.Gathered P Q)
include hP hQ hg

/-- An edit that brings nothing new, but may exchange slots, leaves things gathered. -/
theorem Gathered.of_map (σ : Slot → Slot) (hσ : Function.Injective σ)
    (hs : ∀ x, t'.get x ≠ .null → (t.get (σ x)).outline = (t'.get x).outline)
    (hb : ∀ x y, t'.get x ≠ .null → t'.get y ≠ .null → t.Before (σ x) (σ y) → t'.Before x y) :
    t'.Gathered P Q := by
  intro x y hx hy
  have hxn := hP.ne_null hx
  have hyn := hQ.ne_null hy
  rcases hg _ _ ((hP.congr (hs x hxn)).2 hx) ((hQ.congr (hs y hyn)).2 hy) with he | hxy | hyx
  · exact .inl (hσ he)
  · exact .inr (.inl (hb x y hxn hyn hxy))
  · exact .inr (.inr (hb y x hyn hxn hyx))

/-- A capability may be replaced by one of the same outline. -/
theorem Gathered.set (ho : (t.get s).outline = c.outline) : (t.set s c).Gathered P Q := by
  refine hg.of_map hP hQ id Function.injective_id ?_ ?_
  · exact fun x _ => (outline_set ho x).symm
  · intro x y _ _ hb
    exact before_set.2 hb

/-- Vacating a slot does not change the order of the others. -/
theorem Gathered.unlink (h : t.Strung) (s : Slot) : (t.unlink s).Gathered P Q := by
  have hne : ∀ x, (t.unlink s).get x ≠ .null → x ≠ s := by
    rintro x hx rfl
    exact hx (by rw [get_unlink, if_pos rfl])
  refine hg.of_map hP hQ id Function.injective_id ?_ ?_
  · intro x hx
    rw [get_unlink, if_neg (hne x hx).symm, id]
  · intro x y hx hy hb
    exact h.before_unlink.2 ⟨hb, hne x hx, hne y hy⟩

/-- A move exchanges two slots, and what was before another still is. -/
theorem Gathered.relink (h : t.Strung) (hs : t.get source ≠ .null) (ht : t.get target = .null)
    (hc : (t.get source).Reseats c) : (t.relink source target c).Gathered P Q := by
  refine hg.of_map hP hQ (Equiv.swap source target) (Equiv.injective _) ?_ ?_
  · intro x _
    exact (h.reseats_relink ht hc x).outline_eq
  · intro x y _ _ hb
    exact (h.before_relink hs ht c).2 hb

/-- A derivation leaves things gathered. The child stands in for its parent: it has a property only
if the parent had it, and whatever was comparable to the parent is comparable to the child. -/
theorem Gathered.derive (h : t.Lineal) (ht : t.get target = .null)
    (hd : (t.get source).Derivation c) : (t.derive source target c).Gathered P Q := by
  -- the child has a property only if its parent had it, and comes where its parent was
  have hold : ∀ {R : Capability → Prop}, Capability.Heritable R → ∀ x,
      R ((t.derive source target c).get x) → R (t.get (if x = target then source else x)) := by
    intro R hR x hx
    split
    · next hxt =>
      rw [hxt, h.get_derive ht hd, if_pos rfl] at hx
      exact hR.parent hd (h.sound source) hx
    · next hxt => exact (hR.congr (h.outline_derive ht hd hxt)).1 hx
  intro x y hx hy
  have hxy := hg _ _ (hold hP x hx) (hold hQ y hy)
  rw [h.before_derive ht hd, h.before_derive ht hd]
  -- which of the two is the child
  by_cases hxt : x = target
  · by_cases hyt : y = target
    · exact .inl (hxt.trans hyt.symm)
    · rw [if_pos hxt, if_neg hyt] at hxy
      rcases hxy with he | hb | hb
      · exact .inr (.inr (.inr (.inl ⟨hxt, .inl he.symm⟩)))
      · exact .inr (.inl (.inr (.inr ⟨hxt, hb⟩)))
      · exact .inr (.inr (.inr (.inl ⟨hxt, .inr hb⟩)))
  · rw [if_neg hxt] at hxy
    by_cases hyt : y = target
    · rw [if_pos hyt] at hxy
      rcases hxy with he | hb | hb
      · exact .inr (.inl (.inr (.inl ⟨hyt, .inl he⟩)))
      · exact .inr (.inl (.inr (.inl ⟨hyt, .inr hb⟩)))
      · exact .inr (.inr (.inr (.inr ⟨hyt, hb⟩)))
    · rw [if_neg hyt] at hxy
      exact hxy.imp_right (Or.imp .inl .inl)

/-- Every edit leaves gathered what shares heritable properties. -/
theorem Edit.gathered (he : t.Edit t') (h : t.Lineal) : t'.Gathered P Q := by
  cases he with
  | move hs ht hc => exact hg.relink hP hQ h.strung hs ht hc
  | delete => exact hg.unlink hP hQ h.strung _
  | derive ht hd => exact hg.derive hP hQ h ht hd
  | reseat _ hc => exact hg.set hP hQ hc.outline_eq
  | @takeBack s d hn =>
    have hds : d ≠ s := fun he => h.strung.next_ne_self s (he ▸ hn)
    exact (hg.unlink hP hQ h.strung d).set hP hQ (outline_reclaiming hds)
  | restore => exact hg.set hP hQ (Capability.outline_restored _).symm

end Gathered

end Table
end SepKernel
