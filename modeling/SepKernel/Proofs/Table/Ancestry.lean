import SepKernel.Proofs.Lineage.Genealogy
import SepKernel.Proofs.Table.Edit

/-!
# The line and the genealogy

The table knows nothing of ancestry, but its lines reflect it: whatever descends from a capability
stands after it, and of what stands after a tract exactly the descendants lie in its range. This
also holds for descendants whose parents were deleted.
-/

namespace SepKernel
namespace Table

variable {t t' : Table} {g g' : Genealogy} {s x y source target : Slot} {c : Capability}
  {i j : Nat}

/-- Does the order of the table reflect a genealogy? -/
structure Reflects (t : Table) (g : Genealogy) : Prop where
  wellFormed : g.WellFormed
  held : ∀ x, g.holder x = none ↔ t.get x = .null
  ordered : ∀ {x y i j}, g.holder x = some i → g.holder y = some j → g.Descends j i → t.Before x y
  reached : ∀ {x y i j}, g.holder x = some i → g.holder y = some j → (t.get x).isTract = true →
    t.Before x y → ((t.get x).mayRevoke (t.get y) = true ↔ g.Descends j i)

theorem Reflects.exists_holder (h : t.Reflects g) (hx : t.get x ≠ .null) :
    ∃ i, g.holder x = some i :=
  Option.ne_none_iff_exists'.1 (mt (h.held x).1 hx)

/-- Whatever exchanges slots, or drops some, but brings nothing new, leaves the table a reflection
of its genealogy. -/
theorem Reflects.of_map (h : t.Reflects g) (σ : Slot → Slot) (hw : g'.WellFormed)
    (hp : g'.parent = g.parent) (hheld : ∀ x, g'.holder x = none ↔ t'.get x = .null)
    (hσ : ∀ {x i}, g'.holder x = some i → g.holder (σ x) = some i)
    (ho : ∀ {x i}, g'.holder x = some i → (t'.get x).outline = (t.get (σ x)).outline)
    (hb : ∀ {x y i j}, g'.holder x = some i → g'.holder y = some j →
      (t'.Before x y ↔ t.Before (σ x) (σ y))) : t'.Reflects g' := by
  -- no parent has changed, so no descent has
  have hd : ∀ {i j}, g'.Descends j i ↔ g.Descends j i := by
    intro i j
    rw [Genealogy.Descends, hp]
    rfl
  constructor
  case wellFormed => exact hw
  case held => exact hheld
  case ordered =>
    intro x y i j hx hy hij
    exact (hb hx hy).2 (h.ordered (hσ hx) (hσ hy) (hd.1 hij))
  case reached =>
    intro x y i j hx hy ht hxy
    rw [Capability.isTract_congr (ho hx)] at ht
    rw [Capability.mayRevoke_congr (ho hx) (ho hy), hd]
    exact h.reached (hσ hx) (hσ hy) ht ((hb hx hy).1 hxy)

/-- An ancestry is not affected when a capability is replaced by one of the same outline. -/
theorem Reflects.set (h : t.Reflects g) (ho : (t.get s).outline = c.outline) :
    (t.set s c).Reflects g := by
  refine h.of_map id h.wellFormed rfl ?_ id ?_ ?_
  · intro x
    rw [get_set_eq_null ho, h.held]
  · exact fun {x _} _ => outline_set ho x
  · intro x y i j _ _
    exact before_set

/-- When a slot is vacated, its instance ends, and the order of the others stays. -/
theorem Reflects.unlink (h : t.Reflects g) (hl : t.Strung) (s : Slot) :
    (t.unlink s).Reflects (g.drop s) := by
  -- everything else is held where it was
  refine h.of_map id (h.wellFormed.drop s) rfl ?_ (fun hx => (g.holder_of_drop hx).2) ?_ ?_
  · intro x
    rw [g.holder_drop, get_unlink]
    by_cases hx : x = s
    · simp [hx]
    · rw [if_neg hx, if_neg (Ne.symm hx), h.held]
  · intro x i hx
    rw [get_unlink, if_neg (Genealogy.holder_of_drop hx).1.symm]
    rfl
  · intro x y i j hx hy
    rw [hl.before_unlink]
    exact ⟨fun hb => hb.1, fun hb =>
      ⟨hb, (Genealogy.holder_of_drop hx).1, (Genealogy.holder_of_drop hy).1⟩⟩

/-- A move carries the instance along: the table and the genealogy exchange the same two slots. -/
theorem Reflects.relink (h : t.Reflects g) (hl : t.Strung) (hs : t.get source ≠ .null)
    (ht : t.get target = .null) (hc : (t.get source).Reseats c) :
    (t.relink source target c).Reflects (g.move source target) := by
  have hv : g.holder target = none := (h.held target).2 ht
  have hout := fun x => (hl.reseats_relink ht hc x).outline_eq
  -- the move exchanges an occupied slot with a vacant one
  apply h.of_map (Equiv.swap source target) (h.wellFormed.move hv) rfl
  · intro x
    rw [Genealogy.holder_move hv, h.held, ← Capability.outline_eq_null, hout,
      Capability.outline_eq_null]
  · intro x i hx
    rwa [Genealogy.holder_move hv] at hx
  · exact fun {x _} _ => (hout x).symm
  · intro x y i j _ _
    exact hl.before_relink hs ht c

/-- A root descends from nothing, and nothing from it. -/
theorem Reflects.insertRoot (h : t.Reflects g) (hl : t.Strung) (hs : t.get s = .null)
    (hc : c ≠ .null) : (t.insertRoot s c).Reflects (g.bear s none) := by
  have hwf : (g.bear s none).WellFormed := h.wellFormed.bear s (by rintro _ ⟨⟩)
  have hd : ∀ {i j}, (g.bear s none).Descends j i ↔ g.Descends j i := by
    intro i j
    rw [h.wellFormed.descends_bear s (by rintro _ ⟨⟩)]
    simp
  have hold : ∀ {x i}, (g.bear s none).holder x = some i → x ≠ s → g.holder x = some i := by
    intro x i hx hxs
    rwa [Genealogy.holder_bear, if_neg hxs] at hx
  have hlt : ∀ {i}, (g.bear s none).holder s = some i → i = g.count := by
    intro i hi
    rw [Genealogy.holder_bear, if_pos rfl] at hi
    exact (Option.some.inj hi).symm
  constructor
  case wellFormed => exact hwf
  case held =>
    intro x
    rw [Genealogy.holder_bear, get_insertRoot]
    by_cases hx : x = s
    · simp [hx, hc]
    · rw [if_neg hx, if_neg (Ne.symm hx), h.held]
  case ordered =>
    intro x y i j hx hy hij
    -- neither of the two is the root, which descends from nothing and is the youngest of all
    have hlt' := h.wellFormed.lt_of_descends (hd.1 hij)
    have hxs : x ≠ s := by
      rintro rfl
      have := hlt hx
      omega
    have hys : y ≠ s := by
      rintro rfl
      have := hlt hy
      omega
    exact (hl.before_insertRoot hs).2 (h.ordered (hold hx hxs) (hold hy hys) (hd.1 hij))
  case reached =>
    intro x y i j hx hy ht hxy
    rw [hl.before_insertRoot hs] at hxy
    have hxs : x ≠ s := ne_of_vacant (hl.occupied_left hxy) hs
    have hys : y ≠ s := ne_of_vacant (hl.occupied_right hxy) hs
    rw [get_insertRoot, if_neg hxs.symm] at ht ⊢
    rw [get_insertRoot, if_neg hys.symm, hd]
    exact h.reached (hold hx hxs) (hold hy hys) ht hxy

/-! ## Deriving -/

/-- The parent of a newborn is an instance that was there before. -/
theorem Reflects.wellFormed_bear (h : t.Reflects g) (source target : Slot) :
    (g.bear target (g.holder source)).WellFormed :=
  h.wellFormed.bear target fun _ => h.wellFormed.known

section Derive
variable (h : t.Reflects g) (hl : t.Lineal) (ht : t.get target = .null)
  (hd : (t.get source).Derivation c)
include h hl ht hd

/-- After a derivation the slots with an instance are the occupied ones, which are those of before
and that of the child. -/
theorem Reflects.held_derive (x : Slot) :
    (g.bear target (g.holder source)).holder x = none ↔
      (t.derive source target c).get x = .null := by
  rw [Genealogy.holder_bear]
  split
  · next hx =>
    have hc : c ≠ .null := hd.ne_null.2
    rw [hx, hl.get_derive ht hd, if_pos rfl]
    simp [hc]
  · next hx =>
    rw [h.held, ← Capability.outline_eq_null, ← hl.outline_derive ht hd hx,
      Capability.outline_eq_null]

/-- A new descendant comes after all that it descends from. Only the child is new, and it stands
directly after its parent. -/
theorem Reflects.ordered_derive (hx : (g.bear target (g.holder source)).holder x = some i)
    (hy : (g.bear target (g.holder source)).holder y = some j)
    (hij : (g.bear target (g.holder source)).Descends j i) :
    (t.derive source target c).Before x y := by
  have hw := (h.wellFormed_bear source target).lt_of_descends hij
  rw [h.wellFormed.descends_bear target fun _ => h.wellFormed.known] at hij
  rw [hl.before_derive ht hd]
  rw [Genealogy.holder_bear] at hx hy
  -- nothing descends from the child
  have hxt : x ≠ target := by
    intro he
    rw [if_pos he] at hx
    cases hx
    have : j < g.count + 1 := hw.2
    omega
  rw [if_neg hxt] at hx
  split at hy
  · next hyt =>
    cases hy
    rcases hij with hij | ⟨-, q, hq, rfl | hqi⟩
    · exact absurd (h.wellFormed.lt_of_descends hij).2 (Nat.lt_irrefl _)
    · exact .inr (.inl ⟨hyt, .inl (h.wellFormed.apart hx hq)⟩)
    · exact .inr (.inl ⟨hyt, .inr (h.ordered hx hq hqi)⟩)
  · rcases hij with hij | ⟨rfl, -⟩
    · exact .inl (h.ordered hx hy hij)
    · exact absurd (h.wellFormed.known hy) (Nat.lt_irrefl _)

omit ht in
/-- Who is before the child in its line reaches it if it descends from that. -/
theorem Reflects.reached_child (hx : g.holder x = some i)
    (htract : (t.get x).isTract = true) (hxs : x = source ∨ t.Before x source) :
    (t.get x).mayRevoke c = true ↔ ∃ q, g.holder source = some q ∧ (q = i ∨ g.Descends q i) := by
  obtain ⟨q, hq⟩ := h.exists_holder hd.ne_null.1
  rcases hxs with rfl | hxs
  · have hr : (t.get x).mayRevoke c = true := hd.mayRevoke (hl.sound x)
    exact ⟨fun _ => ⟨i, hx, .inl rfl⟩, fun _ => hr⟩
  · -- a number is held in one slot
    have hqi : q ≠ i := by
      rintro rfl
      exact hl.strung.not_before_self x (h.wellFormed.apart hq hx ▸ hxs)
    have hparent := h.reached hx hq htract hxs
    constructor
    · intro hr
      exact ⟨q, hq, .inr (hparent.1 ((hl.precedes _ _ hxs).mayRevoke_of_child hd (hl.sound x) hr))⟩
    · rintro ⟨q', hq', hor⟩
      obtain rfl := Option.some.inj (hq.symm.trans hq')
      exact Capability.mayRevoke_trans (hparent.2 (hor.resolve_left hqi))
        (hd.mayRevoke (hl.sound source))

/-- After a derivation, a tract still reaches what comes after it in its line just when that
descends from it. -/
theorem Reflects.reached_derive (hx : (g.bear target (g.holder source)).holder x = some i)
    (hy : (g.bear target (g.holder source)).holder y = some j)
    (htract : ((t.derive source target c).get x).isTract = true)
    (hxy : (t.derive source target c).Before x y) :
    ((t.derive source target c).get x).mayRevoke ((t.derive source target c).get y) = true ↔
      (g.bear target (g.holder source)).Descends j i := by
  have hchild : (t.derive source target c).get target = c := by
    rw [hl.get_derive ht hd, if_pos rfl]
  have hout := fun {u} => hl.outline_derive ht hd (x := u)
  have hne : ∀ {u v}, t.Before u v → u ≠ target ∧ v ≠ target := fun huv =>
    ⟨ne_of_vacant (hl.strung.occupied_left huv) ht, ne_of_vacant (hl.strung.occupied_right huv) ht⟩
  have hts : source ≠ target := ne_of_vacant hd.ne_null.1 ht
  rw [h.wellFormed.descends_bear target fun _ => h.wellFormed.known]
  rw [Genealogy.holder_bear] at hx hy
  rcases (hl.before_derive ht hd).1 hxy with hb | ⟨rfl, hxs⟩ | ⟨rfl, hsy⟩
  · -- two that were there before
    obtain ⟨hxt, hyt⟩ := hne hb
    rw [if_neg hxt] at hx
    rw [if_neg hyt] at hy
    have hj : j ≠ g.count := Nat.ne_of_lt (h.wellFormed.known hy)
    rw [Capability.isTract_congr (hout hxt)] at htract
    rw [Capability.mayRevoke_congr (hout hxt) (hout hyt), h.reached hx hy htract hb]
    simp [hj]
  · -- the child is the second
    have hxt : x ≠ y := by
      rcases hxs with rfl | hxs
      · exact hts
      · exact (hne hxs).1
    rw [if_neg hxt] at hx
    rw [if_pos rfl] at hy
    cases hy
    have hold : ¬ g.Descends g.count i := fun hd =>
      Nat.lt_irrefl _ (h.wellFormed.lt_of_descends hd).2
    rw [Capability.isTract_congr (hout hxt)] at htract
    rw [hchild, Capability.mayRevoke_congr (hout hxt) rfl,
      h.reached_child hl hd hx htract hxs]
    simp [hold]
  · -- the child is the first, and nothing descends from it yet
    have hyt := (hne hsy).2
    rw [if_pos rfl] at hx
    rw [if_neg hyt] at hy
    cases hx
    have hj := h.wellFormed.known hy
    have hnot : ¬ g.Descends j g.count := fun hd => by
      have := (h.wellFormed.lt_of_descends hd).1
      omega
    rw [hchild] at htract
    rw [hchild, Capability.mayRevoke_congr rfl (hout hyt),
      hd.mayRevoke_eq_false (hl.sound source) htract (hl.precedes _ _ hsy)]
    simp [hnot, Nat.ne_of_lt hj]

/-- Deriving is a birth, with the instance in the slot of the parent as its parent. -/
theorem Reflects.derive :
    (t.derive source target c).Reflects (g.bear target (g.holder source)) where
  wellFormed := h.wellFormed_bear source target
  held := h.held_derive hl ht hd
  ordered := h.ordered_derive hl ht hd
  reached := h.reached_derive hl ht hd

end Derive

/-! ## Taking back -/

theorem Reflects.takeBack {d : Slot} (h : t.Reflects g) (hl : t.Strung) (hn : t.next s = some d) :
    (t.takeBack s d).Reflects (g.drop d) := by
  have hds : d ≠ s := fun he => hl.next_ne_self s (he ▸ hn)
  exact (h.unlink hl d).set (outline_reclaiming hds)

end Table
end SepKernel
