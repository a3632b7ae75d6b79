import SepKernel.Proofs.Machine.Revoked

/-!
# What a capability did not hand out

A capability and all that it reaches are a part of the table in which its holders may do as they
please: derive, move, delete, revoke and load. This file is about the rest. Two tables are *alike*
beside a slot if they have the same capabilities and the same order wherever the slot does not
reach, and if the slot itself, once it has taken everything back, holds the same.

Every edit of what a slot reaches leaves a table that is alike beside the slot. If the slot has
nothing handed out in either of two such tables, then they are one and the same, links and all.
-/

namespace SepKernel

/-- What a capability is restored to does not depend on what was derived from it. -/
@[simp] theorem Capability.restored_afterDeriving (p c : Capability) :
    (p.afterDeriving c).restored = p.restored := by
  cases p <;> cases c <;> rfl

namespace Table

variable {t t' : Table} {s x y z d source target : Slot} {c : Capability}

/-! ## Reaching -/

instance (t : Table) (s d : Slot) : Decidable (t.Reaches s d) :=
  inferInstanceAs (Decidable (_ ∧ _))

theorem Strung.not_reaches_self (h : t.Strung) (s : Slot) : ¬ t.Reaches s s :=
  fun hr => h.not_before_self s hr.1

theorem Strung.occupied_of_reaches (h : t.Strung) (hr : t.Reaches s x) : t.get x ≠ .null :=
  h.occupied_right hr.1

theorem Strung.reaches_trans (h : t.Strung) (hxy : t.Reaches x y) (hyz : t.Reaches y z) :
    t.Reaches x z :=
  ⟨h.trans hxy.1 hyz.1, Capability.mayRevoke_trans hxy.2 hyz.2⟩

def Within (t : Table) (s x : Slot) : Prop :=
  x = s ∨ t.Reaches s x

/-- What is reached from within is reached from the range itself. -/
theorem Strung.within_of_reaches (h : t.Strung) (hx : t.Within s x) (hr : t.Reaches x y) :
    t.Reaches s y := by
  rcases hx with rfl | hx
  · exact hr
  · exact h.reaches_trans hx hr

/-- The range is there if there is something within. -/
theorem Strung.occupied_of_within (h : t.Strung) (hx : t.Within s x) (hn : t.get x ≠ .null) :
    t.get s ≠ .null := by
  rcases hx with rfl | hx
  · exact hn
  · exact h.occupied_left hx.1

/-! ## Tables that are alike -/

/-- What is in a slot once `s` has taken everything back. -/
def remaining (t : Table) (s x : Slot) : Capability :=
  if x = s then (t.get s).restored else if t.Reaches s x then .null else t.get x

/-- Does one slot stand before another, once `s` has taken everything back? -/
def RemainsBefore (t : Table) (s x y : Slot) : Prop :=
  t.Before x y ∧ ¬ t.Reaches s x ∧ ¬ t.Reaches s y

/-- The tables differ only in what `s` has handed out. -/
structure AlikeBeside (s : Slot) (t t' : Table) : Prop where
  remaining : ∀ x, t'.remaining s x = t.remaining s x
  order : ∀ x y, t'.RemainsBefore s x y ↔ t.RemainsBefore s x y

instance (s : Slot) : IsPreorder Table (AlikeBeside s) where
  refl _ := ⟨fun _ => rfl, fun _ _ => Iff.rfl⟩
  trans _ _ _ h h' := ⟨fun x => (h'.remaining x).trans (h.remaining x),
    fun x y => (h'.order x y).trans (h.order x y)⟩

theorem AlikeBeside.restored (h : AlikeBeside s t t') :
    (t'.get s).restored = (t.get s).restored := by
  simpa only [Table.remaining, if_pos] using h.remaining s

/-! ### Tables of which nothing is handed out -/

/-- The slot reaches nothing, and has its whole range. -/
structure Bare (t : Table) (s : Slot) : Prop where
  whole : (t.get s).restored = t.get s
  reaches : ∀ x, ¬ t.Reaches s x

/-- Where nothing is handed out, nothing would be taken back. -/
theorem Bare.remaining (h : t.Bare s) (x : Slot) : t.remaining s x = t.get x := by
  unfold Table.remaining
  split
  · next hx => rw [h.whole, hx]
  · rw [if_neg (h.reaches x)]

theorem Bare.remainsBefore (h : t.Bare s) : t.RemainsBefore s x y ↔ t.Before x y :=
  ⟨fun hb => hb.1, fun hb => ⟨hb, h.reaches x, h.reaches y⟩⟩

/-- The order of a line tells its links. -/
theorem Strung.next_of_before (h : t.Strung) (h' : t'.Strung)
    (hb : ∀ x y, t'.Before x y ↔ t.Before x y) (hn : t.next x = some y) : t'.next x = some y := by
  obtain ⟨z, hz, he | hzy⟩ := h'.before_iff.1 ((hb x y).2 (h.before_of_next hn))
  · rw [he, hz]
  · -- nothing stands between a slot and the next one
    have hxz : t.Before x z := (hb x z).1 (h'.before_of_next hz)
    rcases h.eq_or_before_of_next hn hxz with rfl | hyz
    · exact hz
    · exact absurd ((hb z y).1 hzy) (h.asymm hyz)

/-- Tables with the same capabilities in the same order are the same. -/
theorem Strung.ext (h : t.Strung) (h' : t'.Strung) (hg : ∀ x, t'.get x = t.get x)
    (hb : ∀ x y, t'.Before x y ↔ t.Before x y) : t' = t := by
  -- the next in the line is the first that comes after
  have hnext : ∀ x y, t'.next x = some y ↔ t.next x = some y := fun x y =>
    ⟨h'.next_of_before h fun u v => (hb u v).symm, h.next_of_before h' hb⟩
  apply Table.ext
  intro x
  have hn : t'.next x = t.next x := Option.ext fun y => hnext x y
  -- links back answer links forward
  have hp : t'.previous x = t.previous x := Option.ext fun y => by
    rw [← h'.answered, ← h.answered, hnext]
  calc t'.entry x = ⟨t'.get x, t'.previous x, t'.next x⟩ := rfl
    _ = ⟨t.get x, t.previous x, t.next x⟩ := by rw [hg, hp, hn]
    _ = t.entry x := rfl

/-- If nothing is handed out in either, alike tables are the same. -/
theorem AlikeBeside.eq (ha : AlikeBeside s t t') (h : t.Strung) (h' : t'.Strung) (hb : t.Bare s)
    (hb' : t'.Bare s) : t' = t := by
  refine h.ext h' (fun x => ?_) fun x y => ?_
  · rw [← hb'.remaining, ha.remaining, hb.remaining]
  · rw [← hb'.remainsBefore, ha.order, hb.remainsBefore]

/-! ## Edits -/

/-! ### Replacing a capability -/

/-- Who reaches whom depends on outlines and order. -/
theorem reaches_set (ho : (t.get x).outline = c.outline) :
    (t.set x c).Reaches s y ↔ t.Reaches s y := by
  unfold Reaches
  rw [following_set, Capability.mayRevoke_congr (outline_set ho s) (outline_set ho y)]

/-- A capability may be replaced by one of the same outline, within what the slot reaches. -/
theorem AlikeBeside.set (hx : t.Within s x) (ho : (t.get x).outline = c.outline)
    (hs : x = s → c.restored = (t.get x).restored) : AlikeBeside s t (t.set x c) where
  remaining y := by
    unfold Table.remaining
    simp only [get_set, reaches_set ho]
    by_cases hy : y = s
    · subst hy
      by_cases hxy : x = y
      · subst hxy
        simp [hs]
      · simp [hxy]
    · rw [if_neg hy, if_neg hy]
      by_cases hxy : x = y
      · subst hxy
        have hr : t.Reaches s x := hx.resolve_left hy -- what is reached does not remain
        simp [hr]
      · simp [hxy]
  order y z := by
    unfold RemainsBefore
    rw [before_set, reaches_set ho, reaches_set ho]

/-! ### Closing a gap -/

/-- The slot reaches the same as before, without the one that was vacated. -/
theorem Strung.reaches_unlink (h : t.Strung) (hd : s ≠ d) :
    (t.unlink d).Reaches s x ↔ t.Reaches s x ∧ x ≠ d := by
  show (t.unlink d).Before s x ∧ _ ↔ (t.Before s x ∧ _) ∧ _
  rw [h.before_unlink, get_unlink, get_unlink, if_neg hd.symm]
  constructor
  · rintro ⟨⟨hb, _, hx⟩, hr⟩
    rw [if_neg hx.symm] at hr
    exact ⟨⟨hb, hr⟩, hx⟩
  · rintro ⟨⟨hb, hr⟩, hx⟩
    rw [if_neg hx.symm]
    exact ⟨⟨hb, hd, hx⟩, hr⟩

theorem Strung.ne_of_reaches (h : t.Strung) (hr : t.Reaches s d) : s ≠ d :=
  fun he => h.not_reaches_self s (he ▸ hr)

/-- A slot within reach may be vacated: once everything is taken back, it is vacant in either
case. -/
theorem AlikeBeside.unlink (h : t.Strung) (hd : t.Reaches s d) : AlikeBeside s t (t.unlink d) where
  remaining x := by
    have hsd := h.ne_of_reaches hd
    unfold Table.remaining
    rw [get_unlink, get_unlink, if_neg hsd.symm]
    simp only [h.reaches_unlink hsd]
    by_cases hx : x = d
    · subst hx
      simp [hsd.symm, hd]
    · simp [hx, Ne.symm hx]
  order x y := by
    -- whatever remains is not the slot that was vacated, for that one was reached
    have hsd := h.ne_of_reaches hd
    unfold RemainsBefore
    rw [h.before_unlink, h.reaches_unlink hsd, h.reaches_unlink hsd]
    constructor
    · rintro ⟨⟨hb, hx, hy⟩, hrx, hry⟩
      exact ⟨hb, fun hr => hrx ⟨hr, hx⟩, fun hr => hry ⟨hr, hy⟩⟩
    · rintro ⟨hb, hrx, hry⟩
      have hx : x ≠ d := fun he => hrx (he ▸ hd)
      have hy : y ≠ d := fun he => hry (he ▸ hd)
      exact ⟨⟨hb, hx, hy⟩, fun hr => hrx hr.1, fun hr => hry hr.1⟩

/-! ### Taking back -/

theorem Strung.reaches_takeBack (h : t.Strung) (hd : s ≠ d) (hx : x ≠ d) :
    (t.takeBack x d).Reaches s y ↔ t.Reaches s y ∧ y ≠ d := by
  rw [Table.takeBack, reaches_set (outline_reclaiming hx.symm), h.reaches_unlink hd]

/-- Whoever is within reach may take something back itself, for all of that goes back in the end. -/
theorem AlikeBeside.takeBack (h : t.Strung) (hx : t.Within s x) (hr : t.Reaches x d) :
    AlikeBeside s t (t.takeBack x d) := by
  have hd : t.Reaches s d := h.within_of_reaches hx hr
  have hxd : x ≠ d := h.ne_of_reaches hr
  refine trans_of (AlikeBeside s) (AlikeBeside.unlink h hd) (AlikeBeside.set ?_ ?_ fun _ => ?_)
  · exact hx.imp_right fun hx => (h.reaches_unlink (h.ne_of_reaches hd)).2 ⟨hx, hxd⟩
  · exact outline_reclaiming hxd.symm
  · rw [get_unlink, if_neg hxd.symm, Capability.restored_afterReclaiming]

theorem AlikeBeside.restore (hx : t.Within s x) : AlikeBeside s t (t.restore x) :=
  AlikeBeside.set hx (Capability.outline_restored _).symm fun _ => Capability.restored_restored _

/-! ### Moving -/

section Relink
variable (h : t.Strung) (hr : t.Reaches s source) (ht : t.get target = .null)
  (hc : (t.get source).Reseats c)
include h hr ht

/-- Neither slot of a move is the one that reaches the capability. -/
theorem Strung.swap_self_of_reaches : Equiv.swap source target s = s := by
  have hs : s ≠ target := ne_of_vacant (h.occupied_left hr.1) ht
  exact Equiv.swap_apply_of_ne_of_ne (h.ne_of_reaches hr) hs

include hc

/-- After a move of something within reach, the slot reaches the exchanged slots. -/
theorem Strung.reaches_relink :
    (t.relink source target c).Reaches s x ↔ t.Reaches s (Equiv.swap source target x) := by
  have hs := h.occupied_of_reaches hr
  have hout := fun x => (h.reseats_relink ht hc x).outline_eq.symm
  show (t.relink source target c).Before s x ∧ _ ↔ t.Before s _ ∧ _
  rw [h.before_relink hs ht, h.swap_self_of_reaches hr ht,
    Capability.mayRevoke_congr (hout s) (hout x), h.swap_self_of_reaches hr ht]

/-- Something within reach may be moved. Both its slots are vacant once everything is taken back,
and the capabilities beside it are neither moved nor reordered. -/
theorem AlikeBeside.relink : AlikeBeside s t (t.relink source target c) := by
  have hs := h.occupied_of_reaches hr
  have hst : source ≠ target := ne_of_vacant hs ht
  have hself := h.swap_self_of_reaches hr ht
  have hvacant : ¬ t.Reaches s target := fun hr' => h.occupied_of_reaches hr' ht
  have hreach := fun x => h.reaches_relink hr ht hc (x := x)
  constructor
  case remaining =>
    intro x
    unfold Table.remaining
    simp only [hreach, h.get_relink ht]
    by_cases hxs : x = source
    · -- the capability left its old slot
      subst hxs
      have hne := h.ne_of_reaches hr
      simp [hne.symm, hr]
    · by_cases hxt : x = target
      · -- the new slot was vacant, and is reached now
        subst hxt
        have hne : x ≠ s := (ne_of_vacant (h.occupied_left hr.1) ht).symm
        simp [hne, hr, ht]
      · have hsource := h.ne_of_reaches hr
        have htarget : s ≠ target := ne_of_vacant (h.occupied_left hr.1) ht
        simp [Ne.symm hxs, Ne.symm hxt, hsource.symm, htarget.symm,
          Equiv.swap_apply_of_ne_of_ne hxs hxt]
  case order =>
    intro x y
    have hnot : ∀ {u v}, t.Before u v → u ≠ target ∧ v ≠ target := fun hb =>
      ⟨ne_of_vacant (h.occupied_left hb) ht, ne_of_vacant (h.occupied_right hb) ht⟩
    unfold RemainsBefore
    rw [h.before_relink hs ht, hreach, hreach]
    constructor
    · rintro ⟨hb, hx, hy⟩
      -- neither is one of the two slots, of which one is reached and the other vacant
      have hxs : x ≠ source := by
        rintro rfl
        rw [Equiv.swap_apply_left] at hb
        exact (hnot hb).1 rfl
      have hys : y ≠ source := by
        rintro rfl
        rw [Equiv.swap_apply_left] at hb
        exact (hnot hb).2 rfl
      have hxt : x ≠ target := by
        rintro rfl
        rw [Equiv.swap_apply_right] at hx
        exact hx hr
      have hyt : y ≠ target := by
        rintro rfl
        rw [Equiv.swap_apply_right] at hy
        exact hy hr
      rw [Equiv.swap_apply_of_ne_of_ne hxs hxt] at hb hx
      rw [Equiv.swap_apply_of_ne_of_ne hys hyt] at hb hy
      exact ⟨hb, hx, hy⟩
    · -- conversely, whatever remains was moved neither from nor to
      rintro ⟨hb, hx, hy⟩
      have hxs : x ≠ source := fun he => hx (he ▸ hr)
      have hys : y ≠ source := fun he => hy (he ▸ hr)
      obtain ⟨hxt, hyt⟩ := hnot hb
      rw [Equiv.swap_apply_of_ne_of_ne hxs hxt, Equiv.swap_apply_of_ne_of_ne hys hyt]
      exact ⟨hb, hx, hy⟩

end Relink

/-! ### Deriving -/

section Derive
variable (h : t.Lineal) (hx : t.Within s source) (ht : t.get target = .null)
  (hd : (t.get source).Derivation c)
include h hx ht hd

/-- Whatever is derived from something within reach is within reach as well. -/
theorem Lineal.reaches_derive :
    (t.derive source target c).Reaches s x ↔ x = target ∨ t.Reaches s x := by
  have hts : target ≠ source := (ne_of_vacant hd.ne_null.1 ht).symm
  have hchild : (t.get source).mayRevoke c = true := hd.mayRevoke (h.sound source)
  have hs : s ≠ target := ne_of_vacant (h.strung.occupied_of_within hx hd.ne_null.1) ht
  show (t.derive source target c).Before s x ∧ _ ↔ _ ∨ t.Before s x ∧ _
  rw [h.before_derive ht hd]
  by_cases hxt : x = target
  · subst hxt
    rw [Capability.mayRevoke_congr (h.outline_derive ht hd hs) rfl, h.get_derive ht hd, if_pos rfl]
    refine iff_of_true ⟨.inr (.inl ⟨rfl, ?_⟩), ?_⟩ (.inl rfl)
    · exact hx.imp Eq.symm And.left
    · rcases hx with rfl | hx
      · exact hchild
      · -- revoking is transitive
        exact Capability.mayRevoke_trans hx.2 hchild
  · rw [Capability.mayRevoke_congr (h.outline_derive ht hd hs) (h.outline_derive ht hd hxt)]
    simp [hxt, hs]

/-- Something within reach may hand out more: the child goes with the rest, and the mark of its
parent is not looked at. -/
theorem AlikeBeside.derive : AlikeBeside s t (t.derive source target c) := by
  have hts : target ≠ source := (ne_of_vacant hd.ne_null.1 ht).symm
  have hreach := fun x => h.reaches_derive hx ht hd (x := x)
  have hs : s ≠ target := ne_of_vacant (h.strung.occupied_of_within hx hd.ne_null.1) ht
  constructor
  case remaining =>
    intro x
    unfold Table.remaining
    simp only [hreach, h.get_derive ht hd]
    -- the range itself, the child, the parent, or something else
    by_cases hxs : x = s
    · subst hxs
      by_cases hsource : source = x
      · subst hsource
        simp [hts]
      · simp [hs.symm, hsource]
    · by_cases hxt : x = target
      · subst hxt
        simp [hxs, ht]
      · by_cases hsource : source = x
        · subst hsource
          have hr := hx.resolve_left hxs
          simp [hxs, hr]
        · simp [hxs, hxt, Ne.symm hxt, hsource]
  case order =>
    intro x y
    unfold RemainsBefore
    rw [h.before_derive ht hd, hreach, hreach]
    have hnot : t.Before x y → x ≠ target ∧ y ≠ target := fun hb =>
      ⟨ne_of_vacant (h.strung.occupied_left hb) ht, ne_of_vacant (h.strung.occupied_right hb) ht⟩
    tauto

end Derive

end Table
end SepKernel
