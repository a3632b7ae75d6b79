import SepKernel.Proofs.Lineage.Precedence
import SepKernel.Proofs.Table.Order

/-!
# Edits

The kernel changes an existing capability table in six ways. All of them keep the table *lineal*:
capabilities that stand in one line are in the order of `Capability.Precedes`, and what a
revocation reaches is the beginning of what follows.
-/

namespace SepKernel
namespace Table

variable {t t' : Table} {s x y z w d p source target : Slot} {c p' : Capability}

/-! ## Lineal tables -/

/-- The invariant of the capability table. -/
structure Lineal (t : Table) : Prop where
  strung : t.Strung
  sound : ∀ x, (t.get x).Sound
  precedes : ∀ x y, t.Before x y → (t.get x).Precedes (t.get y)
  /-- Between a capability and one that it reaches there is nothing that it does not reach. -/
  reaches_between : ∀ x y z, t.Before x y → t.Before y z →
    (t.get x).mayRevoke (t.get z) = true → (t.get x).mayRevoke (t.get y) = true

/-- Replacing a capability by one of the same outline leaves all outlines. -/
theorem outline_set (ho : (t.get s).outline = c.outline) (x : Slot) :
    ((t.set s c).get x).outline = (t.get x).outline := by
  rw [get_set]
  split
  · next hx => rw [← hx, ho]
  · rfl

theorem get_set_eq_null (ho : (t.get s).outline = c.outline) (x : Slot) :
    (t.set s c).get x = .null ↔ t.get x = .null := by
  rw [← Capability.outline_eq_null, outline_set ho, Capability.outline_eq_null]

/-- A capability may be replaced by one of the same outline that still precedes what follows. -/
theorem Lineal.set (h : t.Lineal) (ho : (t.get s).outline = c.outline) (hc : c ≠ .null)
    (hs : c.Sound) (hp : ∀ y, t.Before s y → c.Precedes (t.get y)) : (t.set s c).Lineal := by
  have hout : ∀ x, ((t.set s c).get x).outline = (t.get x).outline := outline_set ho
  constructor
  case strung => exact h.strung.set hc
  case sound =>
    intro x
    rw [get_set]
    split
    · exact hs
    · exact h.sound x
  case precedes =>
    intro x y hxy
    rw [before_set] at hxy
    -- whatever was replaced, for the second of two only its outline matters
    refine Capability.Precedes.congr_right ?_ (hout y).symm
    rw [get_set]
    split
    · next hx => exact hp y (hx ▸ hxy)
    · exact h.precedes x y hxy
  case reaches_between =>
    intro x y z hxy hyz hr
    rw [before_set] at hxy hyz
    rw [Capability.mayRevoke_congr (hout x) (hout z)] at hr
    rw [Capability.mayRevoke_congr (hout x) (hout y)]
    exact h.reaches_between x y z hxy hyz hr

/-- Vacating a slot keeps the table lineal: what remains is in the same order, and no pair is
new. -/
theorem Lineal.unlink (h : t.Lineal) (s : Slot) : (t.unlink s).Lineal := by
  have hget : ∀ {x}, x ≠ s → (t.unlink s).get x = t.get x := fun hx => by
    rw [get_unlink, if_neg (Ne.symm hx)]
  constructor
  case strung => exact h.strung.unlink s
  case sound =>
    intro x
    rw [get_unlink]
    split
    · rintro _ ⟨⟩
    · exact h.sound x
  case precedes =>
    intro x y hxy
    -- neither of the two is the slot that was vacated
    obtain ⟨hxy, hx, hy⟩ := h.strung.before_unlink.1 hxy
    rw [hget hx, hget hy]
    exact h.precedes x y hxy
  case reaches_between =>
    intro x y z hxy hyz hr
    obtain ⟨hxy, hx, hy⟩ := h.strung.before_unlink.1 hxy
    obtain ⟨hyz, _, hz⟩ := h.strung.before_unlink.1 hyz
    rw [hget hx, hget hz] at hr
    rw [hget hx, hget hy]
    exact h.reaches_between x y z hxy hyz hr

/-- After a move, the capability of every slot is that of the exchanged slot, reseated. -/
theorem Strung.reseats_relink (h : t.Strung) (ht : t.get target = .null)
    (hc : (t.get source).Reseats c) (x : Slot) :
    (t.get (Equiv.swap source target x)).Reseats ((t.relink source target c).get x) := by
  rw [h.get_relink ht]
  by_cases hxs : source = x
  · rw [if_pos hxs, ← hxs, Equiv.swap_apply_left, ht]
    exact .same _
  · by_cases hxt : target = x
    · rwa [if_neg hxs, if_pos hxt, ← hxt, Equiv.swap_apply_right]
    · rw [if_neg hxs, if_neg hxt, Equiv.swap_apply_of_ne_of_ne (Ne.symm hxs) (Ne.symm hxt)]
      exact .same _

/-- A move keeps the table lineal: it exchanges two slots, and the one capability that it reseats
has the same outline as before. -/
theorem Lineal.relink (h : t.Lineal) (hs : t.get source ≠ .null) (ht : t.get target = .null)
    (hc : (t.get source).Reseats c) (hn : c ≠ .null) : (t.relink source target c).Lineal := by
  -- every capability is what it was in the other of the two slots, up to where it sits
  have hre := h.strung.reseats_relink ht hc
  have hout := fun x => (hre x).outline_eq.symm
  have hb := fun x y => (h.strung.before_relink hs ht c (x := x) (y := y)).1
  constructor
  case strung => exact h.strung.relink hs ht hn
  case sound => exact fun x => (hre x).sound (h.sound _)
  case precedes =>
    intro x y hxy
    exact (hre x).precedes (Capability.Precedes.congr_right (h.precedes _ _ (hb _ _ hxy))
      (hre y).outline_eq)
  case reaches_between =>
    intro x y z hxy hyz hr
    rw [Capability.mayRevoke_congr (hout x) (hout z)] at hr
    rw [Capability.mayRevoke_congr (hout x) (hout y)]
    exact h.reaches_between _ _ _ (hb _ _ hxy) (hb _ _ hyz) hr

/-! ## Deriving -/

def derive (t : Table) (source target : Slot) (c : Capability) : Table :=
  (t.set source ((t.get source).afterDeriving c)).insertAfter source target c

section Derive
variable (h : t.Lineal) (ht : t.get target = .null)
  (hd : (t.get source).Derivation c)
include h ht hd

/-- What the table must look like for the child to be put into it. -/
theorem Lineal.ready_derive :
    (t.set source ((t.get source).afterDeriving c)).Strung ∧
      (t.set source ((t.get source).afterDeriving c)).get source ≠ .null ∧
      (t.set source ((t.get source).afterDeriving c)).get target = .null := by
  have hn : (t.get source).afterDeriving c ≠ .null :=
    Capability.ne_null_of_outline (Capability.outline_afterDeriving _ _).symm hd.ne_null.1
  refine ⟨h.strung.set hn, ?_, ?_⟩
  · rwa [get_set_self]
  · rwa [get_set_of_ne _ _ (ne_of_vacant hd.ne_null.1 ht)]

theorem Lineal.get_derive (x : Slot) :
    (t.derive source target c).get x =
      if target = x then c
      else if source = x then (t.get source).afterDeriving c else t.get x := by
  obtain ⟨hstr, hs, hv⟩ := h.ready_derive ht hd
  rw [derive, hstr.get_insertAfter hs hv, get_set]

/-- The order after a derivation: the child comes directly after its parent. -/
theorem Lineal.before_derive :
    (t.derive source target c).Before x y ↔
      t.Before x y ∨ y = target ∧ (x = source ∨ t.Before x source) ∨
        x = target ∧ t.Before source y := by
  obtain ⟨hstr, hs, hv⟩ := h.ready_derive ht hd
  rw [derive, hstr.before_insertAfter hs hv]
  simp only [before_set]

/-- Outside the slot of the child, outlines stay. -/
theorem Lineal.outline_derive (hx : x ≠ target) :
    ((t.derive source target c).get x).outline = (t.get x).outline := by
  rw [h.get_derive ht hd, if_neg (Ne.symm hx)]
  split
  · next hs => rw [← hs, Capability.outline_afterDeriving]
  · rfl

/-- After a derivation, a capability still precedes what comes after it in its line. There are four
kinds of pairs, of which three have to do with the child. -/
theorem Lineal.precedes_derive (hb : (t.derive source target c).Before x y) :
    ((t.derive source target c).get x).Precedes ((t.derive source target c).get y) := by
  have hp := h.sound source
  have hget := h.get_derive ht hd
  have hts : target ≠ source := (ne_of_vacant hd.ne_null.1 ht).symm
  have hchild : (t.derive source target c).get target = c := by rw [hget, if_pos rfl]
  have hparent : (t.derive source target c).get source = (t.get source).afterDeriving c := by
    rw [hget, if_neg hts, if_pos rfl]
  have hother : ∀ {u}, target ≠ u → source ≠ u → (t.derive source target c).get u = t.get u :=
    fun htu hsu => by rw [hget, if_neg htu, if_neg hsu]
  rcases (h.before_derive ht hd).1 hb with hxy | ⟨rfl, rfl | hxs⟩ | ⟨rfl, hsy⟩
  · -- an old pair, of which the first may be the parent
    have hx : target ≠ x := (ne_of_vacant (h.strung.occupied_left hxy) ht).symm
    have hy : y ≠ target := ne_of_vacant (h.strung.occupied_right hxy) ht
    refine Capability.Precedes.congr_right ?_ (h.outline_derive ht hd hy).symm
    by_cases hsx : source = x
    · subst hsx
      rw [hparent]
      exact hd.precedes_of_precedes hp (h.precedes _ _ hxy)
    · rw [hother hx hsx]
      exact h.precedes _ _ hxy
  · -- the parent and the child
    rw [hchild, hparent]
    exact hd.precedes hp
  · -- the child after something before its parent
    have hx : y ≠ x := (ne_of_vacant (h.strung.occupied_left hxs) ht).symm
    have hsx : source ≠ x := fun he => h.strung.not_before_self x (he ▸ hxs)
    rw [hchild, hother hx hsx]
    exact (h.precedes _ _ hxs).derive hd (h.sound x) hp
  · -- the child before something after its parent
    have hy : y ≠ x := ne_of_vacant (h.strung.occupied_right hsy) ht
    refine Capability.Precedes.congr_right ?_ (h.outline_derive ht hd hy).symm
    rw [hchild]
    exact hd.child_precedes hp (h.precedes _ _ hsy)

/-- After a derivation the child is sound because it is fresh, and its parent because the child was
carved out of its free part. -/
theorem Lineal.sound_derive (x : Slot) : ((t.derive source target c).get x).Sound := by
  rw [h.get_derive ht hd]
  split
  · exact hd.sound_child
  · split
    · exact hd.sound (h.sound source)
    · exact h.sound x

omit ht in
/-- What the child reaches is the beginning of what follows its parent. -/
theorem Lineal.child_reaches (hsy : t.Before source y) (hyz : t.Before y z)
    (hr : c.mayRevoke (t.get z) = true) : c.mayRevoke (t.get y) = true :=
  hd.mayRevoke_between (h.sound source) (h.precedes _ _ hsy)
    (h.precedes _ _ (h.strung.trans hsy hyz)) (h.precedes _ _ hyz) hr

omit ht in
/-- Who reaches something after the parent, from the parent on, reaches the child. -/
theorem Lineal.reaches_child (hxs : x = source ∨ t.Before x source) (hsz : t.Before source z)
    (hr : (t.get x).mayRevoke (t.get z) = true) : (t.get x).mayRevoke c = true := by
  have hsc : (t.get source).mayRevoke c = true := hd.mayRevoke (h.sound source)
  rcases hxs with rfl | hxs
  · exact hsc
  · exact Capability.mayRevoke_trans (h.reaches_between _ _ _ hxs hsz hr) hsc

omit ht in
/-- Who reaches the child reaches everything on the way to the parent. -/
theorem Lineal.reaches_before_child (hxy : t.Before x y) (hys : y = source ∨ t.Before y source)
    (hr : (t.get x).mayRevoke c = true) : (t.get x).mayRevoke (t.get y) = true := by
  rcases hys with rfl | hys
  · exact (h.precedes _ _ hxy).mayRevoke_of_child hd (h.sound x) hr
  · have hxs := h.strung.trans hxy hys
    have hs := (h.precedes _ _ hxs).mayRevoke_of_child hd (h.sound x) hr
    exact h.reaches_between _ _ _ hxy hys hs

/-- After a derivation, whoever reaches a slot reaches all that come before it. -/
theorem Lineal.reaches_between_derive (hxy : (t.derive source target c).Before x y)
    (hyz : (t.derive source target c).Before y z)
    (hr : ((t.derive source target c).get x).mayRevoke ((t.derive source target c).get z) = true) :
    ((t.derive source target c).get x).mayRevoke ((t.derive source target c).get y) = true := by
  have hout := fun {u} => h.outline_derive ht hd (x := u)
  have hchild : (t.derive source target c).get target = c := by
    rw [h.get_derive ht hd, if_pos rfl]
  have hnot : ∀ u, ¬ t.Before u target ∧ ¬ t.Before target u :=
    fun u => ⟨fun hu => h.strung.occupied_right hu ht, fun hu => h.strung.occupied_left hu ht⟩
  have hts : target ≠ source := (ne_of_vacant hd.ne_null.1 ht).symm
  have hself := h.strung.not_before_self source
  have hasymm := fun u => h.strung.asymm (x := source) (y := u)
  rw [h.before_derive ht hd] at hxy hyz
  -- the child may be any one of the three, or none of them
  by_cases hx : x = target
  · have hsy : t.Before source y := by grind
    have hyz : t.Before y z := by grind
    have hy : y ≠ target := by grind
    have hz : z ≠ target := by grind
    rw [hx, hchild, Capability.mayRevoke_congr rfl (hout hz)] at hr
    rw [hx, hchild, Capability.mayRevoke_congr rfl (hout hy)]
    exact h.child_reaches hd hsy hyz hr
  · by_cases hy : y = target
    · have hxs : x = source ∨ t.Before x source := by grind
      have hsz : t.Before source z := by grind
      have hz : z ≠ target := by grind
      rw [Capability.mayRevoke_congr (hout hx) (hout hz)] at hr
      rw [hy, hchild, Capability.mayRevoke_congr (hout hx) rfl]
      exact h.reaches_child hd hxs hsz hr
    · have hxy : t.Before x y := by grind
      by_cases hz : z = target
      · have hys : y = source ∨ t.Before y source := by grind
        rw [hz, hchild, Capability.mayRevoke_congr (hout hx) rfl] at hr
        rw [Capability.mayRevoke_congr (hout hx) (hout hy)]
        exact h.reaches_before_child hd hxy hys hr
      · have hyz : t.Before y z := by grind
        rw [Capability.mayRevoke_congr (hout hx) (hout hz)] at hr
        rw [Capability.mayRevoke_congr (hout hx) (hout hy)]
        exact h.reaches_between _ _ _ hxy hyz hr

/-- A derivation keeps the table lineal. -/
theorem Lineal.derive : (t.derive source target c).Lineal where
  strung := by
    obtain ⟨hstr, hs, hv⟩ := h.ready_derive ht hd
    exact hstr.insertAfter hs hv hd.ne_null.2
  sound := h.sound_derive ht hd
  precedes _ _ := h.precedes_derive ht hd
  reaches_between _ _ _ := h.reaches_between_derive ht hd

end Derive

/-! ## Taking back -/

def takeBack (t : Table) (s d : Slot) : Table :=
  (t.unlink d).set s ((t.get s).afterReclaiming (t.get d))

def restore (t : Table) (s : Slot) : Table :=
  t.set s (t.get s).restored

theorem get_takeBack (t : Table) (s d x : Slot) :
    (t.takeBack s d).get x =
      if s = x then (t.get s).afterReclaiming (t.get d) else if d = x then .null else t.get x := by
  rw [takeBack, get_set, get_unlink]

/-- When the first is vacated, the second still has the outline that it takes back with. -/
theorem outline_reclaiming (hds : d ≠ s) :
    ((t.unlink d).get s).outline = ((t.get s).afterReclaiming (t.get d)).outline := by
  rw [get_unlink, if_neg hds, Capability.outline_afterReclaiming]

/-- Taking a child back keeps the table lineal. The child is the next one, and what else was carved
out of the parent lies below it. -/
theorem Lineal.takeBack (h : t.Lineal) (hn : t.next s = some d)
    (hr : (t.get s).mayRevoke (t.get d) = true) : (t.takeBack s d).Lineal := by
  have hb : t.Before s d := h.strung.before_of_next hn
  have hsd : d ≠ s := fun he => h.strung.next_ne_self s (he ▸ hn)
  apply (h.unlink d).set
  · exact outline_reclaiming hsd
  · exact Capability.ne_null_of_outline (Capability.outline_afterReclaiming _ _).symm
      (h.strung.occupied_left hb)
  · exact (h.sound s).reclaim (h.sound d) hr
  · intro y hy
    obtain ⟨hsy, _, hyd⟩ := h.strung.before_unlink.1 hy
    -- what remains after the parent stood after the child, too
    have hdy : t.Before d y := (h.strung.eq_or_before_of_next hn hsy).resolve_left hyd
    rw [get_unlink, if_neg (Ne.symm hyd)]
    exact (h.precedes _ _ hb).reclaim hr (h.sound d) (h.precedes _ _ hsy) (h.precedes _ _ hdy)

/-- Once nothing that follows can be revoked, the whole range may be put back. -/
theorem Lineal.restore (h : t.Lineal) (hs : t.get s ≠ .null)
    (hr : ∀ y, t.Before s y → (t.get s).mayRevoke (t.get y) = false) : (t.restore s).Lineal := by
  refine h.set (Capability.outline_restored _).symm ?_ (h.sound s).restored ?_
  · exact Capability.ne_null_of_outline (Capability.outline_restored _).symm hs
  · intro y hy
    exact (h.precedes _ _ hy).restore (hr y hy) (h.sound s)

/-! ## The six edits -/

/-- One change that the kernel makes to its capability table. -/
inductive Edit (t : Table) : Table → Prop
  | move {source target : Slot} {c : Capability} : t.get source ≠ .null → t.get target = .null →
      (t.get source).Reseats c → Edit t (t.relink source target c)
  | delete {s : Slot} : t.get s ≠ .null → Edit t (t.unlink s)
  | derive {source target : Slot} {c : Capability} : t.get target = .null →
      (t.get source).Derivation c → Edit t (t.derive source target c)
  | reseat {s : Slot} {c : Capability} : t.get s ≠ .null → (t.get s).Reseats c → Edit t (t.set s c)
  | takeBack {s d : Slot} : t.next s = some d → (t.get s).mayRevoke (t.get d) = true →
      Edit t (t.takeBack s d)
  | restore {s : Slot} : t.get s ≠ .null →
      (∀ y, t.Before s y → (t.get s).mayRevoke (t.get y) = false) → Edit t (t.restore s)

/-- Every edit keeps the table lineal. -/
theorem Edit.lineal (he : t.Edit t') (h : t.Lineal) : t'.Lineal := by
  cases he with
  | move hs ht hc => exact h.relink hs ht hc (Capability.ne_null_of_outline hc.outline_eq hs)
  | delete => exact h.unlink _
  | derive ht hd => exact h.derive ht hd
  | reseat hs hc =>
    exact h.set hc.outline_eq (Capability.ne_null_of_outline hc.outline_eq hs)
      (hc.sound (h.sound _)) fun y hy => hc.precedes (h.precedes _ _ hy)
  | takeBack hn hr => exact h.takeBack hn hr
  | restore hs hr => exact h.restore hs hr

end Table
end SepKernel
