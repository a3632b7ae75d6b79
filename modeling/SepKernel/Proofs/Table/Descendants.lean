import SepKernel.Machine.Revocation
import SepKernel.Proofs.Table.Edit

/-!
# What a revocation vacates

A revocation goes through what follows a capability and stops at the first one that it does not
reach. In a lineal table nothing behind that is reached either, so that it vacates all it reaches.
Taking back the first leaves the others as they were.
-/

namespace SepKernel

/-- If whatever satisfies `p` comes first, then `takeWhile` takes all of it. -/
theorem takeWhile_eq_filter {α : Type} {p : α → Bool} {l : List α}
    (h : l.Pairwise fun x y => p y = true → p x = true) : l.takeWhile p = l.filter p := by
  induction l with
  | nil => rfl
  | cons a l ih =>
    obtain ⟨ha, hl⟩ := List.pairwise_cons.1 h
    by_cases hp : p a = true
    · rw [List.takeWhile_cons_of_pos hp, List.filter_cons_of_pos hp, ih hl]
    · rw [List.takeWhile_cons_of_neg hp, List.filter_cons_of_neg hp, List.filter_eq_nil_iff.2]
      exact fun y hy hpy => hp (ha y hy hpy)

namespace Table

variable {t : Table} {s x y d : Slot} {ds : List Slot}

/-- What follows a slot stands in the order of its line. -/
theorem Strung.pairwise_following (h : t.Strung) (x : Slot) :
    (t.following x).Pairwise t.Before := by
  have hp := h.path x
  generalize t.following x = l at hp
  induction hp with
  | last => exact .nil
  | @step x y l _ hl ih =>
    refine List.pairwise_cons.2 ⟨fun z hz => ?_, ih⟩
    unfold Before
    rwa [hl.following_eq]

/-- A revocation vacates all that it reaches. -/
theorem Lineal.descendants_eq (h : t.Lineal) (s : Slot) :
    t.descendants s = (t.following s).filter fun d => (t.get s).mayRevoke (t.get d) := by
  refine takeWhile_eq_filter (List.Pairwise.imp_of_mem ?_ (h.strung.pairwise_following s))
  intro y z hy _ hyz hr
  exact h.reaches_between s y z hy hyz hr

theorem Lineal.mem_descendants (h : t.Lineal) :
    d ∈ t.descendants s ↔ t.Before s d ∧ (t.get s).mayRevoke (t.get d) = true := by
  rw [h.descendants_eq, List.mem_filter]
  rfl

/-- The first of the descendants is the slot that comes next, and it can be revoked. -/
theorem Strung.cons_of_descendants (h : t.Strung) (hd : t.descendants s = d :: ds) :
    t.next s = some d ∧ (t.get s).mayRevoke (t.get d) = true := by
  -- the descendants begin right after the range, or there are none
  cases hn : t.next s with
  | none =>
    rw [descendants, following_of_next_none hn] at hd
    cases hd
  | some y =>
    rw [descendants, h.following_of_next hn, List.takeWhile_cons] at hd
    split at hd
    · next hr =>
      cases hd
      exact ⟨rfl, hr⟩
    · cases hd

/-! ## Taking back the first -/

theorem Strung.following_takeBack (h : t.Strung) (hx : x ≠ d) :
    (t.takeBack s d).following x = (t.following x).filter (· ≠ d) := by
  rw [Table.takeBack, following_set, h.following_unlink hx]

/-- Taking back keeps all outlines, other than that of the slot that is vacated. -/
theorem outline_takeBack (hx : x ≠ d) :
    ((t.takeBack s d).get x).outline = (t.get x).outline := by
  rw [get_takeBack]
  split
  · next he => rw [Capability.outline_afterReclaiming, he]
  · rw [if_neg hx.symm]

/-- Taking back the first of the slots to vacate leaves the others to be vacated. -/
theorem Lineal.descendants_takeBack (h : t.Lineal) (hd : t.descendants s = d :: ds) :
    (t.takeBack s d).descendants s = ds := by
  obtain ⟨hn, hr⟩ := h.strung.cons_of_descendants hd
  have hsd : s ≠ d := fun he => h.strung.next_ne_self s (by rw [hn, he])
  have hd' : d ∉ t.following d := h.strung.not_before_self d
  rw [h.descendants_eq, h.strung.following_of_next hn, List.filter_cons, if_pos hr] at hd
  rw [(h.takeBack hn hr).descendants_eq, h.strung.following_takeBack hsd,
    h.strung.following_of_next hn, List.filter_cons_of_neg (by simp), ← (List.cons.inj hd).2,
    List.filter_filter]
  apply List.filter_congr
  intro y hy
  -- the others keep their outlines, and so does the capability itself
  have hyd : y ≠ d := fun he => hd' (he ▸ hy)
  rw [Capability.mayRevoke_congr (outline_takeBack hsd) (outline_takeBack hyd)]
  simp [hyd]

end Table
end SepKernel
