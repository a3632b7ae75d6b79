import Mathlib.Data.Fintype.Card
import SepKernel.Proofs.Table.Entry

/-!
# Lines

The links of the table lead from every slot along a path to the end of its line. The path from a
slot is unique, so it never comes back, and the walk of `following` is long enough to see all of
it. One slot stands *before* another if the other is on its path.
-/

namespace SepKernel
namespace Table

variable {t : Table} {s x y z : Slot} {l l' a b : List Slot}

/-! ## Paths -/

/-- The slots on the way from a slot to the end of its line. -/
inductive Path (t : Table) : Slot → List Slot → Prop
  | last {x : Slot} : t.next x = none → Path t x []
  | step {x y : Slot} {l : List Slot} : t.next x = some y → Path t y l → Path t x (y :: l)

/-- Links are a function, so that a slot has one path. -/
theorem Path.unique (h : t.Path x l) (h' : t.Path x l') : l = l' := by
  -- at each slot the link says whether the path goes on, and where
  induction h generalizing l' with
  | last hn =>
    cases h' with
    | last => rfl
    | step hn' => rw [hn] at hn'; cases hn'
  | step hn _ ih =>
    cases h' with
    | last hn' => rw [hn] at hn'; cases hn'
    | step hn' hp =>
      rw [hn] at hn'
      cases hn'
      rw [ih hp]

/-- The rest of a path is a path. -/
theorem Path.suffix (h : t.Path x (a ++ y :: b)) : t.Path y b := by
  induction a generalizing x with
  | nil => cases h with | step _ hp => exact hp
  | cons z a ih => cases h with | step _ hp => exact ih hp

/-- A path does not come back to where it began, or it would be longer than itself. -/
theorem Path.not_mem (h : t.Path x l) : x ∉ l := by
  intro hx
  obtain ⟨a, b, rfl⟩ := List.append_of_mem hx
  have he := congrArg List.length (h.unique h.suffix)
  simp at he
  omega

/-- No slot comes twice on a path. -/
theorem Path.nodup (h : t.Path x l) : l.Nodup := by
  induction h with
  | last => exact List.nodup_nil
  | step _ hp ih => exact List.nodup_cons.2 ⟨hp.not_mem, ih⟩

/-- A list of slots without repetitions fits into the table. -/
theorem length_le_of_nodup (h : l.Nodup) : l.length ≤ 256 := by
  have hn : (l.map Slot.number).Nodup := h.map fun _ _ => Slot.number_inj.1
  simpa using hn.length_le_card

/-- With enough steps, a walk goes along the whole path. -/
theorem Path.walk_eq (h : t.Path x l) {n : Nat} (hn : l.length ≤ n) : t.walk n (t.next x) = l := by
  induction h generalizing n with
  | last hl => rw [hl]; cases n <;> rfl
  | step hs _ ih =>
    -- the path is not empty, so a step is left
    obtain ⟨n, rfl⟩ : ∃ k, n = k + 1 := ⟨n - 1, by simp at hn; omega⟩
    rw [hs, walk, ih (by simpa using hn)]

theorem Path.following_eq (h : t.Path x l) : t.following x = l :=
  h.walk_eq (length_le_of_nodup h.nodup)

theorem following_of_next_none (hn : t.next x = none) : t.following x = [] :=
  (Path.last hn).following_eq

/-! ## Tables whose lines are in order -/

/-- Links are answered, vacant slots have none, and every path comes to an end. -/
structure Strung (t : Table) : Prop where
  answered : ∀ x y, t.next x = some y ↔ t.previous y = some x
  vacant : ∀ x, t.get x = .null → t.next x = none ∧ t.previous x = none
  ends : ∀ x, ∃ l, t.Path x l

/-- Does one slot stand before another in a line? -/
def Before (t : Table) (x y : Slot) : Prop :=
  y ∈ t.following x

namespace Strung

theorem path (h : t.Strung) (x : Slot) : t.Path x (t.following x) := by
  obtain ⟨l, hl⟩ := h.ends x
  rwa [hl.following_eq]

/-- A link leads from an occupied slot to an occupied slot. -/
theorem occupied_of_next (h : t.Strung) (hn : t.next x = some y) :
    t.get x ≠ .null ∧ t.get y ≠ .null := by
  constructor
  · intro hx
    rw [(h.vacant x hx).1] at hn
    cases hn
  · intro hy
    rw [h.answered, (h.vacant y hy).2] at hn
    cases hn

/-! ### What follows a slot -/

theorem following_of_next (h : t.Strung) (hn : t.next x = some y) :
    t.following x = y :: t.following y :=
  (Path.step hn (h.path y)).following_eq

/-- What follows something in a line is the rest of the line. -/
theorem following_eq_suffix (h : t.Strung) (hs : t.following x = a ++ y :: b) :
    t.following y = b := by
  have hp := h.path x
  rw [hs] at hp
  exact hp.suffix.following_eq

/-! ### The order of a line -/

/-- To be before another slot is to be linked to it, or to one that is before it. -/
theorem before_iff (h : t.Strung) :
    t.Before x y ↔ ∃ z, t.next x = some z ∧ (y = z ∨ t.Before z y) := by
  unfold Before
  cases hn : t.next x with
  | none => simp [following_of_next_none hn]
  | some z => simp [h.following_of_next hn]

theorem before_of_next (h : t.Strung) (hn : t.next x = some y) : t.Before x y :=
  h.before_iff.2 ⟨y, hn, .inl rfl⟩

/-- Nothing stands between a slot and the next one. -/
theorem eq_or_before_of_next (h : t.Strung) (hn : t.next x = some y) (hz : t.Before x z) :
    z = y ∨ t.Before y z := by
  obtain ⟨w, hw, hz⟩ := h.before_iff.1 hz
  rw [hn] at hw
  cases hw
  exact hz

theorem not_before_self (h : t.Strung) (x : Slot) : ¬ t.Before x x :=
  (h.path x).not_mem

/-- What follows a slot is a beginning and what follows any slot in it. -/
theorem trans (h : t.Strung) (hxy : t.Before x y) (hyz : t.Before y z) : t.Before x z := by
  obtain ⟨a, b, hs⟩ := List.append_of_mem hxy
  unfold Before at *
  rw [h.following_eq_suffix hs] at hyz
  rw [hs]
  exact List.mem_append_right a (List.mem_cons_of_mem y hyz)

theorem asymm (h : t.Strung) (hxy : t.Before x y) : ¬ t.Before y x :=
  fun hyx => h.not_before_self x (h.trans hxy hyx)

/-- All slots on a path are occupied, as links lead there. -/
theorem occupied_right (h : t.Strung) (hxy : t.Before x y) : t.get y ≠ .null := by
  suffices ∀ l, t.Path x l → y ∈ l → t.get y ≠ .null from this _ (h.path x) hxy
  intro l hl hy
  clear hxy
  induction hl with
  | last => cases hy
  | step hn _ ih =>
    rcases List.mem_cons.1 hy with rfl | hy
    · exact (h.occupied_of_next hn).2
    · exact ih hy

theorem occupied_left (h : t.Strung) (hxy : t.Before x y) : t.get x ≠ .null := by
  obtain ⟨z, hn, _⟩ := h.before_iff.1 hxy
  exact (h.occupied_of_next hn).1

/-- The test for consistency passes. -/
theorem isConsistent (h : t.Strung) : t.isConsistent = true := by
  rw [isConsistent_iff]
  intro s
  rw [isConsistentAt]
  split
  · next hs => -- a vacant slot has no links
    obtain ⟨hn, hp⟩ := h.vacant s ((Capability.isNull_iff _).1 hs)
    rw [hn, hp]
    rfl
  · rw [Bool.and_eq_true, Option.all_eq_true, Option.all_eq_true]
    constructor
    · intro x hx
      rw [beq_iff_eq, h.answered]
      exact hx
    · intro x hx
      rw [beq_iff_eq, ← h.answered]
      exact hx

end Strung
end Table
end SepKernel
