import Mathlib.Logic.Equiv.Basic
import SepKernel.Proofs.Table.Line

/-!
# Operations and the order of lines

Every operation on the table leaves the lines in order, and changes who stands before whom in one
way: a new line relates to nothing, closing a gap forgets one slot, a move exchanges two slots, and
a child comes directly after its parent.
-/

namespace SepKernel
namespace Table

variable {t t' : Table} {s x y z w p source target : Slot} {l : List Slot} {c : Capability}

/-! ## The same links -/

/-- A walk only looks at links that lead on. -/
theorem walk_congr (h : ∀ x, t'.next x = t.next x) (n : Nat) (o : Option Slot) :
    t'.walk n o = t.walk n o := by
  induction n generalizing o with
  | zero => rfl
  | succ n ih =>
    cases o with
    | none => rfl
    | some x => rw [walk, walk, h, ih]

theorem following_congr (h : ∀ x, t'.next x = t.next x) (x : Slot) :
    t'.following x = t.following x := by
  rw [following, following, h, walk_congr h]

/-- Only the links to what comes next matter. -/
theorem Path.congr (h : ∀ x, t'.next x = t.next x) (hp : t.Path x l) : t'.Path x l := by
  induction hp with
  | last hn => exact .last (by rw [h, hn])
  | step hn _ ih => exact .step (by rw [h, hn]) ih

/-- Tables with the same links are in order together, as long as no link leads to a vacant slot. -/
theorem Strung.congr (h : t.Strung) (hn : ∀ x, t'.next x = t.next x)
    (hp : ∀ x, t'.previous x = t.previous x) (hg : ∀ x, t'.get x = .null → t.get x = .null) :
    t'.Strung where
  answered x y := by rw [hn, hp]; exact h.answered x y
  vacant x hx := by rw [hn, hp]; exact h.vacant x (hg x hx)
  ends x := ⟨_, (h.path x).congr hn⟩

/-! ## Replacing a capability -/

@[simp] theorem following_set (t : Table) (s x : Slot) (c : Capability) :
    (t.set s c).following x = t.following x :=
  following_congr (fun u => next_set t s u c) x

@[simp] theorem before_set : (t.set s c).Before x y ↔ t.Before x y := by
  unfold Before
  rw [following_set]

/-- No link changes, and no slot becomes vacant. -/
theorem Strung.set (h : t.Strung) (hc : c ≠ .null) : (t.set s c).Strung := by
  refine h.congr (fun x => next_set t s x c) (fun x => previous_set t s x c) ?_
  intro x hx
  rw [get_set] at hx
  split at hx
  · exact absurd hx hc
  · exact hx

/-! ## Beginning a line -/

theorem get_insertRoot (t : Table) (s x : Slot) (c : Capability) :
    (t.insertRoot s c).get x = if s = x then c else t.get x := by
  rw [get, entry_insertRoot]
  split <;> rfl

/-- A vacant slot has no links already. -/
theorem Strung.links_insertRoot (h : t.Strung) (hs : t.get s = .null) (c : Capability) (x : Slot) :
    (t.insertRoot s c).next x = t.next x ∧ (t.insertRoot s c).previous x = t.previous x := by
  rw [next, previous, entry_insertRoot]
  split
  · next hx =>
    rw [← hx, (h.vacant s hs).1, (h.vacant s hs).2]
    exact ⟨rfl, rfl⟩
  · exact ⟨rfl, rfl⟩

theorem Strung.before_insertRoot (h : t.Strung) (hs : t.get s = .null) :
    (t.insertRoot s c).Before x y ↔ t.Before x y := by
  unfold Before
  rw [following_congr fun u => (h.links_insertRoot hs c u).1]

/-! ## Closing a gap -/

theorem Strung.next_ne_self (h : t.Strung) (x : Slot) : t.next x ≠ some x :=
  fun hn => h.not_before_self x (h.before_of_next hn)

/-- Whoever pointed at the vacated slot points at the one after it. -/
theorem Strung.next_unlink (h : t.Strung) (hx : x ≠ s) :
    (t.unlink s).next x = if t.next x = some s then t.next s else t.next x := by
  rw [Table.next_unlink hx.symm]
  exact if_congr (h.answered x s).symm rfl rfl

theorem Strung.previous_unlink (h : t.Strung) (hx : x ≠ s) :
    (t.unlink s).previous x = if t.previous x = some s then t.previous s else t.previous x := by
  rw [Table.previous_unlink hx.symm]
  exact if_congr (h.answered s x) rfl rfl

theorem links_unlink_self (t : Table) (s : Slot) :
    (t.unlink s).next s = none ∧ (t.unlink s).previous s = none := by
  rw [next, previous, entry_unlink, if_pos rfl]
  exact ⟨rfl, rfl⟩

/-- The path of a slot, seen from a slot `w` that takes its place in the new table: the induction
is on the old path, which skips the vacated slot without a step of the new one. -/
theorem Strung.path_unlink_aux (h : t.Strung) (hp : t.Path x l) (hw : w ≠ s)
    (hn : (t.unlink s).next w = if t.next x = some s then t.next s else t.next x) :
    (t.unlink s).Path w (l.filter (· ≠ s)) := by
  induction hp generalizing w with
  | last hx =>
    rw [hx, if_neg (by simp)] at hn
    exact .last hn
  | @step x y l hx hp ih =>
    rw [hx] at hn
    -- at the vacated slot the old path makes a step, and the new one makes none
    by_cases hy : y = s
    · subst hy
      rw [List.filter_cons_of_neg (by simp)]
      apply ih hw
      rw [if_neg (h.next_ne_self y), hn, if_pos rfl]
    · rw [if_neg (by simpa using hy)] at hn
      rw [List.filter_cons_of_pos (by simpa using hy)]
      exact .step hn (ih hy (h.next_unlink hy))

/-- The path of every other slot goes on without the vacated one. -/
theorem Strung.path_unlink (h : t.Strung) (hx : x ≠ s) :
    (t.unlink s).Path x ((t.following x).filter (· ≠ s)) :=
  h.path_unlink_aux (h.path x) hx (h.next_unlink hx)

theorem Strung.following_unlink (h : t.Strung) (hx : x ≠ s) :
    (t.unlink s).following x = (t.following x).filter (· ≠ s) :=
  (h.path_unlink hx).following_eq

/-- The order of the other slots stays when a slot is vacated. -/
theorem Strung.before_unlink (h : t.Strung) :
    (t.unlink s).Before x y ↔ t.Before x y ∧ x ≠ s ∧ y ≠ s := by
  unfold Before
  by_cases hx : x = s
  · subst hx
    simp [following_of_next_none (links_unlink_self t x).1]
  · rw [h.following_unlink hx]
    simp [hx]

/-- Vacating a slot leaves the lines in order: its neighbours are linked to each other. -/
theorem Strung.unlink (h : t.Strung) (s : Slot) : (t.unlink s).Strung where
  -- each of the two may be the vacated slot, and its neighbours answer each other now
  answered x y := by
    by_cases hx : x = s
    · subst hx
      rw [(links_unlink_self t x).1]
      by_cases hy : y = x
      · simp [hy, (links_unlink_self t x).2]
      · rw [h.previous_unlink hy]
        have := h.answered x y
        have := h.answered x x
        have := h.next_ne_self x
        grind
    · by_cases hy : y = s
      · subst hy
        rw [(links_unlink_self t y).2, h.next_unlink hx]
        have := h.answered x y
        have := h.next_ne_self y
        grind
      · rw [h.next_unlink hx, h.previous_unlink hy]
        have := h.answered x y
        have := h.answered x s
        have := h.answered s y
        grind
  vacant x hx := by
    by_cases hs : x = s
    · exact hs ▸ links_unlink_self t s
    · rw [get_unlink, if_neg (Ne.symm hs)] at hx
      obtain ⟨hn, hp⟩ := h.vacant x hx
      rw [h.next_unlink hs, h.previous_unlink hs, hn, hp]
      simp
  ends x := by
    by_cases hx : x = s
    · exact ⟨[], .last (hx ▸ (links_unlink_self t s).1)⟩
    · exact ⟨_, h.path_unlink hx⟩

/-! ## Moving a capability -/

/-- No link leads to a vacant slot. -/
theorem Strung.next_ne_vacant (h : t.Strung) (ht : t.get target = .null) (x : Slot) :
    t.next x ≠ some target :=
  fun hn => (h.occupied_of_next hn).2 ht

theorem Strung.previous_ne_vacant (h : t.Strung) (ht : t.get target = .null) (x : Slot) :
    t.previous x ≠ some target :=
  fun hp => (h.occupied_of_next ((h.answered _ _).2 hp)).1 ht

theorem ne_of_vacant (hs : t.get source ≠ .null) (ht : t.get target = .null) :
    source ≠ target := by
  rintro rfl
  exact hs ht

theorem Strung.get_relink (h : t.Strung) (ht : t.get target = .null) (c : Capability) (x : Slot) :
    (t.relink source target c).get x =
      if source = x then .null else if target = x then c else t.get x :=
  Table.get_relink t c x (h.previous_ne_vacant ht source) (h.next_ne_vacant ht source)

/-- A move that does not change its capability exchanges two slots. -/
theorem Strung.get_relink_self (h : t.Strung) (ht : t.get target = .null) (x : Slot) :
    (t.relink source target (t.get source)).get x = t.get (Equiv.swap source target x) := by
  rw [h.get_relink ht]
  by_cases hxs : source = x
  · rw [if_pos hxs, ← hxs, Equiv.swap_apply_left, ht]
  · by_cases hxt : target = x
    · rw [if_neg hxs, if_pos hxt, ← hxt, Equiv.swap_apply_right]
    · rw [if_neg hxs, if_neg hxt, Equiv.swap_apply_of_ne_of_ne (Ne.symm hxs) (Ne.symm hxt)]

/-- A link that does not lead to the vacant slot, after the two slots are exchanged. -/
theorem map_swap {o : Option Slot} (ho : o ≠ some target) :
    o.map (Equiv.swap source target) = if o = some source then some target else o := by
  cases o with
  | none => simp
  | some y =>
    by_cases hy : y = source
    · simp [hy]
    · have hyt : y ≠ target := fun he => ho (by rw [he])
      simp [Equiv.swap_apply_of_ne_of_ne hy hyt, hy]

section Relink
variable (h : t.Strung) (hs : t.get source ≠ .null) (ht : t.get target = .null)
include h hs ht

/-- A move exchanges the two slots. -/
theorem Strung.links_relink (c : Capability) (x : Slot) :
    (t.relink source target c).next (Equiv.swap source target x) =
        (t.next x).map (Equiv.swap source target) ∧
      (t.relink source target c).previous (Equiv.swap source target x) =
        (t.previous x).map (Equiv.swap source target) := by
  have hst : source ≠ target := ne_of_vacant hs ht
  have he := fun u => entry_relink t c u (h.previous_ne_vacant ht source)
    (h.next_ne_vacant ht source)
  rw [map_swap (h.next_ne_vacant ht x), map_swap (h.previous_ne_vacant ht x), next, previous]
  by_cases hx : x = source
  · subst hx
    rw [Equiv.swap_apply_left, he, if_neg hst, if_pos rfl, if_neg (h.next_ne_self x)]
    have hp : t.previous x ≠ some x := fun hp => h.next_ne_self x ((h.answered x x).2 hp)
    rw [if_neg hp]
    exact ⟨rfl, rfl⟩
  · by_cases hxt : x = target
    · subst hxt
      rw [Equiv.swap_apply_right, he, if_pos rfl, (h.vacant x ht).1, (h.vacant x ht).2]
      exact ⟨rfl, rfl⟩
    · -- elsewhere only the neighbours of the source change, and those know that they are
      rw [Equiv.swap_apply_of_ne_of_ne hx hxt, he, if_neg (Ne.symm hx), if_neg (Ne.symm hxt)]
      exact ⟨if_congr (h.answered x source).symm rfl rfl, if_congr (h.answered source x) rfl rfl⟩

/-- The path of the exchanged slot is the exchanged path. -/
theorem Strung.path_relink (c : Capability) (hp : t.Path x l) :
    (t.relink source target c).Path (Equiv.swap source target x)
      (l.map (Equiv.swap source target)) := by
  induction hp with
  | last hn => exact .last (by rw [(h.links_relink hs ht c _).1, hn]; rfl)
  | step hn _ ih => exact .step (by rw [(h.links_relink hs ht c _).1, hn]; rfl) ih

/-- After a move the line is the same, with the two slots exchanged. -/
theorem Strung.following_relink (c : Capability) (x : Slot) :
    (t.relink source target c).following x =
      (t.following (Equiv.swap source target x)).map (Equiv.swap source target) := by
  have hp := h.path_relink hs ht c (h.path (Equiv.swap source target x))
  rw [Equiv.swap_apply_self] at hp
  exact hp.following_eq

/-- After a move, one slot is before another if the exchanged ones were so before. -/
theorem Strung.before_relink (c : Capability) :
    (t.relink source target c).Before x y ↔
      t.Before (Equiv.swap source target x) (Equiv.swap source target y) := by
  unfold Before
  rw [h.following_relink hs ht c, List.mem_map]
  constructor
  · rintro ⟨z, hz, rfl⟩
    rwa [Equiv.swap_apply_self]
  · intro hy
    exact ⟨_, hy, Equiv.swap_apply_self ..⟩

/-- A move leaves the lines in order, since it exchanges an occupied slot with a vacant one. -/
theorem Strung.relink (hc : c ≠ .null) : (t.relink source target c).Strung where
  answered x y := by
    obtain ⟨x, rfl⟩ := (Equiv.swap source target).surjective x
    obtain ⟨y, rfl⟩ := (Equiv.swap source target).surjective y
    rw [(h.links_relink hs ht c x).1, (h.links_relink hs ht c y).2, Option.map_eq_some_iff,
      Option.map_eq_some_iff]
    simp only [EmbeddingLike.apply_eq_iff_eq, exists_eq_right]
    exact h.answered x y
  vacant x hx := by
    rw [h.get_relink ht] at hx
    obtain ⟨x, rfl⟩ := (Equiv.swap source target).surjective x
    rw [(h.links_relink hs ht c x).1, (h.links_relink hs ht c x).2]
    -- the exchanged slot was vacant before
    have hv : t.get x = .null := by
      by_cases hxs : x = source
      · subst hxs
        rw [Equiv.swap_apply_left, if_neg (ne_of_vacant hs ht), if_pos rfl] at hx
        exact absurd hx hc
      · by_cases hxt : x = target
        · exact hxt ▸ ht
        · rwa [Equiv.swap_apply_of_ne_of_ne hxs hxt, if_neg (Ne.symm hxs),
            if_neg (Ne.symm hxt)] at hx
    rw [(h.vacant x hv).1, (h.vacant x hv).2]
    exact ⟨rfl, rfl⟩
  ends x := by
    obtain ⟨x, rfl⟩ := (Equiv.swap source target).surjective x
    exact ⟨_, h.path_relink hs ht c (h.path x)⟩

end Relink

/-! ## Putting a child after its parent -/

section InsertAfter
variable (h : t.Strung) (hp : t.get p ≠ .null) (hs : t.get s = .null)
include h hp hs

/-- In tables in order, the conditions that `entry_insertAfter` needs hold of every vacant slot. -/
theorem Strung.entry_insertAfter (c : Capability) (x : Slot) :
    (t.insertAfter p s c).entry x =
      if s = x then ⟨c, some p, t.next p⟩
      else
        { capability := t.get x
          previous := if t.next p = some x then some s else t.previous x
          next := if p = x then some s else t.next x } :=
  Table.entry_insertAfter t c x (ne_of_vacant hp hs) (h.next_ne_vacant hs p)

theorem Strung.get_insertAfter (c : Capability) (x : Slot) :
    (t.insertAfter p s c).get x = if s = x then c else t.get x :=
  Table.get_insertAfter t c x (ne_of_vacant hp hs) (h.next_ne_vacant hs p)

theorem Strung.next_insertAfter (c : Capability) (x : Slot) :
    (t.insertAfter p s c).next x =
      if s = x then t.next p else if p = x then some s else t.next x := by
  rw [next, h.entry_insertAfter hp hs]
  split <;> rfl

theorem Strung.previous_insertAfter (c : Capability) (x : Slot) :
    (t.insertAfter p s c).previous x =
      if s = x then some p else if t.next p = some x then some s else t.previous x := by
  rw [previous, h.entry_insertAfter hp hs]
  split <;> rfl

/-- The path of an old slot gains the child where it passes, or begins at, the parent. -/
theorem Strung.path_insertAfter_aux (c : Capability) (hx : x ≠ s) (hl : t.Path x l) :
    ∃ l', (t.insertAfter p s c).Path x l' ∧
      ∀ y, y ∈ l' ↔ y ∈ l ∨ y = s ∧ (x = p ∨ p ∈ l) := by
  induction hl with
  | @last x hn =>
    by_cases hxp : x = p
    · subst hxp
      refine ⟨[s], .step ?_ (.last ?_), by simp⟩
      · rw [h.next_insertAfter hp hs, if_neg hx.symm, if_pos rfl]
      · rw [h.next_insertAfter hp hs, if_pos rfl, hn]
    · refine ⟨[], .last ?_, by simp [hxp]⟩
      rw [h.next_insertAfter hp hs, if_neg hx.symm, if_neg (Ne.symm hxp), hn]
  | @step x y l hn hl ih =>
    have hy : y ≠ s := ne_of_vacant (h.occupied_of_next hn).2 hs
    obtain ⟨l', hl', hm⟩ := ih hy
    by_cases hxp : x = p
    · -- the path passes the parent here, and does not come back to it
      subst hxp
      have hx' : x ∉ y :: l := (Path.step hn hl).not_mem
      simp only [List.mem_cons, not_or] at hx'
      refine ⟨s :: y :: l', .step ?_ (.step ?_ hl'), ?_⟩
      · rw [h.next_insertAfter hp hs, if_neg hx.symm, if_pos rfl]
      · rw [h.next_insertAfter hp hs, if_pos rfl, hn]
      · intro z
        simp only [List.mem_cons, hm, Ne.symm hx'.1, hx'.2]
        tauto
    · refine ⟨y :: l', .step ?_ hl', ?_⟩
      · rw [h.next_insertAfter hp hs, if_neg hx.symm, if_neg (Ne.symm hxp), hn]
      · intro z
        simp only [List.mem_cons, hm, hxp, @eq_comm _ p]
        tauto

/-- The path of the child is the rest of the path of its parent. -/
theorem Strung.path_insertAfter_child (c : Capability) :
    ∃ l, (t.insertAfter p s c).Path s l ∧ ∀ y, y ∈ l ↔ t.Before p y := by
  have hps := ne_of_vacant hp hs
  obtain ⟨l, hl, hm⟩ := h.path_insertAfter_aux hp hs c hps (h.path p)
  have hn : (t.insertAfter p s c).next p = some s := by
    rw [h.next_insertAfter hp hs, if_neg hps.symm, if_pos rfl]
  -- the path goes on from the parent to the child
  cases hl with
  | last hn' => rw [hn] at hn'; cases hn'
  | @step _ _ l hn' hl =>
    rw [hn] at hn'
    cases hn'
    refine ⟨l, hl, ?_⟩
    intro y
    have hy : y ∈ s :: l ↔ t.Before p y ∨ y = s := by simpa [Before] using hm y
    constructor
    · intro hyl
      rcases hy.1 (List.mem_cons_of_mem s hyl) with hb | rfl
      · exact hb
      · exact absurd hyl hl.not_mem
    · intro hb
      rcases List.mem_cons.1 (hy.2 (.inl hb)) with rfl | hyl
      · exact absurd hs (h.occupied_right hb)
      · exact hyl

/-- The parent comes before the child, whoever came before the parent does too, and the child comes
before whatever the parent came before. -/
theorem Strung.before_insertAfter (c : Capability) :
    (t.insertAfter p s c).Before x y ↔
      t.Before x y ∨ y = s ∧ (x = p ∨ t.Before x p) ∨ x = s ∧ t.Before p y := by
  -- what follows the new slot is what followed the one before it
  by_cases hx : x = s
  · subst hx
    obtain ⟨l, hl, hm⟩ := h.path_insertAfter_child hp hs c
    rw [Before, hl.following_eq, hm]
    constructor
    · intro hb
      exact .inr (.inr ⟨rfl, hb⟩)
    · rintro (hb | ⟨_, he | hb⟩ | ⟨_, hb⟩)
      · exact absurd hs (h.occupied_left hb)
      · exact absurd he.symm (ne_of_vacant hp hs)
      · exact absurd hs (h.occupied_left hb)
      · exact hb
  · obtain ⟨l, hl, hm⟩ := h.path_insertAfter_aux hp hs c hx (h.path x)
    unfold Before
    rw [hl.following_eq, hm]
    simp [hx]

/-- Putting a child after its parent leaves the lines in order. -/
theorem Strung.insertAfter (hc : c ≠ .null) : (t.insertAfter p s c).Strung where
  answered x y := by
    -- links change between the parent, the child and what followed the parent
    rw [h.next_insertAfter hp hs, h.previous_insertAfter hp hs]
    have := h.answered x y
    have := h.answered p y
    have := h.answered p x
    have := h.next_ne_vacant hs x
    have := h.previous_ne_vacant hs y
    have := h.vacant s hs
    have := ne_of_vacant hp hs
    grind
  vacant x hx := by
    rw [h.get_insertAfter hp hs] at hx
    split at hx
    · exact absurd hx hc
    · next hsx =>
      obtain ⟨hn, hv⟩ := h.vacant x hx
      rw [h.next_insertAfter hp hs, h.previous_insertAfter hp hs, if_neg hsx, if_neg hsx,
        if_neg (ne_of_vacant hp hx), if_neg (h.next_ne_vacant hx p)]
      exact ⟨hn, hv⟩
  ends x := by
    by_cases hx : x = s
    · obtain ⟨l, hl, _⟩ := h.path_insertAfter_child hp hs c
      exact ⟨l, hx ▸ hl⟩
    · obtain ⟨l, hl, _⟩ := h.path_insertAfter_aux hp hs c hx (h.path x)
      exact ⟨l, hl⟩

end InsertAfter

end Table
end SepKernel
