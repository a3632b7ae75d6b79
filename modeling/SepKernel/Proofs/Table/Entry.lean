import SepKernel.Table.Basic

/-!
# Entries after an operation

What each operation on the capability table does to the capability and the two links of every slot.
The operations are written as several single-entry writes; here each is one equation.
-/

namespace SepKernel
namespace Table

variable {t : Table} {s u p source target : Slot} {c : Capability}

/-! ## Single writes -/

/-- A write to the link of a neighbour, which may not exist. -/
theorem entry_linkNext (t : Table) (o n : Option Slot) (u : Slot) :
    (t.linkNext o n).entry u =
      { t.entry u with next := if o = some u then n else (t.entry u).next } := by
  cases o with
  | none => rfl
  | some v =>
    simp only [linkNext, entry_put, Option.some.injEq]
    split
    · next h => rw [h]
    · rfl

/-- Only one entry is linked anew, and only if there is one. -/
theorem entry_linkPrevious (t : Table) (o n : Option Slot) (u : Slot) :
    (t.linkPrevious o n).entry u =
      { t.entry u with previous := if o = some u then n else (t.entry u).previous } := by
  cases o with
  | none => rfl
  | some v =>
    simp only [linkPrevious, entry_put, Option.some.injEq]
    split
    · next h => rw [h]
    · rfl

/-! ## Replacing a capability -/

theorem get_set (t : Table) (s u : Slot) (c : Capability) :
    (t.set s c).get u = if s = u then c else t.get u := by
  simp only [get, set, entry_put]
  split <;> rfl

@[simp] theorem get_set_self (t : Table) (s : Slot) (c : Capability) : (t.set s c).get s = c := by
  simp [get_set]

theorem get_set_of_ne (t : Table) (c : Capability) (h : s ≠ u) :
    (t.set s c).get u = t.get u := by
  simp [get_set, h]

/-- Writing what is there changes nothing. -/
@[simp] theorem set_get (t : Table) (s : Slot) : t.set s (t.get s) = t := by
  ext u : 1
  rw [set, entry_put]
  split
  · next h => rw [← h]; rfl
  · rfl

@[simp] theorem next_set (t : Table) (s u : Slot) (c : Capability) :
    (t.set s c).next u = t.next u := by
  simp only [next, set, entry_put]
  split
  · next h => rw [h]
  · rfl

@[simp] theorem previous_set (t : Table) (s u : Slot) (c : Capability) :
    (t.set s c).previous u = t.previous u := by
  simp only [previous, set, entry_put]
  split
  · next h => rw [h]
  · rfl

/-! ## Beginning a line -/

theorem entry_insertRoot (t : Table) (s u : Slot) (c : Capability) :
    (t.insertRoot s c).entry u = if s = u then ⟨c, none, none⟩ else t.entry u :=
  entry_put t s u _

/-! ## Closing a gap -/

/-- The slot is vacant afterwards, and its two neighbours, if it had them, point at each other. -/
theorem entry_unlink (t : Table) (s u : Slot) :
    (t.unlink s).entry u =
      if s = u then .vacant
      else
        { capability := t.get u
          previous := if t.next s = some u then t.previous s else t.previous u
          next := if t.previous s = some u then t.next s else t.next u } := by
  simp only [unlink, entry_put, entry_linkPrevious, entry_linkNext, get, next, previous]
  split
  · rfl
  · rfl

theorem get_unlink (t : Table) (s u : Slot) :
    (t.unlink s).get u = if s = u then .null else t.get u := by
  rw [get, entry_unlink]
  split <;> rfl

theorem next_unlink (h : s ≠ u) :
    (t.unlink s).next u = if t.previous s = some u then t.next s else t.next u := by
  rw [next, entry_unlink, if_neg h]

theorem previous_unlink (h : s ≠ u) :
    (t.unlink s).previous u = if t.next s = some u then t.previous s else t.previous u := by
  rw [previous, entry_unlink, if_neg h]

/-! ## Putting a child after its parent -/

/-- The child points at its parent and at what came next. If nothing linked the two slots before, no
write is lost to another. -/
theorem entry_insertAfter (t : Table) (c : Capability) (u : Slot) (hp : p ≠ s)
    (hn : t.next p ≠ some s) :
    (t.insertAfter p s c).entry u =
      if s = u then ⟨c, some p, t.next p⟩
      else
        { capability := t.get u
          previous := if t.next p = some u then some s else t.previous u
          next := if p = u then some s else t.next u } := by
  simp only [insertAfter, entry_put, entry_linkPrevious, entry_linkNext, get, next, previous,
    Option.some.injEq] at *
  split
  · next h => subst h; rw [if_neg hp, if_neg hn]
  · rfl

theorem get_insertAfter (t : Table) (c : Capability) (u : Slot) (hp : p ≠ s)
    (hn : t.next p ≠ some s) :
    (t.insertAfter p s c).get u = if s = u then c else t.get u := by
  rw [get, entry_insertAfter t c u hp hn]
  split <;> rfl

/-! ## Moving a capability -/

/-- The target has the links of the source, and the neighbours of the source point at the target.
The two slots must not be linked, or a write to one would be lost to the move of the other. -/
theorem entry_relink (t : Table) (c : Capability) (u : Slot)
    (hp : t.previous source ≠ some target) (hn : t.next source ≠ some target) :
    (t.relink source target c).entry u =
      if source = u then .vacant
      else if target = u then ⟨c, t.previous source, t.next source⟩
      else
        { capability := t.get u
          previous := if t.next source = some u then some target else t.previous u
          next := if t.previous source = some u then some target else t.next u } := by
  simp only [relink, entry_put, entry_linkPrevious, entry_linkNext, get, next, previous] at *
  split
  · rfl
  · split
    · next hu => subst hu; rw [if_neg hp, if_neg hn]
    · rfl

/-- A move changes the contents of two slots only. -/
theorem get_relink (t : Table) (c : Capability) (u : Slot)
    (hp : t.previous source ≠ some target) (hn : t.next source ≠ some target) :
    (t.relink source target c).get u =
      if source = u then .null else if target = u then c else t.get u := by
  rw [get, entry_relink t c u hp hn]
  split
  · rfl
  · split <;> rfl

end Table
end SepKernel
