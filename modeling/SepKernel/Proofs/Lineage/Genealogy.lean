import Mathlib.Logic.Equiv.Basic
import Mathlib.Logic.Relation
import SepKernel.Machine.Basic

/-!
# Genealogy

The journal tells where every capability came from. An *instance* of a capability comes into being
at boot or by derivation, keeps its identity while it is moved, sent or loaded, and ends when it is
deleted or revoked. The genealogy knows the parent of every instance that ever was, and which slot
holds which of those that still are.
-/

namespace SepKernel

/-- The instances so far, which are numbered in the order of their births. -/
structure Genealogy where
  count : Nat
  /-- What an instance was derived from; none for one that was given out at boot. -/
  parent : Nat → Option Nat
  /-- The instance that a slot holds. -/
  holder : Slot → Option Nat

namespace Genealogy

def empty : Genealogy := ⟨0, fun _ => none, fun _ => none⟩

def bear (g : Genealogy) (s : Slot) (parent : Option Nat) : Genealogy where
  count := g.count + 1
  parent := Function.update g.parent g.count parent
  holder := Function.update g.holder s (some g.count)

def move (g : Genealogy) (source target : Slot) : Genealogy :=
  { g with
    holder := Function.update (Function.update g.holder target (g.holder source)) source none }

def drop (g : Genealogy) (s : Slot) : Genealogy :=
  { g with holder := Function.update g.holder s none }

def after (g : Genealogy) : Event → Genealogy
  | .booted i _ =>
    match Slot.of? 0 i with
    | some s => g.bear s none
    | none => g
  | .derived source target _ => g.bear target (g.holder source)
  | .moved source target _ => g.move source target
  | .deleted s _ | .revoked _ s _ => g.drop s
  | _ => g

/-- Was an instance obtained from another by one or more derivations? -/
def Descends (g : Genealogy) : Nat → Nat → Prop :=
  Relation.TransGen fun i j => g.parent i = some j

/-- Does an instance still exist? -/
def Live (g : Genealogy) (i : Nat) : Prop :=
  ∃ s, g.holder s = some i

/-! ## Well-formed genealogies -/

/-- Parents are older than their children, and no instance is in two slots. -/
structure WellFormed (g : Genealogy) : Prop where
  older : ∀ {i j}, g.parent i = some j → j < i ∧ i < g.count
  known : ∀ {s i}, g.holder s = some i → i < g.count
  apart : ∀ {s t i}, g.holder s = some i → g.holder t = some i → s = t

variable {g : Genealogy} {s source target x : Slot} {i j : Nat} {parent : Option Nat}

/-- At the beginning nothing has been born. -/
theorem wellFormed_empty : empty.WellFormed where
  older hp := by cases hp
  known hx := by cases hx
  apart hx := by cases hx

/-- An instance is younger than all that it descends from. -/
theorem WellFormed.lt_of_descends (h : g.WellFormed) (hd : g.Descends i j) :
    j < i ∧ i < g.count := by
  induction hd with
  | single hp => exact h.older hp
  | tail _ hp ih => exact ⟨Nat.lt_trans (h.older hp).1 ih.1, ih.2⟩

/-! ## Births -/

/-- Roots go to process 0. -/
theorem after_booted (g : Genealogy) (i : SlotIndex) (c : Capability) :
    g.after (.booted i c) = g.bear ⟨0, i⟩ none := by
  have hslot : Slot.of? 0 i = some ⟨0, i⟩ := by simp [Slot.of?, index?]
  rw [after, hslot]

/-- After a birth the newborn is in its slot, with the next number, and all others are where they
were. -/
theorem holder_bear (g : Genealogy) (s : Slot) (parent : Option Nat) (x : Slot) :
    (g.bear s parent).holder x = if x = s then some g.count else g.holder x :=
  Function.update_apply ..

theorem parent_bear (g : Genealogy) (s : Slot) (parent : Option Nat) (i : Nat) :
    (g.bear s parent).parent i = if i = g.count then parent else g.parent i :=
  Function.update_apply ..

/-- A birth leaves a genealogy well-formed if the parent was born before. -/
theorem WellFormed.bear (h : g.WellFormed) (s : Slot)
    (hp : ∀ j, parent = some j → j < g.count) : (g.bear s parent).WellFormed := by
  constructor
  case older =>
    intro i j hij
    show j < i ∧ i < g.count + 1
    rw [parent_bear] at hij
    split at hij
    · have := hp j hij
      omega
    · have := h.older hij
      omega
  case known =>
    intro x i hx
    show i < g.count + 1
    rw [holder_bear] at hx
    split at hx
    · cases hx
      omega
    · have := h.known hx
      omega
  case apart =>
    -- the number of the newborn is that of no instance before it
    intro x y i hx hy
    rw [holder_bear] at hx hy
    split at hx
    · next hxs =>
      cases hx
      split at hy
      · next hys => exact hxs.trans hys.symm
      · exact absurd (h.known hy) (Nat.lt_irrefl _)
    · split at hy
      · cases hy
        exact absurd (h.known hx) (Nat.lt_irrefl _)
      · exact h.apart hx hy

/-- A new instance descends from its parent and from what that descends from. -/
theorem WellFormed.descends_bear (h : g.WellFormed) (s : Slot)
    (hp : ∀ j, parent = some j → j < g.count) :
    (g.bear s parent).Descends i j ↔
      g.Descends i j ∨ i = g.count ∧ ∃ q, parent = some q ∧ (q = j ∨ g.Descends q j) := by
  have hold : ∀ {a b}, g.parent a = some b → (g.bear s parent).parent a = some b := by
    intro a b hab
    rwa [parent_bear, if_neg (Nat.ne_of_lt (h.older hab).2)]
  have hmono : ∀ {a b}, g.Descends a b → (g.bear s parent).Descends a b :=
    fun hab => Relation.TransGen.mono (fun _ _ => hold) _ _ hab
  constructor
  · intro hd
    -- the first step is the only one that can start at the newborn
    induction hd using Relation.TransGen.head_induction_on with
    | single ha =>
      rw [parent_bear] at ha
      split at ha
      · next he => exact .inr ⟨he, j, ha, .inl rfl⟩
      · exact .inl (.single ha)
    | @head a b hab _ ih =>
      -- a parent is no newborn, so the rest of the way is old
      have hb : b ≠ g.count → g.Descends b j := fun hb => ih.resolve_right fun hr => hb hr.1
      rw [parent_bear] at hab
      split at hab
      · next he => exact .inr ⟨he, b, hab, .inr (hb (Nat.ne_of_lt (hp b hab)))⟩
      · have hlt := h.older hab
        exact .inl (.head hab (hb (by omega)))
  · rintro (hd | ⟨rfl, q, hq, rfl | hd⟩)
    · exact hmono hd
    · exact .single (by rw [parent_bear, if_pos rfl, hq])
    · exact .head (by rw [parent_bear, if_pos rfl, hq]) (hmono hd)

/-! ## Moves and ends -/

/-- After a move, every slot holds what the exchanged slot held. -/
theorem holder_move (ht : g.holder target = none) (x : Slot) :
    (g.move source target).holder x = g.holder (Equiv.swap source target x) := by
  show Function.update (Function.update g.holder target (g.holder source)) source none x = _
  rw [Function.update_apply, Function.update_apply]
  -- both writes are undone in order: the source, then the target, then any other slot
  by_cases hxs : x = source
  · rw [if_pos hxs, hxs, Equiv.swap_apply_left, ht]
  · by_cases hxt : x = target
    · rw [if_neg hxs, if_pos hxt, hxt, Equiv.swap_apply_right]
    · rw [if_neg hxs, if_neg hxt, Equiv.swap_apply_of_ne_of_ne hxs hxt]

/-- A move to a vacant slot exchanges the two slots, so that no instance gets into a second one. -/
theorem WellFormed.move (h : g.WellFormed) (ht : g.holder target = none) :
    (g.move source target).WellFormed := by
  constructor
  case older => exact h.older
  case known =>
    intro x i hx
    rw [holder_move ht] at hx
    exact h.known hx
  case apart =>
    intro x y i hx hy
    rw [holder_move ht] at hx hy
    exact (Equiv.swap source target).injective (h.apart hx hy)

theorem holder_drop (g : Genealogy) (s x : Slot) :
    (g.drop s).holder x = if x = s then none else g.holder x :=
  Function.update_apply ..

/-- Only the slot that is given up holds nothing any more. -/
theorem holder_of_drop (hx : (g.drop s).holder x = some i) : x ≠ s ∧ g.holder x = some i := by
  rw [holder_drop] at hx
  split at hx
  · cases hx
  · next hxs => exact ⟨hxs, hx⟩

/-- After a number of ends, the slots in the list are vacant. -/
theorem holder_foldl_drop (g : Genealogy) (ds : List Slot) (x : Slot) :
    (ds.foldl drop g).holder x = if x ∈ ds then none else g.holder x := by
  induction ds generalizing g with
  | nil => rfl
  | cons d ds ih =>
    rw [List.foldl_cons, ih, holder_drop]
    by_cases hd : x = d
    · simp [hd]
    · simp [hd]

/-- Giving a number up changes no parent. -/
theorem WellFormed.drop (h : g.WellFormed) (s : Slot) : (g.drop s).WellFormed where
  older := h.older
  known hx := h.known (holder_of_drop hx).2
  apart hx hy := h.apart (holder_of_drop hx).2 (holder_of_drop hy).2

end Genealogy

def Event.IsAside (e : Event) : Prop :=
  ∀ g : Genealogy, g.after e = g

/-- The genealogy of the capabilities of a machine, by its journal. -/
def Machine.genealogy (m : Machine) : Genealogy :=
  m.journal.foldl Genealogy.after .empty

/-- An event that is noted is all that the genealogy sees. -/
theorem Machine.genealogy_push {m m' : Machine} (e : Event)
    (h : m'.journal = m.journal.push e) : m'.genealogy = m.genealogy.after e := by
  simp [genealogy, h]

end SepKernel
