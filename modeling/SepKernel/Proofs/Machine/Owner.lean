import SepKernel.Proofs.Machine.Reachable
import SepKernel.Proofs.Table.Owner

/-!
# One owner for every resource

If no two roots span the same resource, then in every reachable machine no two capabilities own the
same resource: no time slot, address, process or channel is free in two capabilities at once, and
the channel of a server socket is free in none.
-/

namespace SepKernel

open Relation (ReflTransGen)

variable {m m' : Machine} {roots : List Capability} {r : Resource} {x y : Slot}

/-- No resource lies in both capabilities. -/
def Capability.Disjoint (c d : Capability) : Prop :=
  ∀ r, c.Spans r → ¬ d.Spans r

section Gathered
variable {P Q : Capability → Prop} (hP : Capability.Heritable P) (hQ : Capability.Heritable Q)
include hP hQ

/-- Changes bear nothing that belongs to both. -/
theorem Change.gathered (hc : Change m m') (hl : m.table.Lineal) (hg : m.table.Gathered P Q) :
    m'.table.Gathered P Q := by
  rcases hc.edit with he | he
  · rwa [he]
  · exact he.gathered hP hQ hg hl

/-- After booting with roots that share the two properties with no other root, nothing else does. -/
theorem boot_gathered (hb : (Machine.boot roots).exec .initial = (.ok (), m))
    (hpair : roots.Pairwise fun c d => (P c → ¬ Q d) ∧ (P d → ¬ Q c)) : m.table.Gathered P Q := by
  suffices ∀ x y, P (m.table.get x) → Q (m.table.get y) → x = y from
    fun x y hx hy => .inl (this x y hx hy)
  refine Machine.boot_keeps (P := fun m => ∀ x y, P (m.table.get x) → Q (m.table.get y) → x = y)
    ?_ ?_ ?_ hpair hb
  · intro x y hx
    exact absurd (Machine.initial_get x) (hP.ne_null hx)
  · intro m m' hh hall
    rwa [hh.table]
  · intro m m' i c _ _ hD hall hr x y hx hy
    rw [hr.table, Table.get_insertRoot] at hx hy
    -- the root is the one of its kind, for the others are disjoint from it
    split at hx
    · next he =>
      split at hy
      · next he' => exact he.symm.trans he'
      · exact absurd hy ((hD y (hQ.ne_null hy)).2 hx)
    · split at hy
      · exact absurd hy ((hD x (hP.ne_null hx)).1 hx)
      · exact hall x y hx hy

theorem Reachable.gathered (h : Reachable roots m)
    (hpair : roots.Pairwise fun c d => (P c → ¬ Q d) ∧ (P d → ¬ Q c)) : m.table.Gathered P Q :=
  h.invariant (P := fun m => m.table.Gathered P Q) (fun _ hb => boot_gathered hP hQ hb hpair)
    fun _ _ hl hg hc => hc.gathered hP hQ hl hg

end Gathered

theorem Change.confined (hc : Change m m') (hl : m.table.Lineal) (hr : m.table.Confined r) :
    m'.table.Confined r :=
  hc.gathered (Capability.heritable_spans r) (Capability.heritable_spans r) hl hr

theorem Reachable.confined (h : Reachable roots m)
    (hpair : roots.Pairwise fun c d => c.Spans r → ¬ d.Spans r) : m.table.Confined r :=
  h.gathered (Capability.heritable_spans r) (Capability.heritable_spans r)
    (hpair.imp fun hd => ⟨hd, fun hd' hc => hd hc hd'⟩)

/-- Every resource has at most one owner. -/
theorem eq_of_owns (hroots : roots.Pairwise Capability.Disjoint) (h : Reachable roots m)
    (hx : (m.table.get x).Owns r) (hy : (m.table.get y).Owns r) : x = y :=
  h.lineal.owner_unique (h.confined (hroots.imp fun hd => hd r)) hx hy

/-- A server socket is the only owner of its channel, the range that it came from included. -/
theorem eq_of_owns_served : ∃ m,
    [Capability.wholeTime 0 0 64, .wholeChannel 0 16].Pairwise Capability.Disjoint ∧
      Reachable [.wholeTime 0 0 64, .wholeChannel 0 16] m ∧
      (m.table.get ⟨1, 0⟩).Owns (.channel 3) ∧
      ∀ y, (m.table.get y).Owns (.channel 3) → y = ⟨1, 0⟩ := by
  have hroots : [Capability.wholeTime 0 0 64, .wholeChannel 0 16].Pairwise
      Capability.Disjoint := by
    rw [List.pairwise_pair]
    rintro (_ | _ | _ | _) h h'
    · exact h'
    · exact h
    · exact h
    · exact h
  let server : Socket := ⟨3, .yield, ⟨true, false, true, false⟩, 0⟩
  obtain ⟨m, he⟩ : ∃ m, m = Machine.afterAll [.wholeTime 0 0 64, .wholeChannel 0 16]
    [(0, .capDerive ⟨0, 1⟩ ⟨1, 0⟩ (.socket server))] := ⟨_, rfl⟩
  have hm : Reachable [.wholeTime 0 0 64, .wholeChannel 0 16] m := he ▸ .afterAll rfl _
  -- process 0 has made the server for process 1
  have hget : m.table.get ⟨1, 0⟩ = .socket server := by rw [he]; decide +kernel
  have hx : (m.table.get ⟨1, 0⟩).Owns (.channel 3) := by
    rw [hget]
    exact ⟨rfl, rfl⟩
  exact ⟨m, hroots, hm, hx, fun y hy => eq_of_owns hroots hm hy hx⟩

end SepKernel
