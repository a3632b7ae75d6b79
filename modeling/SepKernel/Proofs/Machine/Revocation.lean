import SepKernel.Proofs.Machine.Change
import SepKernel.Proofs.Table.Descendants

/-!
# The run of a revocation

A revocation takes back one after the other of what it reaches, from the front, and between them
only the board moves on. If nothing stops it, it then restores the capability.
-/

namespace SepKernel

open Relation (ReflTransGen)

variable {m m' : Machine} {s d x : Slot} {ds rest : List Slot} {h : Hart}

def Machine.onBoard (m : Machine) (b : Board) : Machine :=
  { m with board := b }

theorem Machine.onBoard_hushed (m : Machine) (b : Board) : Hushed m (m.onBoard b) :=
  hushed_board m b m.lockHolder

/-- A run in which a capability takes back what is in some slots, one by one. -/
inductive Takes (s : Slot) : List Slot → Machine → Machine → Prop
  | nil (m : Machine) : Takes s [] m m
  | cons {d : Slot} {ds : List Slot} {m m' : Machine} (b : Board) :
      m.table.next s = some d → (m.table.get s).mayRevoke (m.table.get d) = true →
      Takes s ds (((Machine.takeBack s d).exec m).2.onBoard b) m' → Takes s (d :: ds) m m'

namespace Takes

/-- Each step is a change. -/
theorem changes (ht : Takes s ds m m') : ReflTransGen Change m m' := by
  induction ht with
  | nil => exact .refl
  | cons b hn hr _ ih =>
    exact .head (.takeBack hn hr) (.head (.quiet (Machine.onBoard_hushed _ b).toQuiet) ih)

/-- The table after one step. -/
theorem table_step (s d : Slot) (m : Machine) (b : Board) :
    (((Machine.takeBack s d).exec m).2.onBoard b).table = m.table.takeBack s d :=
  (Machine.takeBack_tookBack s d m).table

theorem lineal_step (hl : m.table.Lineal) (hn : m.table.next s = some d)
    (hr : (m.table.get s).mayRevoke (m.table.get d) = true) (b : Board) :
    (((Machine.takeBack s d).exec m).2.onBoard b).table.Lineal := by
  rw [table_step]
  exact hl.takeBack hn hr

/-- So the line stays in order. -/
theorem lineal (ht : Takes s ds m m') (hl : m.table.Lineal) : m'.table.Lineal := by
  induction ht with
  | nil => exact hl
  | cons b hn hr _ ih => exact ih (lineal_step hl hn hr b)

/-- What remains to be vacated is what was not yet taken back. -/
theorem descendants (ht : Takes s ds m m') (hl : m.table.Lineal)
    (hd : m.table.descendants s = ds ++ rest) : m'.table.descendants s = rest := by
  induction ht with
  | nil => exact hd
  | cons b hn hr _ ih =>
    apply ih (lineal_step hl hn hr b)
    rw [table_step]
    exact hl.descendants_takeBack hd

/-- The capability that takes back keeps its outline. -/
theorem outline_self (ht : Takes s ds m m') (hl : m.table.Lineal) :
    (m'.table.get s).outline = (m.table.get s).outline := by
  induction ht with
  | nil => rfl
  | @cons d ds m m' b hn hr _ ih =>
    have hsd : s ≠ d := fun he => hl.strung.next_ne_self s (by rw [hn, ← he])
    rw [ih (lineal_step hl hn hr b), table_step, Table.outline_takeBack hsd]

/-- Once everything is taken back, the capability can be restored. -/
theorem ready_restore (ht : Takes s ds m m') (hl : m.table.Lineal) (hs : m.table.get s ≠ .null)
    (hd : m.table.descendants s = ds) :
    m'.table.get s ≠ .null ∧
      ∀ y, m'.table.Before s y → (m'.table.get s).mayRevoke (m'.table.get y) = false := by
  refine ⟨Capability.ne_null_of_outline (ht.outline_self hl).symm hs, ?_⟩
  intro y hy
  have hnil : m'.table.descendants s = [] := ht.descendants hl (by rw [hd, List.append_nil])
  rw [Bool.eq_false_iff]
  intro hr
  have hmem := (ht.lineal hl).mem_descendants.2 ⟨hy, hr⟩
  rw [hnil] at hmem
  cases hmem

end Takes

namespace Machine

/-- Taking back the slots to vacate is such a run over some of them from the front: over all of
them, or over at least one if it is stopped. -/
theorem takeAllBack_takes (hl : m.table.Lineal) (hd : m.table.descendants s = ds) :
    ∃ taken rest, ds = taken ++ rest ∧ Takes s taken m ((takeAllBack h s ds).exec m).2 ∧
      (((takeAllBack h s ds).exec m).1 = true → rest = []) ∧
      (((takeAllBack h s ds).exec m).1 = false → taken ≠ []) := by
  induction ds generalizing m with
  | nil => exact ⟨[], [], rfl, .nil m, fun _ => rfl, fun hf => by cases hf⟩
  | cons d ds ih =>
    obtain ⟨hn, hr⟩ := hl.strung.cons_of_descendants hd
    -- asking for the interrupt changes the board, whatever the answer is
    have hpoll : ∀ m : Machine, ∃ b board, (poll h).exec m = (b, m.onBoard board) :=
      fun m => ⟨_, _, rfl⟩
    obtain ⟨b, board, hp⟩ := hpoll ((takeBack s d).exec m).2
    have hexec : (takeAllBack h s (d :: ds)).exec m =
        (if b then pure false else takeAllBack h s ds : Action Bool).exec
          (((takeBack s d).exec m).2.onBoard board) := by
      rw [takeAllBack, Action.exec_bind, Action.exec_bind, hp]
    rw [hexec]
    cases b with
    | true =>
      refine ⟨[d], ds, rfl, .cons board hn hr (.nil _), ?_, fun _ => List.cons_ne_nil d []⟩
      rintro ⟨⟩
    | false =>
      have htable := Takes.table_step s d m board
      obtain ⟨taken, rest, he, ht, hdone, _⟩ := ih (m := ((takeBack s d).exec m).2.onBoard board)
        (Takes.lineal_step hl hn hr board)
        (by rw [htable]; exact hl.descendants_takeBack hd)
      exact ⟨d :: taken, rest, by rw [he]; rfl, .cons board hn hr ht, hdone,
        fun _ => List.cons_ne_nil d taken⟩

/-- What a revocation makes of the answer whether everything is gone. -/
theorem revokeCapability_exec (hs : m.table.get s ≠ .null) {done : Bool}
    (he : (takeAllBack h s (m.table.descendants s)).exec m = (done, m')) :
    (revokeCapability h s).exec m =
      if done then (.ok (), ((restore s).exec m').2)
      else (.error .preempted, ((note (.revocationPreempted s)).exec m').2) := by
  have hread : (readCapability s).exec m = (.ok (m.table.get s), m) := by
    rw [readCapability_exec, Table.read, if_neg (mt (Capability.isNull_iff _).1 hs)]
    rfl
  rw [revokeCapability, Attempt.exec_bind_ok hread, Attempt.exec_bind_ok Attempt.exec_get,
    Attempt.exec_bind_ok (Attempt.exec_lift _), he]
  cases done <;> rfl

/-- A revocation takes back from the front. Either it takes everything back and restores the
capability, or it takes something back and is preempted. -/
theorem revokeCapability_runs (hl : m.table.Lineal) (h : Hart) (hs : m.table.get s ≠ .null) :
    ∃ taken rest m₁, m.table.descendants s = taken ++ rest ∧ Takes s taken m m₁ ∧
      (rest = [] ∧ (revokeCapability h s).exec m = (.ok (), ((restore s).exec m₁).2) ∨
        taken ≠ [] ∧ (revokeCapability h s).exec m =
          (.error .preempted, ((note (.revocationPreempted s)).exec m₁).2)) := by
  obtain ⟨taken, rest, he, ht, hdone, hstopped⟩ := takeAllBack_takes (h := h) hl (s := s) rfl
  generalize hexec : (takeAllBack h s (m.table.descendants s)).exec m = r at ht hdone hstopped
  refine ⟨taken, rest, r.2, he, ht, ?_⟩
  rw [revokeCapability_exec hs hexec]
  cases hb : r.1 with
  | true => exact .inl ⟨hdone hb, rfl⟩
  | false => exact .inr ⟨hstopped hb, rfl⟩

/-- How a revocation ends: refused if there is no capability, with everything taken back and
restored, or preempted. -/
theorem revokeCapability_cases (hl : m.table.Lineal) (h : Hart) (s : Slot) :
    (m.table.get s = .null ∧ (revokeCapability h s).exec m = (.error .empty, m)) ∨
      m.table.get s ≠ .null ∧ ∃ taken rest m₁,
        m.table.descendants s = taken ++ rest ∧ Takes s taken m m₁ ∧
        (rest = [] ∧ (revokeCapability h s).exec m = (.ok (), ((restore s).exec m₁).2) ∨
          (revokeCapability h s).exec m =
            (.error .preempted, ((note (.revocationPreempted s)).exec m₁).2)) := by
  by_cases hs : m.table.get s = .null
  · have hread : (readCapability s).exec m = (.error .empty, m) := by
      rw [readCapability_exec, Table.read, if_pos ((Capability.isNull_iff _).2 hs)]
      rfl
    exact .inl ⟨hs, Attempt.exec_bind_error hread⟩
  · obtain ⟨taken, rest, m₁, hd, ht, he⟩ := revokeCapability_runs hl h hs
    exact .inr ⟨hs, taken, rest, m₁, hd, ht, he.imp_right And.right⟩

end Machine
end SepKernel
