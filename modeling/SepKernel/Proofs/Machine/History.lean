import SepKernel.Proofs.Machine.Revoked
import SepKernel.Proofs.Table.Ancestry

/-!
# Revocations and history

The kernel keeps no record of which capability was derived from which; it looks at ranges and at the
order of its lines. The journal has that record, and every change keeps the two together. So the
revocation of a tract takes back what was obtained from it by derivations, and nothing else.
-/

namespace SepKernel

open Relation (ReflTransGen)

variable {m m' : Machine} {roots : List Capability} {t t' : Table} {g g' : Genealogy}
  {s d x : Slot} {ds : List Slot} {h : Hart} {i j : Nat} {r : Except Error Unit}

/-! ## Changes -/

/-- One edit of the capability table, and what the journal records of it. -/
inductive Table.Recorded (t : Table) (g : Genealogy) : Table → Genealogy → Prop
  | same : Recorded t g t g
  | move {source target : Slot} {c : Capability} : t.get source ≠ .null → t.get target = .null →
      (t.get source).Reseats c → Recorded t g (t.relink source target c) (g.move source target)
  | delete (s : Slot) : Recorded t g (t.unlink s) (g.drop s)
  | derive {source target : Slot} {c : Capability} : t.get target = .null →
      (t.get source).Derivation c →
      Recorded t g (t.derive source target c) (g.bear target (g.holder source))
  | set {s : Slot} {c : Capability} : (t.get s).outline = c.outline → Recorded t g (t.set s c) g
  | takeBack {s d : Slot} : t.next s = some d → Recorded t g (t.takeBack s d) (g.drop d)

/-- What a deed does to the table and to the journal, together. -/
theorem Deed.recorded (hd : Deed m m') :
    m.table.Recorded m.genealogy m'.table m'.genealogy := by
  cases hd with
  | move hs ht =>
    rw [Machine.relocate_table, Machine.relocate_genealogy]
    exact .move hs ht (Machine.reseats_arriving ..)
  | delete =>
    rw [Machine.discard_table, Machine.discard_genealogy]
    exact .delete _
  | derive hd ht =>
    rw [Machine.bear_table, Machine.bear_genealogy]
    exact .derive ht hd
  | @load s r k hs =>
    obtain ⟨_, he⟩ := Machine.install_exec m s r k
    -- loading is no birth
    have hg : ((Machine.install s r k).exec m).2.genealogy = m.genealogy :=
      Machine.genealogy_push (.loaded s k) (by rw [he])
    rw [hg, he]
    refine .set ?_
    rw [hs]
    rfl
  | @unload s r hs =>
    obtain ⟨_, he⟩ := Machine.uninstall_exec m s r
    have hg : ((Machine.uninstall s r).exec m).2.genealogy = m.genealogy :=
      Machine.genealogy_push (.unloaded s) (by rw [he])
    rw [hg, he]
    refine .set ?_
    rw [hs]
    rfl

/-- Every change is recorded in the journal. -/
theorem Change.recorded (hc : Change m m') :
    m.table.Recorded m.genealogy m'.table m'.genealogy := by
  -- what a change does to the table stands in the journal
  cases hc with
  | quiet hq =>
    rw [hq.table, hq.genealogy]
    exact .same
  | deed hd => exact hd.recorded
  | @takeBack s d hn =>
    have htb := Machine.takeBack_tookBack s d m
    rw [htb.table, htb.genealogy]
    exact .takeBack hn
  | @restore s =>
    have hr := Machine.restore_restored s m
    rw [hr.table, hr.genealogy]
    exact .set (Capability.outline_restored _).symm

/-- What is recorded of an edit is what the table reflects after it. -/
theorem Table.Recorded.reflects (hr : t.Recorded g t' g') (hl : t.Lineal) (h : t.Reflects g) :
    t'.Reflects g' := by
  cases hr with
  | same => exact h
  | move hs ht hc => exact h.relink hl.strung hs ht hc
  | delete s => exact h.unlink hl.strung s
  | derive ht hd => exact h.derive hl ht hd
  | set ho => exact h.set ho
  | takeBack hn => exact h.takeBack hl.strung hn

theorem Change.reflects (hc : Change m m') (hl : m.table.Lineal)
    (h : m.table.Reflects m.genealogy) : m'.table.Reflects m'.genealogy :=
  hc.recorded.reflects hl h

/-- At the beginning the journal knows the roots, each in its slot. -/
theorem boot_reflects (hb : (Machine.boot roots).exec .initial = (.ok (), m)) :
    m.table.Reflects m.genealogy := by
  refine Machine.boot_keeps_any (P := fun m => m.table.Reflects m.genealogy) ?_ ?_ ?_ hb
  · constructor
    case wellFormed => exact Genealogy.wellFormed_empty
    case held =>
      intro x
      rw [Machine.initial_get]
      exact iff_of_true rfl rfl
    case ordered => rintro _ _ _ _ ⟨⟩
    case reached => rintro _ _ _ _ ⟨⟩
  · intro m m' hq hP
    rwa [hq.table, hq.genealogy]
  · intro m m' i c hboot hc hP hr
    -- roots are something
    have hnull : c ≠ .null := by
      rintro rfl
      cases hc
    rw [hr.table, hr.genealogy]
    exact hP.insertRoot (Table.strung_of_links hboot.links) (hboot.vacant i (Nat.le_refl _)) hnull

theorem Reachable.reflects (h : Reachable roots m) : m.table.Reflects m.genealogy :=
  h.invariant (P := fun m => m.table.Reflects m.genealogy) (fun _ hb => boot_reflects hb)
    fun _ _ hl hP hc => hc.reflects hl hP

/-! ## The revocation of a tract -/

theorem Takes.genealogy (ht : Takes s ds m m') (hl : m.table.Lineal) :
    m'.genealogy = ds.foldl Genealogy.drop m.genealogy :=
  ht.foldl (v := Machine.genealogy) (f := fun _ d g => g.drop d)
    (fun m d _ => (Machine.takeBack_tookBack s d m).genealogy) hl

/-- Whatever a revocation takes back, it leaves the other instances where they were. -/
theorem Takes.live_iff (ht : Takes s ds m m') (hl : m.table.Lineal)
    (hg : m.table.Reflects m.genealogy) (hd : m.genealogy.holder d = some j) :
    m'.genealogy.Live j ↔ d ∉ ds := by
  -- exactly those that are taken back are held nowhere
  have hholder : ∀ x, m'.genealogy.holder x = if x ∈ ds then none else m.genealogy.holder x := by
    intro x
    rw [ht.genealogy hl, Genealogy.holder_foldl_drop]
  constructor
  · rintro ⟨x, hx⟩
    rw [hholder] at hx
    split at hx
    · cases hx
    · next hxs => rwa [hg.wellFormed.apart hd hx]
  · intro hds
    exact ⟨d, by rw [hholder, if_neg hds, hd]⟩

/-- What a revocation takes back, it was to take back; if it completes, that is all of it. -/
theorem Machine.revokeCapability_taken (hl : m.table.Lineal) (hs : m.table.get s ≠ .null)
    (hr : (Machine.revokeCapability h s).exec m = (r, m')) :
    ∃ taken m₁, Takes s taken m m₁ ∧ (∀ d ∈ taken, d ∈ m.table.descendants s) ∧
      (r = .ok () → taken = m.table.descendants s) ∧ m'.genealogy = m₁.genealogy ∧
      ∀ x, m'.table.get x = .null ↔ m₁.table.get x = .null := by
  rcases revokeCapability_cases hl h s with ⟨he, _⟩ | ⟨_, taken, rest, m₁, hd, ht, he⟩
  · exact absurd he hs
  · have hsub : ∀ d ∈ taken, d ∈ m.table.descendants s := by
      intro d hdt
      rw [hd]
      exact List.mem_append_left _ hdt
    refine ⟨taken, m₁, ht, hsub, ?_⟩
    rcases he with ⟨rfl, he⟩ | he
    · -- the last step empties no slot
      rw [he] at hr
      cases hr
      have hrs := restore_restored s m₁
      refine ⟨fun _ => ?_, hrs.genealogy, fun x => ?_⟩
      · rw [hd, List.append_nil]
      · rw [hrs.table, Table.restore, Table.get_set_eq_null (Capability.outline_restored _).symm]
    · rw [he] at hr
      cases hr
      refine ⟨?_, ?_, fun _ => Iff.rfl⟩
      · rintro ⟨⟩
      · exact genealogy_push (m := m₁) (.revocationPreempted s) rfl

/-- What a tract reaches is what descends from it. -/
theorem Table.Reflects.mem_descendants {t : Table} {g : Genealogy} (hg : t.Reflects g)
    (hl : t.Lineal) (htract : (t.get s).isTract = true) (hs : g.holder s = some i)
    (hd : g.holder d = some j) : d ∈ t.descendants s ↔ g.Descends j i := by
  rw [hl.mem_descendants]
  constructor
  · rintro ⟨hb, hr⟩
    exact (hg.reached hs hd htract hb).1 hr
  · intro hdesc
    have hb := hg.ordered hs hd hdesc
    exact ⟨hb, (hg.reached hs hd htract hb).2 hdesc⟩

/-- The revocation of a tract follows history: whatever capability it deletes was obtained from the
tract by derivations, and if it completes, it deletes all that were, whether or not what was
between them is still there. -/
theorem revokeCapability_history (hm : Reachable roots m)
    (htract : (m.table.get s).isTract = true)
    (hr : (Machine.revokeCapability h s).exec m = (r, m')) :
    ∃ i, m.genealogy.holder s = some i ∧
      (∀ d, m.table.get d ≠ .null → ∃ j, m.genealogy.holder d = some j ∧
        (m'.genealogy.Live j ↔ m'.table.get d ≠ .null)) ∧
      (∀ j, m.genealogy.Live j → ¬ m'.genealogy.Live j → m.genealogy.Descends j i) ∧
      (r = .ok () → ∀ j, m.genealogy.Live j → m.genealogy.Descends j i →
        ¬ m'.genealogy.Live j) := by
  have hl := hm.lineal
  have hg := hm.reflects
  have hs : m.table.get s ≠ .null := by
    intro he
    rw [he] at htract
    cases htract
  obtain ⟨i, hi⟩ := hg.exists_holder hs
  obtain ⟨taken, m₁, ht, hsub, hall, hgen, hnull⟩ := Machine.revokeCapability_taken hl hs hr
  -- a number dies with the slot that is emptied
  have hlive : ∀ {d j}, m.genealogy.holder d = some j → (m'.genealogy.Live j ↔ d ∉ taken) := by
    intro d j hd
    rw [hgen]
    exact ht.live_iff hl hg hd
  refine ⟨i, hi, ?_, ?_, ?_⟩
  · intro d hd
    obtain ⟨j, hj⟩ := hg.exists_holder hd
    exact ⟨j, hj, by rw [hlive hj, ne_eq, hnull, ht.vacated hl hd]⟩
  · rintro j ⟨d, hd⟩ hdead
    rw [hlive hd, not_not] at hdead
    exact (hg.mem_descendants hl htract hi hd).1 (hsub d hdead)
  · rintro hok j ⟨d, hd⟩ hdesc
    rw [hlive hd, not_not, hall hok]
    exact (hg.mem_descendants hl htract hi hd).2 hdesc

/-- A revocation finds a grandchild whose parent is gone: of the instances 0, 1 and 2, each of which
was derived from the one before it, the second was deleted, and the third goes with the first. -/
theorem revokeCapability_history_orphaned : ∃ m m',
    Reachable [.wholeTime 0 0 64] m ∧ (m.table.get ⟨0, 0⟩).isTract = true ∧
      (Machine.revokeCapability 0 ⟨0, 0⟩).exec m = (.ok (), m') ∧
      ¬ m.genealogy.Live 1 ∧ m.genealogy.Live 2 ∧ ¬ m'.genealogy.Live 2 := by
  obtain ⟨m, he⟩ : ∃ m, m = Machine.afterAll [.wholeTime 0 0 64]
    [(0, .capDerive ⟨0, 0⟩ ⟨1, 0⟩ (.wholeTime 0 0 32)),
      (0, .capDerive ⟨1, 0⟩ ⟨2, 0⟩ (.wholeTime 0 0 16)), (0, .capDelete ⟨1, 0⟩)] := ⟨_, rfl⟩
  have hm : Reachable [.wholeTime 0 0 64] m := he ▸ .afterAll rfl _
  have htract : (m.table.get ⟨0, 0⟩).isTract = true := by rw [he]; decide +kernel
  have hok : ((Machine.revokeCapability 0 ⟨0, 0⟩).exec m).1 = .ok () := by rw [he]; decide +kernel
  have hr : (Machine.revokeCapability 0 ⟨0, 0⟩).exec m = (.ok (), _) := Prod.ext hok rfl
  -- the middle one of three is deleted before the first is revoked
  have hgone : ¬ m.genealogy.Live 1 := by
    have hall : ∀ x ∈ Slot.all, m.genealogy.holder x ≠ some 1 := by rw [he]; decide +kernel
    rintro ⟨x, hx⟩
    exact hall x (Slot.mem_all x) hx
  have hlive : m.genealogy.Live 2 := ⟨⟨2, 0⟩, by rw [he]; decide +kernel⟩
  have hdesc : m.genealogy.Descends 2 0 := by
    have hsecond : m.genealogy.parent 2 = some 1 := by rw [he]; decide +kernel
    have hfirst : m.genealogy.parent 1 = some 0 := by rw [he]; decide +kernel
    exact .tail (.single hsecond) hfirst
  have hroot : m.genealogy.holder ⟨0, 0⟩ = some 0 := by rw [he]; decide +kernel
  obtain ⟨i, hi, -, -, hall⟩ := revokeCapability_history hm htract hr
  obtain rfl := Option.some.inj (hroot.symm.trans hi)
  exact ⟨m, _, hm, htract, hr, hgone, hlive, hall rfl 2 hlive hdesc⟩

end SepKernel
