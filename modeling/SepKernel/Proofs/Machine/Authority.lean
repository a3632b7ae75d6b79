import SepKernel.Proofs.Lineage.Grants
import SepKernel.Proofs.Machine.Effects
import SepKernel.Proofs.Machine.History

/-!
# Authority comes from the roots

In every step of the machine, the capabilities that are there afterwards were there before, as what
they are, except for at most one, which was derived in the step from one that was there. So whatever
there is was made of a root over some derivations, and the root grants it; and what a capability was
derived from can be looked up in the machine as it was then.

Here a capability is followed as an instance of the genealogy, since it may go from slot to slot,
and since the slot of its parent may be vacant or hold something else by now.
-/

namespace SepKernel

open Relation (ReflTransGen)

variable {m m' m₁ m₂ : Machine} {roots : List Capability} {x s d source target : Slot}
  {c : Capability} {i j q : Nat} {h : Hart} {op : Operation}

/-- Every instance was there before, with the same outline and the same parent. -/
structure Endures (m m' : Machine) : Prop where
  parent : m'.genealogy.parent = m.genealogy.parent
  held : ∀ {x i}, m'.genealogy.holder x = some i →
    ∃ y, m.genealogy.holder y = some i ∧ (m.table.get y).outline = (m'.table.get x).outline

instance : IsPreorder Machine Endures where
  refl _ := ⟨rfl, fun {x _} hx => ⟨x, hx, rfl⟩⟩
  trans _ _ _ h h' := by
    refine ⟨h'.parent.trans h.parent, ?_⟩
    intro x i hx
    obtain ⟨y, hy, ho⟩ := h'.held hx
    obtain ⟨z, hz, ho'⟩ := h.held hy
    exact ⟨z, hz, ho'.trans ho⟩

theorem Quiet.endures (hq : Quiet m m') : Endures m m' where
  parent := by rw [hq.genealogy]
  held {x i} hx := ⟨x, by rwa [hq.genealogy] at hx, by rw [hq.table]⟩

/-! ## Single changes -/

/-- One slot gets another capability of the same outline. -/
theorem endures_set (hg : m'.genealogy = m.genealogy) (ht : m'.table = m.table.set s c)
    (ho : (m.table.get s).outline = c.outline) : Endures m m' where
  parent := by rw [hg]
  held {x i} hx := by
    refine ⟨x, by rwa [hg] at hx, ?_⟩
    rw [ht, Table.outline_set ho]

/-- A move carries the number of what is moved, and what it is in outline. -/
theorem endures_relocate (hl : m.table.Strung) (hg : m.table.Reflects m.genealogy)
    (ht : m.table.get target = .null) :
    Endures m ((Machine.relocate source target (m.table.get source)).exec m).2 := by
  constructor
  case parent =>
    rw [Machine.relocate_genealogy]
    rfl
  case held =>
    intro x i hx
    rw [Machine.relocate_genealogy, Genealogy.holder_move ((hg.held target).2 ht)] at hx
    -- what is held in a slot now was held in the one it is exchanged with
    refine ⟨Equiv.swap source target x, hx, ?_⟩
    rw [Machine.relocate_table]
    exact (hl.reseats_relink ht (Machine.reseats_arriving ..) x).outline_eq

/-- The instance in a slot ends, and outlines stay elsewhere. -/
theorem endures_drop (hg : m'.genealogy = m.genealogy.drop d)
    (ho : ∀ x, x ≠ d → (m'.table.get x).outline = (m.table.get x).outline) : Endures m m' where
  parent := by rw [hg]; rfl
  held {x i} hx := by
    rw [hg] at hx
    obtain ⟨hxd, hx⟩ := Genealogy.holder_of_drop hx
    exact ⟨x, hx, (ho x hxd).symm⟩

/-- Moves and deletions grant nothing, nor does loading a region. -/
theorem Shift.endures (hs : Shift m m') (hl : m.table.Strung)
    (hg : m.table.Reflects m.genealogy) : Endures m m' := by
  obtain ⟨hd, hcount⟩ := hs
  cases hd with
  | move _ ht => exact endures_relocate hl hg ht
  | @delete s =>
    apply endures_drop (Machine.discard_genealogy ..)
    intro x hx
    rw [Machine.discard_table, Table.get_unlink, if_neg hx.symm]
  | derive =>
    rw [Machine.bear_genealogy] at hcount
    exact absurd hcount (Nat.succ_ne_self _) -- a derivation would have counted
  | @load s r k hs =>
    obtain ⟨_, he⟩ := Machine.install_exec m s r k
    rw [he]
    exact endures_set (Machine.genealogy_push (m := m) (.loaded s k) rfl) rfl (by rw [hs]; rfl)
  | @unload s r hs =>
    obtain ⟨_, he⟩ := Machine.uninstall_exec m s r
    rw [he]
    exact endures_set (Machine.genealogy_push (m := m) (.unloaded s) rfl) rfl (by rw [hs]; rfl)

/-- Taking one back grants nothing. -/
theorem Machine.TookBack.endures (ht : TookBack s d m m') : Endures m m' := by
  apply endures_drop ht.genealogy
  intro x hx
  rw [ht.table, Table.outline_takeBack hx]

theorem Machine.Restored.endures (hr : Restored s m m') : Endures m m' :=
  endures_set hr.genealogy hr.table (Capability.outline_restored _).symm

/-- Nor does taking several back. -/
theorem Takes.endures {ds : List Slot} (ht : Takes s ds m m') : Endures m m' := by
  induction ht with
  | nil m => exact refl_of Endures m
  | @cons d ds m m' b _ _ _ ih =>
    have hstep : Endures m (((Machine.takeBack s d).exec m).2.onBoard b) :=
      trans_of Endures (Machine.takeBack_tookBack s d m).endures
        (Machine.onBoard_hushed _ b).toQuiet.endures
    exact trans_of Endures hstep ih

/-! ## Operations -/

/-- The table and the genealogy stay in order, and every instance was there before. -/
def Lasts (m m' : Machine) : Prop :=
  m.table.Lineal → m.table.Reflects m.genealogy →
    m'.table.Lineal ∧ m'.table.Reflects m'.genealogy ∧ Endures m m'

instance : IsPreorder Machine Lasts where
  refl m hl hg := ⟨hl, hg, refl_of Endures m⟩
  trans _ _ _ h h' hl hg := by
    obtain ⟨hl, hg, he⟩ := h hl hg
    obtain ⟨hl, hg, he'⟩ := h' hl hg
    exact ⟨hl, hg, trans_of Endures he he'⟩

theorem Change.lasts (hc : Change m m') (he : m.table.Lineal → m.table.Reflects m.genealogy →
    Endures m m') : Lasts m m' :=
  fun hl hg => ⟨hc.lineal hl, hc.reflects hl hg, he hl hg⟩

theorem Quiet.lasts (hq : Quiet m m') : Lasts m m' :=
  (Change.quiet hq).lasts fun _ _ => hq.endures

theorem acrossShifts_lasts : AcrossShifts Lasts where
  hushed hh := hh.toQuiet.lasts
  shift hs := (Change.deed hs.deed).lasts fun hl hg => hs.endures hl.strung hg

/-- A revocation grants nothing, wherever it stops. -/
theorem Machine.revokeCapability_lasts (h : Hart) (s : Slot) :
    (revokeCapability h s).Keeps Lasts := by
  intro m hl hg
  -- all that it changes are changes, so that the invariants hold at the end
  obtain ⟨hl', hg'⟩ : ((revokeCapability h s).exec m).2.table.Lineal ∧
      ((revokeCapability h s).exec m).2.table.Reflects
        ((revokeCapability h s).exec m).2.genealogy := by
    have hchanges := revokeCapability_sequel h s m hl
    exact ⟨lineal_of_changes hchanges hl,
      changes_keep (P := fun m => m.table.Reflects m.genealogy)
        (fun _ _ hl hg hc => hc.reflects hl hg) hchanges hl hg⟩
  refine ⟨hl', hg', ?_⟩
  rcases revokeCapability_cases hl h s with ⟨_, he⟩ | ⟨_, taken, rest, m₁, _, ht, ⟨_, he⟩ | he⟩
  · rw [he]
    exact refl_of Endures m
  · rw [he]
    exact trans_of Endures ht.endures (restore_restored s m₁).endures
  · rw [he]
    exact trans_of Endures ht.endures
      ((note_aside fun _ => rfl).hushed m₁).toQuiet.endures

/-- Only a derivation brings something new. -/
theorem Operation.perform_lasts (h : Hart) (hop : ∀ s t c, op ≠ .capDerive s t c) :
    (op.perform h).Keeps Lasts := by
  apply op.perform_keeps_of acrossShifts_lasts h
  · intro s t c he
    exact absurd he (hop s t c)
  · intro s _
    exact Machine.revokeCapability_lasts h s
  · intro s hs m
    refine hs.perform_at (Machine.acrossWait_of_shifts acrossShifts_lasts ?_ _ _ _) h
    exact fun k p b => (Machine.await_quiet k p b).mono Quiet.lasts

/-! ## Steps -/

/-- A capability was derived from another one into a vacant slot, and that is all that happened to
capabilities. -/
structure Bears (source target : Slot) (c : Capability) (m m' : Machine) : Prop where
  derivation : (m.table.get source).Derivation c
  vacant : m.table.get target = .null
  table : m'.table = m.table.derive source target c
  genealogy : m'.genealogy = m.genealogy.bear target (m.genealogy.holder source)

/-- Quiet work before and after a derivation makes no difference to it. -/
theorem Bears.around (hb : Bears source target c m₁ m₂) (h₁ : Quiet m m₁) (h₂ : Quiet m₂ m') :
    Bears source target c m m' where
  derivation := by
    rw [← h₁.table]
    exact hb.derivation
  vacant := by rw [← h₁.table, hb.vacant]
  table := by rw [h₂.table, hb.table, h₁.table]
  genealogy := by rw [h₂.genealogy, hb.genealogy, h₁.genealogy]

/-- Deriving bears a new capability, or nothing has changed that matters. -/
theorem Operation.perform_bears (h : Hart) (source target : Slot) (c : Capability) (m : Machine) :
    Endures m (((Operation.capDerive source target c).perform h).exec m).2 ∨
      Bears source target c m (((Operation.capDerive source target c).perform h).exec m).2 := by
  refine ((Operation.capDerive source target c).perform_decides h m (by simp)).result
    (P := fun m' => Endures m m' ∨ Bears source target c m m') ?_ ?_
  · intro m' ha
    exact .inl ha.hushed.toQuiet.endures
  · rintro _ m' (ha | he)
    · exact .inl ha.hushed.toQuiet.endures
    · cases he with
      | derive hd hv =>
        exact .inr ⟨hd, hv, Machine.bear_table .., Machine.bear_genealogy ..⟩

/-- In a step nothing new comes into being, or one capability is derived from one that was there. -/
theorem Machine.Step.endures_or_bears (hs : m.Step m') (hl : m.table.Lineal)
    (hg : m.table.Reflects m.genealogy) :
    Endures m m' ∨ ∃ source target c, Bears source target c m m' := by
  rcases hs.cases with hh | ⟨op, hp⟩
  · exact .inl hh.toQuiet.endures
  rcases hp.amounts with hh | ⟨h, m₁, h₁, h₂⟩
  · exact .inl hh.toQuiet.endures
  have hq₁ := h₁.toQuiet
  have hq₂ := h₂.toQuiet
  have around : ∀ {m₂}, Endures m₁ m₂ → Quiet m₂ m' → Endures m m' := fun he hq =>
    trans_of Endures hq₁.endures (trans_of Endures he hq.endures)
  -- only one operation bears anything
  by_cases hop : ∃ s t c, op = .capDerive s t c
  · obtain ⟨source, target, c, rfl⟩ := hop
    rcases Operation.perform_bears h source target c m₁ with he | hb
    · exact .inl (around he hq₂)
    · exact .inr ⟨source, target, c, hb.around hq₁ hq₂⟩
  · have hlasts := Operation.perform_lasts h (fun s t c he => hop ⟨s, t, c, he⟩) m₁
    obtain ⟨_, _, he⟩ := hlasts (by rwa [hq₁.table]) (by rwa [hq₁.table, hq₁.genealogy])
    exact .inl (around he hq₂)

/-! ## Roots -/

/-- Is an instance the first one of the line of derivations that ends in another? -/
structure Genealogy.Founds (g : Genealogy) (j i : Nat) : Prop where
  first : g.parent j = none
  line : ReflTransGen (fun a b => g.parent a = some b) i j

/-- The line of an instance stays as it is when others come into being. -/
theorem Genealogy.Founds.of_parent {g g' : Genealogy} (hf : g.Founds j i) (hw : g.WellFormed)
    (hi : i < g.count) (hp : ∀ a < g.count, g'.parent a = g.parent a) : g'.Founds j i := by
  obtain ⟨hfirst, hline⟩ := hf
  induction hline using ReflTransGen.head_induction_on with
  | refl => exact ⟨by rw [hp j hi, hfirst], .refl⟩
  | @head a b hab _ ih =>
    have hrest := ih (Nat.lt_trans (hw.older hab).1 hi)
    exact ⟨hrest.first, .head (by rw [hp a hi, hab]) hrest.line⟩

/-- Some roots have been given out, in their order. -/
structure Given (roots : List Capability) (m : Machine) : Prop where
  count : m.genealogy.count = roots.length
  parent : ∀ i, m.genealogy.parent i = none
  held : ∀ {x i}, m.genealogy.holder x = some i → roots[i]? = some (m.table.get x)

/-- One root more has been given, with the next number. -/
theorem Given.installRoot {front : List Capability} {k : SlotIndex} (hm : Given front m)
    (hr : Machine.Rooted k c m m') : Given (front ++ [c]) m' := by
  constructor
  case count =>
    rw [hr.genealogy, List.length_append]
    exact congrArg (· + 1) hm.count
  case parent =>
    intro i
    rw [hr.genealogy, Genealogy.parent_bear]
    split
    · rfl
    · exact hm.parent i
  case held =>
    intro x i hx
    rw [hr.genealogy, Genealogy.holder_bear] at hx
    rw [hr.table, Table.get_insertRoot]
    split at hx
    · next hxk =>
      cases hx
      rw [if_pos hxk.symm, hm.count, List.getElem?_concat_length]
    · next hxk =>
      rw [if_neg (Ne.symm hxk)]
      have hi := hm.held hx
      rw [List.getElem?_append_left (List.getElem?_eq_some_iff.1 hi).1, hi]

/-- By induction on the roots that remain. -/
theorem Given.installRoots {front : List Capability} (hm : Given front m)
    (hlength : front.length + roots.length ≤ 32) :
    Given (front ++ roots) ((Machine.installRoots front.length roots).exec m).2 := by
  induction roots generalizing front m with
  | nil =>
    rw [List.append_nil]
    exact hm
  | cons c cs ih =>
    rw [List.length_cons] at hlength
    have hf : front.length < 32 := by omega
    have hfront : (front ++ [c]).length = front.length + 1 := by simp
    -- the first root, and then the others behind it
    have hinstalled := hm.installRoot (Machine.installRoot_rooted ⟨front.length, hf⟩ c m)
    have hrest := ih hinstalled (by omega)
    rw [hfront, List.append_assoc] at hrest
    rw [Machine.installRoots, dif_pos hf]
    exact hrest

/-- After booting, the numbers are those of the roots. -/
theorem boot_given (hb : (Machine.boot roots).exec .initial = (.ok (), m)) : Given roots m := by
  obtain ⟨hlength, _, hq⟩ := Machine.boot_ok hb
  have hinitial : Given [] .initial := ⟨rfl, fun _ => rfl, by rintro _ _ ⟨⟩⟩
  have hgiven : Given roots ((Machine.installRoots 0 roots).exec .initial).2 :=
    hinitial.installRoots (by simpa using hlength)
  constructor
  case count =>
    rw [hq.genealogy]
    exact hgiven.count
  case parent =>
    rw [hq.genealogy]
    exact hgiven.parent
  case held =>
    intro x i hx
    rw [hq.genealogy] at hx
    rw [hq.table]
    exact hgiven.held hx

/-! ## Where a capability comes from -/

/-- What a step derives, it derives for a new instance, and all others were there before. -/
theorem Bears.held (hb : Bears source target c m m') (hl : m.table.Lineal)
    (hx : m'.genealogy.holder x = some i) :
    (i = m.genealogy.count ∧ m'.table.get x = c) ∨
      (m.genealogy.holder x = some i ∧ (m.table.get x).outline = (m'.table.get x).outline) := by
  rw [hb.genealogy, Genealogy.holder_bear] at hx
  rw [hb.table]
  split at hx
  · next hxt =>
    cases hx
    exact .inl ⟨rfl, by rw [hl.get_derive hb.vacant hb.derivation, if_pos hxt.symm]⟩
  · next hxt => exact .inr ⟨hx, (hl.outline_derive hb.vacant hb.derivation hxt).symm⟩

/-- The new instance has a parent, and nobody else gets another one. -/
theorem Bears.parent (hb : Bears source target c m m') (hg : m.table.Reflects m.genealogy)
    (hi : m.genealogy.holder x = some i) :
    m'.genealogy.parent i = m.genealogy.parent i := by
  rw [hb.genealogy, Genealogy.parent_bear, if_neg]
  have := hg.wellFormed.known hi
  omega

/-- Every instance was made of a root that grants it. -/
theorem Reachable.granted (hm : Reachable roots m) (hx : m.genealogy.holder x = some i) :
    ∃ j root, m.genealogy.Founds j i ∧ roots[j]? = some root ∧ root.Grants (m.table.get x) := by
  induction hm generalizing x i with
  | @boot m hb =>
    have hnull : m.table.get x ≠ .null := by
      intro he
      rw [((boot_reflects hb).held x).2 he] at hx
      cases hx
    exact ⟨i, _, ⟨(boot_given hb).parent i, .refl⟩, (boot_given hb).held hx, .self hnull⟩
  | @step m m' hr hs ih =>
    have hl := hr.lineal
    have hg := hr.reflects
    -- a step moves what there is, or adds one
    rcases hs.endures_or_bears hl hg with he | ⟨source, target, c, hb⟩
    · obtain ⟨y, hy, ho⟩ := he.held hx
      obtain ⟨j, root, hf, hj, hgrants⟩ := ih hy
      exact ⟨j, root, ⟨by rw [he.parent, hf.first], by rw [he.parent]; exact hf.line⟩, hj,
        hgrants.congr ho⟩
    have hparent : ∀ a < m.genealogy.count, m'.genealogy.parent a = m.genealogy.parent a := by
      intro a ha
      rw [hb.genealogy, Genealogy.parent_bear, if_neg (Nat.ne_of_lt ha)]
    rcases hb.held hl hx with ⟨rfl, hc⟩ | ⟨hx', ho⟩
    · -- what the new one is made of has a root, and that is its root as well
      obtain ⟨q, hq⟩ := hg.exists_holder hb.derivation.ne_null.1
      obtain ⟨j, root, hf, hj, hgrants⟩ := ih hq
      have hf' := hf.of_parent hg.wellFormed (hg.wellFormed.known hq) hparent
      have hnew : m'.genealogy.parent m.genealogy.count = some q := by
        rw [hb.genealogy, Genealogy.parent_bear, if_pos rfl, hq]
      refine ⟨j, root, ⟨hf'.first, .head hnew hf'.line⟩, hj, ?_⟩
      rw [hc]
      exact hgrants.derive (hl.sound source) hb.derivation
    · obtain ⟨j, root, hf, hj, hgrants⟩ := ih hx'
      exact ⟨j, root, hf.of_parent hg.wellFormed (hg.wellFormed.known hx') hparent, hj,
        hgrants.congr ho⟩

/-- Every instance that has a parent was derived at some time before from what its parent was
then. -/
theorem Reachable.derived (hm : Reachable roots m) (hx : m.genealogy.holder x = some i)
    (hp : m.genealogy.parent i = some q) :
    ∃ m₀ y c, Reachable roots m₀ ∧ ReflTransGen Machine.Step m₀ m ∧
      m₀.genealogy.holder y = some q ∧ (m₀.table.get y).Derivation c ∧
        c.outline = (m.table.get x).outline := by
  induction hm generalizing x i q with
  | boot hb =>
    rw [(boot_given hb).parent] at hp
    cases hp
  | @step m m' hr hs ih =>
    have hl := hr.lineal
    have hg := hr.reflects
    -- it existed before the step, and was born in an earlier one
    have old : ∀ {y}, m.genealogy.holder y = some i → m.genealogy.parent i = some q →
        (m.table.get y).outline = (m'.table.get x).outline →
        ∃ m₀ y c, Reachable roots m₀ ∧ ReflTransGen Machine.Step m₀ m' ∧
          m₀.genealogy.holder y = some q ∧ (m₀.table.get y).Derivation c ∧
            c.outline = (m'.table.get x).outline := by
      intro y hy hp ho
      obtain ⟨m₀, z, c, hm₀, hrun, hz, hd, hc⟩ := ih hy hp
      exact ⟨m₀, z, c, hm₀, hrun.tail hs, hz, hd, hc.trans ho⟩
    rcases hs.endures_or_bears hl hg with he | ⟨source, target, c, hb⟩
    · obtain ⟨y, hy, ho⟩ := he.held hx
      exact old hy (by rwa [he.parent] at hp) ho
    · rcases hb.held hl hx with ⟨rfl, hc⟩ | ⟨hx', ho⟩
      · rw [hb.genealogy, Genealogy.parent_bear, if_pos rfl] at hp
        exact ⟨m, source, c, hr, .single hs, hp, hb.derivation, by rw [hc]⟩
      · exact old hx' (by rwa [hb.parent hg hx'] at hp) ho

/-- Authority is confined to the roots: behind every capability there is a line of derivations that
starts at a root, and the root grants the capability. A socket that is no root was made of the
capability that its parent was at some time before: a server of a range of channels, and a client of
its server. -/
theorem granted_by_root (hm : Reachable roots m) (hx : m.table.get x ≠ .null) :
    ∃ i j root, m.genealogy.holder x = some i ∧ m.genealogy.Founds j i ∧ roots[j]? = some root ∧
      root.Grants (m.table.get x) ∧
      ∀ k q, m.table.get x = .socket k → m.genealogy.parent i = some q →
        ∃ m₀ y, Reachable roots m₀ ∧ ReflTransGen Machine.Step m₀ m ∧
          m₀.genealogy.holder y = some q ∧ Capability.MadeOf k (m₀.table.get y) := by
  obtain ⟨i, hi⟩ := hm.reflects.exists_holder hx
  obtain ⟨j, root, hf, hj, hgrants⟩ := hm.granted hi
  refine ⟨i, j, root, hi, hf, hj, hgrants, ?_⟩
  intro k q hk hq
  obtain ⟨m₀, y, c, hm₀, hrun, hy, hd, hc⟩ := hm.derived hi hq
  rw [hk] at hc
  rw [Capability.outline_eq_socket hc] at hd
  exact ⟨m₀, y, hm₀, hrun, hy, hd.madeOf (hm₀.lineal.sound y)⟩

/-- A client outlives its server: the server of channel 3 that the client was made of is gone, and
the range of channels that was given out as the second root still stands behind it. -/
theorem granted_by_root_client : ∃ m x k,
    Reachable [.wholeTime 0 0 64, .wholeChannel 0 16] m ∧ m.table.get x = .socket k ∧
      k.isServer = false ∧ ¬ m.genealogy.Live 2 ∧
      ∃ i j root, m.genealogy.holder x = some i ∧ m.genealogy.Founds j i ∧
        [Capability.wholeTime 0 0 64, .wholeChannel 0 16][j]? = some root ∧
        root.Grants (.socket k) ∧ ∃ m₀ y, ReflTransGen Machine.Step m₀ m ∧
          m₀.genealogy.holder y = some 2 ∧ Capability.MadeOf k (m₀.table.get y) := by
  obtain ⟨m, he⟩ : ∃ m, m = Machine.afterAll [.wholeTime 0 0 64, .wholeChannel 0 16]
    [(0, .capDerive ⟨0, 1⟩ ⟨0, 2⟩ (.socket ⟨3, .yield, .ofBits 15, 0⟩)),
      (0, .capDerive ⟨0, 2⟩ ⟨0, 3⟩ (.socket ⟨3, .yield, .ofBits 15, 7⟩)),
      (0, .capDelete ⟨0, 2⟩)] := ⟨_, rfl⟩
  have hm : Reachable [.wholeTime 0 0 64, .wholeChannel 0 16] m := he ▸ .afterAll rfl _
  -- the client is made of a server that is gone
  have hk : m.table.get ⟨0, 3⟩ = .socket ⟨3, .yield, .ofBits 15, 7⟩ := by rw [he]; decide +kernel
  have hgone : ¬ m.genealogy.Live 2 := by
    have hall : ∀ x ∈ Slot.all, m.genealogy.holder x ≠ some 2 := by rw [he]; decide +kernel
    rintro ⟨x, hx⟩
    exact hall x (Slot.mem_all x) hx
  have hthird : m.genealogy.holder ⟨0, 3⟩ = some 3 := by rw [he]; decide +kernel
  have hparent : m.genealogy.parent 3 = some 2 := by rw [he]; decide +kernel
  obtain ⟨i, j, root, hi, hf, hj, hgrants, hmade⟩ :=
    granted_by_root (x := ⟨0, 3⟩) hm (by rw [hk]; simp)
  obtain rfl := Option.some.inj (hthird.symm.trans hi)
  obtain ⟨m₀, y, -, hrun, hy, hmade⟩ := hmade _ 2 hk hparent
  exact ⟨m, _, _, hm, hk, rfl, hgone, 3, j, root, hthird, hf, hj, hk ▸ hgrants, m₀, y, hrun, hy,
    hmade⟩

end SepKernel
