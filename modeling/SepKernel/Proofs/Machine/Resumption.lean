import SepKernel.Proofs.Machine.Calm
import SepKernel.Proofs.Machine.Reachable
import SepKernel.Proofs.Machine.Revoked

/-!
# Revoking again after a preemption

A revocation that is preempted has taken back the first of what it reaches, and what it left is
reached by the next one. So however often it is preempted, and wherever it stops, going on brings
about what a revocation brings about that is never preempted. Since each call takes something back,
the calls come to an end, even if the timer interrupt is pending all the time.

What a revocation does to the kernel depends on the kernel alone. The board decides only how far it
gets.
-/

namespace SepKernel

variable {m m' m₁ m₂ n n' n₁ n₂ : Machine} {roots : List Capability} {s d x : Slot}
  {ds ds' : List Slot} {h : Hart}

/-! ## The kernel decides -/

namespace Machine

/-- Taking back does the same on equal kernels. -/
theorem kernel_takeBack (hk : m.toKernel = n.toKernel)
    (hr : (m.table.get s).mayRevoke (m.table.get d) = true) :
    ((takeBack s d).exec m).2.toKernel = ((takeBack s d).exec n).2.toKernel := by
  have hm := takeBack_tookBack s d m
  have hn := takeBack_tookBack s d n
  have htable : m.table = n.table := congrArg Kernel.table hk
  have hregistry : m.registry = n.registry := congrArg Kernel.registry hk
  have hprocesses : m.processes = n.processes := congrArg Kernel.processes hk
  have hschedule : m.schedule = n.schedule := congrArg Kernel.schedule hk
  apply Kernel.ext
  case table => rw [hm.table, hn.table, htable]
  case registry => rw [hm.registry, hn.registry, htable, hregistry]
  case processes =>
    ext p : 1
    -- but for their registers, processes are as before
    obtain ⟨b, hb⟩ := (takeBack_clerical s d m).settled p
    obtain ⟨c, hc⟩ := (takeBack_clerical s d n).settled p
    have hbank : b = _ := (congrArg Process.bank hb).symm.trans (hm.bank p)
    have hbank' : c = _ := (congrArg Process.bank hc).symm.trans (hn.bank p)
    rw [hb, hc, hbank, hbank', htable, hprocesses]
  case schedule =>
    ext hart col : 2
    rw [hm.schedule hr, hn.schedule (htable ▸ hr), htable, hschedule]

/-- Restoring does the same on equal kernels. -/
theorem kernel_restore (hk : m.toKernel = n.toKernel) :
    ((restore s).exec m).2.toKernel = ((restore s).exec n).2.toKernel := by
  have hm := restore_restored s m
  have hn := restore_restored s n
  have htable : m.table = n.table := congrArg Kernel.table hk
  apply Kernel.ext
  case table => rw [hm.table, hn.table, htable]
  case registry => rw [hm.registry, hn.registry, congrArg Kernel.registry hk]
  case processes => rw [hm.processes, hn.processes, congrArg Kernel.processes hk]
  case schedule =>
    ext hart col : 2
    rw [hm.schedule, hn.schedule, htable, congrArg Kernel.schedule hk]

end Machine

namespace Takes

/-- Taking the same back does the same on equal kernels, whatever the boards are. -/
theorem kernel_eq (ht : Takes s ds m m') (hk : m.toKernel = n.toKernel) (ht' : Takes s ds n n') :
    m'.toKernel = n'.toKernel := by
  induction ht generalizing n with
  | nil =>
    cases ht'
    exact hk
  | cons b hn hr _ ih =>
    cases ht' with
    | cons b' hn' hr' ht' =>
      apply ih _ ht'
      exact Machine.kernel_takeBack hk hr

/-- What can be taken back on one kernel can be taken back on an equal one. -/
theorem carry (ht : Takes s ds m m') (hk : m.toKernel = n.toKernel) : ∃ n', Takes s ds n n' := by
  induction ht generalizing n with
  | nil => exact ⟨n, .nil n⟩
  | @cons d ds m m' b hn hr _ ih =>
    have htable : m.table = n.table := congrArg Kernel.table hk
    obtain ⟨n', ht'⟩ := ih (n := ((Machine.takeBack s d).exec n).2.onBoard b)
      (Machine.kernel_takeBack hk hr)
    exact ⟨n', .cons b (htable ▸ hn) (htable ▸ hr) ht'⟩

/-- Taking back goes on where it stopped. -/
theorem append (ht : Takes s ds m n) (ht' : Takes s ds' n n') : Takes s (ds ++ ds') m n' := by
  induction ht with
  | nil => exact ht'
  | cons b hn hr _ ih => exact .cons b hn hr (ih ht')

end Takes

/-! ## What a preempted revocation leaves -/

/-- Has the second machine been left by revocations of a slot that were preempted, beginning with
the first? Its kernel is that of a run over the front of what is to be taken back, and what is
behind is still to be taken back. -/
def Begun (s : Slot) (m n : Machine) : Prop :=
  ∃ ds k, Takes s ds m k ∧ k.toKernel = n.toKernel ∧
    m.table.descendants s = ds ++ n.table.descendants s

namespace Begun

theorem refl (s : Slot) (m : Machine) : Begun s m m :=
  ⟨[], m, .nil m, rfl, rfl⟩

/-- The line is in order when a revocation has begun. -/
theorem lineal (hb : Begun s m n) (hl : m.table.Lineal) : n.table.Lineal := by
  obtain ⟨ds, k, ht, hk, _⟩ := hb
  rw [← congrArg Kernel.table hk]
  exact ht.lineal hl

/-- The range is still there when a revocation has begun. -/
theorem occupied (hb : Begun s m n) (hl : m.table.Lineal) (hs : m.table.get s ≠ .null) :
    n.table.get s ≠ .null := by
  obtain ⟨ds, k, ht, hk, _⟩ := hb
  rw [← congrArg Kernel.table hk]
  exact Capability.ne_null_of_outline (ht.outline_self hl).symm hs

/-- Going on with what is left leaves what a longer run from the beginning leaves. -/
theorem takes (hb : Begun s m n) (ht : Takes s ds n n₁)
    (hd : n.table.descendants s = ds ++ ds') : ∃ ds₀ k, Takes s (ds₀ ++ ds) m k ∧
      k.toKernel = n₁.toKernel ∧ m.table.descendants s = (ds₀ ++ ds) ++ ds' := by
  obtain ⟨ds₀, k, ht₀, hk, hd₀⟩ := hb
  obtain ⟨k₁, ht₁⟩ := ht.carry hk.symm
  refine ⟨ds₀, k₁, ht₀.append ht₁, ht₁.kernel_eq hk ht, ?_⟩
  rw [hd₀, hd, List.append_assoc]

end Begun

namespace Machine

/-- A call that is preempted goes on with what is left. It empties an occupied slot, so that less
is left than before. -/
theorem revokeCapability_preempted (hb : Begun s m n) (hl : m.table.Lineal)
    (hs : m.table.get s ≠ .null) {b : Board}
    (he : (revokeCapability h s).exec (n.onBoard b) = (.error .preempted, n')) :
    Begun s m n' ∧ (n'.table.descendants s).length < (n.table.descendants s).length ∧
      ∃ x, n.table.get x ≠ .null ∧ n'.table.get x = .null := by
  have hn : (n.onBoard b).table.Lineal := hb.lineal hl
  obtain ⟨ds, rest, n₁, hd, ht, ⟨_, he'⟩ | ⟨hne, he'⟩⟩ :=
    revokeCapability_runs hn h (hb.occupied hl hs)
  · rw [he'] at he
    cases he
  · rw [he'] at he
    cases he
    have hleft : n₁.table.descendants s = rest := ht.descendants hn hd
    obtain ⟨ds₀, k, hk, heq, hd₀⟩ := Begun.takes (n := n.onBoard b) hb ht hd
    refine ⟨⟨ds₀ ++ ds, k, hk, heq, hleft ▸ hd₀⟩, ?_, ?_⟩
    · show (n₁.table.descendants s).length < ((n.onBoard b).table.descendants s).length
      have := List.length_pos_iff.2 hne
      rw [hleft, hd, List.length_append]
      omega
    · -- the timer is asked after a descendant has been taken back, so there is one
      obtain ⟨d, hmem⟩ := List.exists_mem_of_ne_nil ds hne
      have hds : d ≠ s := fun he => ht.not_mem_self hn (he ▸ hmem)
      refine ⟨d, ht.get_of_mem hn hmem, ?_⟩
      show n₁.table.get d = .null
      rw [ht.get hds, if_pos hmem]

/-- A call that completes leaves what is left of the whole run once the capability is restored. -/
theorem revokeCapability_completed (hb : Begun s m n) (hl : m.table.Lineal)
    (hs : m.table.get s ≠ .null) {b : Board}
    (he : (revokeCapability h s).exec (n.onBoard b) = (.ok (), n')) :
    ∃ k, Takes s (m.table.descendants s) m k ∧
      n'.toKernel = ((restore s).exec k).2.toKernel := by
  have hn : (n.onBoard b).table.Lineal := hb.lineal hl
  obtain ⟨ds, rest, n₁, hd, ht, ⟨rfl, he'⟩ | ⟨_, he'⟩⟩ :=
    revokeCapability_runs hn h (hb.occupied hl hs)
  · rw [he'] at he
    cases he
    -- what was taken back before and what is taken back now are all descendants
    obtain ⟨ds₀, k, hk, heq, hd₀⟩ := Begun.takes (n := n.onBoard b) hb ht hd
    rw [List.append_nil] at hd₀
    exact ⟨k, hd₀ ▸ hk, kernel_restore heq.symm⟩
  · rw [he'] at he
    cases he

/-! ## What the timer answers -/

/-- The interrupt is forced when there is nothing left to count. -/
theorem isPending_countDown {t : Timer} {time : Nat} (ht : t.isPending time = false) :
    t.countDown.isPending time = decide (t.countdown = some 0) := by
  unfold Timer.countDown
  split
  · next hc => simp [hc, ht]
  · next hc => simp [hc, Timer.isPending]
  · next k hc => simpa [hc, Timer.isPending] using ht

/-- A timer whose interrupt is not pending lets as many slots be emptied as it counts down, and one
more. So every number of refusals before the interrupt is the countdown of some timer. -/
theorem takeAllBack_answer (ds : List Slot)
    (hp : (m.board.timer h).isPending m.board.time = false) :
    ((takeAllBack h s ds).exec m).1 =
      (m.board.timer h).countdown.all fun k => decide (ds.length ≤ k) := by
  induction ds generalizing m with
  | nil => cases (m.board.timer h).countdown <;> rfl
  | cons d ds ih =>
    obtain ⟨m₁, hm₁⟩ : ∃ m₁, m₁ = ((takeBack s d).exec m).2.onBoard (m.board.poll h).2 := ⟨_, rfl⟩
    have hexec : (takeAllBack h s (d :: ds)).exec m =
        (if (m.board.poll h).1 then pure false else takeAllBack h s ds : Action Bool).exec m₁ := by
      rw [hm₁, ← (takeBack_clerical s d m).board]
      rfl
    have htimer : m₁.board.timer h = (m.board.timer h).countDown := by
      rw [hm₁]
      exact (Board.timer_setTimer ..).trans (if_pos rfl)
    have htime : m₁.board.time = m.board.time := by
      rw [hm₁]
      rfl
    have hask : (m.board.poll h).1 = decide ((m.board.timer h).countdown = some 0) :=
      isPending_countDown hp
    rw [hexec, hask]
    -- the countdown decides how often the timer may be asked before it interrupts
    by_cases h0 : (m.board.timer h).countdown = some 0
    · rw [h0, decide_eq_true rfl, if_pos rfl]
      rfl
    · rw [decide_eq_false h0, if_neg Bool.false_ne_true, ih, htimer]
      · unfold Timer.countDown
        cases hc : (m.board.timer h).countdown with
        | none => simp [hc]
        | some k =>
          cases k with
          | zero => exact absurd hc h0
          | succ k => simp
      · rw [htimer, htime, isPending_countDown hp, decide_eq_false h0]

/-- Without a countdown, and before the deadline, a revocation completes. -/
theorem exists_uninterrupted (h : Hart) (hs : m.table.get s ≠ .null) :
    ∃ b m', (revokeCapability h s).exec (m.onBoard b) = (.ok (), m') := by
  have hunset : Board.initial.timer h = .unset := lookup_replicate ..
  -- no timer is set, so that nothing is pending
  have hall : ((takeAllBack h s (m.table.descendants s)).exec (m.onBoard .initial)).1 = true := by
    rw [takeAllBack_answer]
    · show Option.all _ (Board.initial.timer h).countdown = true
      rw [hunset]
      rfl
    · show (Board.initial.timer h).isPending 0 = false
      rw [hunset]
      rfl
  exact ⟨.initial, _, revokeCapability_exec (m := m.onBoard .initial) hs (Prod.ext hall rfl)⟩

/-! ## Revoking what was revoked -/

/-- There is nothing to restore once everything is restored. -/
theorem restore_restored_exec (hs : m.table.get s ≠ .null)
    (hr : (m.table.get s).restored = m.table.get s) : (restore s).exec m = ((), m) := by
  have hset : (setCapability s (m.table.get s)).exec m = ((), m) := by
    have hnull : (m.table.get s).isNull = false := by
      rwa [Bool.eq_false_iff, ne_eq, Capability.isNull_iff]
    simp [setCapability_exec, hnull]
  unfold restore
  rw [Action.exec_bind, capability_exec]
  dsimp only
  rw [hr]
  split
  · next hart p hc =>
    -- everything that could be handed out again is not handed out
    have hm : ¬ p.base < p.mark := by
      rw [hc, Capability.restored] at hr
      have hp : p.reset = p := by injection hr
      have : p.base = p.mark := congrArg Span.mark hp
      bv_omega
    rw [if_neg hm]
    exact hset
  · exact hset

/-- A revocation with nothing to take back and nothing to restore does nothing. -/
theorem revokeCapability_idle (hs : m.table.get s ≠ .null)
    (hd : m.table.descendants s = []) (hr : (m.table.get s).restored = m.table.get s) :
    (revokeCapability h s).exec m = (.ok (), m) := by
  have hnone : (takeAllBack h s (m.table.descendants s)).exec m = (true, m) := by
    rw [hd]
    rfl
  rw [revokeCapability_exec hs hnone, if_pos rfl, restore_restored_exec hs hr]

/-- Once a call completed, revoking again completes at once and changes nothing. -/
theorem revokeCapability_again (hb : Begun s m n) (hl : m.table.Lineal)
    (hs : m.table.get s ≠ .null) (he : ((revokeCapability h s).exec n) = (.ok (), n')) (k : Hart)
    (b : Board) : (revokeCapability k s).exec (n'.onBoard b) = (.ok (), n'.onBoard b) := by
  have hn := hb.lineal hl
  have hns := hb.occupied hl hs
  obtain ⟨ds, rest, n₁, hd, ht, ⟨rfl, he'⟩ | ⟨_, he'⟩⟩ := revokeCapability_runs hn h hns
  · rw [he'] at he
    cases he
    rw [List.append_nil] at hd
    obtain ⟨hready, hreach⟩ := ht.ready_restore hn hns hd
    have htable : (((restore s).exec n₁).2.onBoard b).table = n₁.table.restore s :=
      (restore_restored s n₁).table
    have hget : (((restore s).exec n₁).2.onBoard b).table.get s = (n₁.table.get s).restored := by
      rw [htable, Table.restore, Table.get_set_self]
    have hout := Capability.outline_restored (n₁.table.get s)
    -- nothing is left to be taken back, and the range is restored already
    apply revokeCapability_idle
    · rw [hget]
      exact Capability.ne_null_of_outline hout.symm hready
    · rw [htable, List.eq_nil_iff_forall_not_mem]
      intro y hy
      obtain ⟨hbefore, hr⟩ := ((ht.lineal hn).restore hready hreach).mem_descendants.1 hy
      rw [Table.restore, Table.before_set] at hbefore
      rw [Table.restore, Table.get_set_self, Table.get_set_of_ne _ _ ?_,
        Capability.mayRevoke_congr hout rfl, hreach y hbefore] at hr
      · cases hr
      · rintro rfl
        exact (ht.lineal hn).strung.not_before_self _ hbefore
    · rw [hget, Capability.restored_restored]
  · rw [he'] at he
    cases he

/-! ## Revoking until it is done -/

/-- The machine after a number of calls, each on a hart and a board of its own. -/
def insist (s : Slot) (calls : Nat → Hart × Board) (m : Machine) : Nat → Machine
  | 0 => m
  | i + 1 => ((revokeCapability (calls i).1 s).exec
      ((insist s calls m i).onBoard (calls i).2)).2

def insistAnswer (s : Slot) (calls : Nat → Hart × Board) (m : Machine) (i : Nat) :
    Except Error Unit :=
  ((revokeCapability (calls i).1 s).exec ((insist s calls m i).onBoard (calls i).2)).1

variable {calls : Nat → Hart × Board} {i : Nat}

theorem insist_exec (s : Slot) (calls : Nat → Hart × Board) (m : Machine) (i : Nat) :
    (revokeCapability (calls i).1 s).exec ((insist s calls m i).onBoard (calls i).2) =
      (insistAnswer s calls m i, insist s calls m (i + 1)) := rfl

/-- As long as all calls are preempted, they leave the rest to the next, and less each time. -/
theorem begun_insist (hl : m.table.Lineal) (hs : m.table.get s ≠ .null)
    (hp : ∀ j < i, insistAnswer s calls m j = .error .preempted) :
    Begun s m (insist s calls m i) ∧
      ((insist s calls m i).table.descendants s).length + i ≤ (m.table.descendants s).length := by
  induction i with
  | zero => exact ⟨.refl s m, Nat.le_refl _⟩
  | succ i ih =>
    obtain ⟨hb, hlen⟩ := ih fun j hj => hp j (Nat.lt_succ_of_lt hj)
    have he := insist_exec s calls m i
    rw [hp i (Nat.lt_succ_self i)] at he
    obtain ⟨hb', hless, _⟩ := revokeCapability_preempted hb hl hs he
    exact ⟨hb', by omega⟩

/-- Sooner or later a call completes, and those before it are preempted. -/
theorem exists_completed (hl : m.table.Lineal) (hs : m.table.get s ≠ .null)
    (calls : Nat → Hart × Board) : ∃ i, insistAnswer s calls m i = .ok () ∧
      ∀ j < i, insistAnswer s calls m j = .error .preempted := by
  suffices h : ∃ i, insistAnswer s calls m i ≠ .error .preempted by
    classical
    have hp : ∀ j < Nat.find h, insistAnswer s calls m j = .error .preempted :=
      fun j hj => not_not.1 (Nat.find_min h hj)
    refine ⟨Nat.find h, ?_, hp⟩
    -- there is a capability, so the call is not refused
    have hb := (begun_insist hl hs hp).1
    obtain ⟨_, _, _, _, _, ⟨_, he⟩ | ⟨_, he⟩⟩ :=
      revokeCapability_runs (m := (insist s calls m (Nat.find h)).onBoard (calls (Nat.find h)).2)
        (hb.lineal hl) (calls (Nat.find h)).1 (hb.occupied hl hs)
    · exact congrArg Prod.fst he
    · exact absurd (congrArg Prod.fst he) (Nat.find_spec h)
  by_contra hall
  rw [not_exists] at hall
  have hlen := (begun_insist (i := (m.table.descendants s).length + 1) hl hs
    fun j _ => not_not.1 (hall j)).2
  omega

end Machine

/-- A revocation that is preempted, however often and wherever, is repeated until it completes.
Every call that is preempted empties a slot. In the end the kernel is what it is after a revocation
that is never preempted, and revoking again changes nothing. Without a capability every call is
refused. -/
theorem revokeCapability_resumes (hm : Reachable roots m) (s : Slot) :
    (m.table.get s = .null → ∀ h b,
      (Machine.revokeCapability h s).exec (m.onBoard b) = (.error .empty, m.onBoard b)) ∧
    (m.table.get s ≠ .null → ∀ calls : Nat → Hart × Board, ∃ i,
      (∀ j < i, Machine.insistAnswer s calls m j = .error .preempted ∧
        ∃ x, (Machine.insist s calls m j).table.get x ≠ .null ∧
          (Machine.insist s calls m (j + 1)).table.get x = .null) ∧
      Machine.insistAnswer s calls m i = .ok () ∧
      (∀ h, ∃ b m', (Machine.revokeCapability h s).exec (m.onBoard b) = (.ok (), m')) ∧
      (∀ h b m', (Machine.revokeCapability h s).exec (m.onBoard b) = (.ok (), m') →
        (Machine.insist s calls m (i + 1)).toKernel = m'.toKernel) ∧
      ∀ h b, (Machine.revokeCapability h s).exec ((Machine.insist s calls m (i + 1)).onBoard b) =
        (.ok (), (Machine.insist s calls m (i + 1)).onBoard b)) := by
  have hl := hm.lineal
  constructor
  · intro hs h b
    obtain ⟨_, he⟩ | ⟨hne, _⟩ := Machine.revokeCapability_cases (m := m.onBoard b) hl h s
    · exact he
    · exact absurd hs hne
  intro hs calls
  -- each call that is interrupted has emptied a slot, so that one of them comes to the end
  obtain ⟨i, hok, hp⟩ := Machine.exists_completed hl hs calls
  have hb := (Machine.begun_insist hl hs hp).1
  have he := Machine.insist_exec s calls m i
  rw [hok] at he
  refine ⟨i, ?_, hok, fun h => Machine.exists_uninterrupted h hs, ?_, ?_⟩
  · intro j hj
    have hj' := (Machine.begun_insist hl hs fun k hk => hp k (Nat.lt_trans hk hj)).1
    have hej := Machine.insist_exec s calls m j
    rw [hp j hj] at hej
    exact ⟨hp j hj, (Machine.revokeCapability_preempted hj' hl hs hej).2.2⟩
  · intro h b m' he'
    obtain ⟨k, ht, hk⟩ := Machine.revokeCapability_completed hb hl hs he
    obtain ⟨k', ht', hk'⟩ := Machine.revokeCapability_completed (.refl s m) hl hs he'
    -- both have taken back all descendants, and then restored the range
    rw [hk, hk']
    exact Machine.kernel_restore (ht.kernel_eq rfl ht')
  · intro h b
    exact Machine.revokeCapability_again (n := (Machine.insist s calls m i).onBoard (calls i).2)
      hb hl hs he h b

/-- The timer interrupt is pending all the time. Each call takes back one of three capabilities, the
youngest first, and in the end the kernel is what one call leaves that was not preempted. -/
theorem revokeCapability_resumes_pending : ∃ m m',
    Reachable [.wholeTime 0 0 64, .wholeMonitor 0 4] m ∧
      (Machine.revokeCapability 0 ⟨0, 1⟩).exec (m.onBoard .initial) = (.ok (), m') ∧
      m'.table.get ⟨0, 1⟩ = .wholeMonitor 0 4 ∧
      ∃ i, 2 ≤ i ∧
        (Machine.insist ⟨0, 1⟩ (fun _ => (0, Board.initial.setDeadline 0 0)) m 1).table.get ⟨1, 1⟩ =
          .wholeMonitor 1 2 ∧
        (Machine.insist ⟨0, 1⟩ (fun _ => (0, Board.initial.setDeadline 0 0)) m (i + 1)).toKernel =
          m'.toKernel := by
  obtain ⟨m, hm⟩ : ∃ m, m = Machine.afterAll [.wholeTime 0 0 64, .wholeMonitor 0 4]
    [(0, .capDerive ⟨0, 1⟩ ⟨1, 0⟩ (.wholeMonitor 0 1)),
      (0, .capDerive ⟨0, 1⟩ ⟨1, 1⟩ (.wholeMonitor 1 2)),
      (0, .capDerive ⟨0, 1⟩ ⟨1, 2⟩ (.wholeMonitor 2 3))] := ⟨_, rfl⟩
  have hreach : Reachable [.wholeTime 0 0 64, .wholeMonitor 0 4] m := hm ▸ .afterAll rfl _
  have hs : m.table.get ⟨0, 1⟩ ≠ .null := by rw [hm]; decide +kernel
  obtain ⟨m', hm'⟩ : ∃ m', m' =
    ((Machine.revokeCapability 0 ⟨0, 1⟩).exec (m.onBoard .initial)).2 := ⟨_, rfl⟩
  have hok : ((Machine.revokeCapability 0 ⟨0, 1⟩).exec (m.onBoard .initial)).1 = .ok () := by
    rw [hm]; decide +kernel
  have he : (Machine.revokeCapability 0 ⟨0, 1⟩).exec (m.onBoard .initial) = (.ok (), m') :=
    Prod.ext hok hm'.symm
  obtain ⟨i, _, hdone, _, hsame, _⟩ := (revokeCapability_resumes hreach ⟨0, 1⟩).2 hs
    fun _ => (0, Board.initial.setDeadline 0 0)
  refine ⟨m, m', hreach, he, by rw [hm', hm]; decide +kernel, i, ?_, by rw [hm]; decide +kernel,
    hsame 0 .initial m' he⟩
  -- neither of the first two calls completes
  have hfirst : ∀ j < 2,
      Machine.insistAnswer ⟨0, 1⟩ (fun _ => (0, Board.initial.setDeadline 0 0)) m j
      ≠ .ok () := by rw [hm]; decide +kernel
  by_contra hi
  exact hfirst i (by omega) hdone

end SepKernel
