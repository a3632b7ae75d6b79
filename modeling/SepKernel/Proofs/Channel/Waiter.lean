import SepKernel.Proofs.Machine.Release

/-!
# Whoever waits has a socket

A process begins to wait over a socket, and gives the socket up by moving, deleting or sending it
away, or when it is revoked. Whichever way it goes, the registry forgets about the process. So
whoever waits at one end of a channel has a socket of that end.

There is one way around this. A process that sends a message and waits for the answer begins to wait
after the message has left. If the capability that goes along with the message is the very socket
that the process waits over, then it waits without.
-/

namespace SepKernel

open Relation (ReflTransGen)

variable {m m' : Machine} {roots : List Capability} {t t' : Table} {s d x : Slot} {ds : List Slot}
  {p : Pid} {i : Fin 16} {r : Role}

/-! ## Who is forgotten -/

/-- Whoever still waits after a process gave up a socket did so before, and is not that process at
that end. -/
theorem Channel.waiter_of_forget {k : Channel} {role : Role} {q : Pid} {w : Waiter}
    (hw : (k.forget role q).waiter r = some w) :
    k.waiter r = some w ∧ (r = role → w.pid ≠ q) := by
  cases role with
  | server => cases r <;> cases hw
  | client =>
    cases r with
    | server =>
      refine ⟨?_, fun he => by cases he⟩
      rw [forget] at hw
      split at hw <;> exact hw
    | client => exact ⟨client_of_forget hw, fun _ => ne_of_client_forget hw⟩

/-- Whoever is still in the registry was there before, and did not give this socket up. -/
theorem Capability.waiter_of_silence {c : Capability} {q : Pid} {g : Registry} {w : Waiter}
    (hw : ((c.silence q g).get i).waiter r = some w) :
    (g.get i).waiter r = some w ∧
      ∀ k, c = .socket k → k.chan.toNat = i.val → k.role = r → w.pid ≠ q := by
  by_cases hc : ∃ k, c = .socket k ∧ k.chan.toNat = i.val
  · obtain ⟨k, rfl, hi⟩ := hc
    rw [get_silence_socket k q g hi] at hw
    obtain ⟨hw, hne⟩ := Channel.waiter_of_forget hw
    refine ⟨hw, ?_⟩
    rintro _ ⟨⟩ _ hr
    exact hne hr.symm
  · rw [get_silence_of_ne (fun k hk hi => hc ⟨k, hk, hi⟩)] at hw
    exact ⟨hw, fun k hk hi => absurd ⟨k, hk, hi⟩ hc⟩

/-! ## Sockets of those who wait -/

def Table.Attends (t : Table) (p : Pid) (i : Fin 16) (r : Role) : Prop :=
  ∃ x k, x.owner = p ∧ t.get x = .socket k ∧ k.chan.toNat = i.val ∧ k.role = r

/-- Does everybody who waits have a socket for it? -/
def Machine.Attended (m : Machine) : Prop :=
  ∀ i r w, (m.registry.get i).waiter r = some w → m.table.Attends w.pid i r

/-- Nobody begins to wait, and nobody loses a socket. -/
theorem Machine.Attended.mono (h : m.Attended)
    (hw : ∀ i r w, (m'.registry.get i).waiter r = some w → (m.registry.get i).waiter r = some w)
    (ht : ∀ p i r, m.table.Attends p i r → m'.table.Attends p i r) : m'.Attended :=
  fun i r w hi => ht _ i r (h i r w (hw i r w hi))

theorem Table.Attends.mono (h : t.Attends p i r)
    (ht : ∀ x k, t.get x = .socket k → t'.get x = .socket k) : t'.Attends p i r := by
  obtain ⟨x, k, hx, hk, hi⟩ := h
  exact ⟨x, k, hx, ht x k hk, hi⟩

theorem Hushed.attended (hh : Hushed m m') (h : m.Attended) : m'.Attended :=
  h.mono hh.waiter fun _ _ _ ha => by rwa [hh.table]

/-- The owner of a slot gives up what is in it, and no other socket is lost. -/
structure Forgoes (x : Slot) (m m' : Machine) : Prop where
  registry : m'.registry = (m.table.get x).silence x.owner m.registry
  socket : ∀ y k, y ≠ x → m.table.get y = .socket k → m'.table.get y = .socket k

/-- Giving a socket up keeps the others attended, as those who waited over it are struck out. -/
theorem Forgoes.attended (hf : Forgoes x m m') (h : m.Attended) : m'.Attended := by
  intro i r w hw
  rw [hf.registry] at hw
  obtain ⟨hw, hne⟩ := Capability.waiter_of_silence hw
  obtain ⟨y, k, hy, hk, hi, hr⟩ := h i r w hw
  -- if it was the lost socket, its owner was forgotten
  have hyx : y ≠ x := by
    rintro rfl
    exact hne k hk hi hr hy.symm
  exact ⟨y, k, hy, hf.socket y k hyx hk, hi, hr⟩

theorem Capability.Reseats.socket {c : Capability} {k : Socket} (h : (socket k).Reseats c) :
    c = .socket k := by
  cases h
  rfl

/-! ## Moving and deleting -/

section Moving
variable {source target : Slot}

/-- A move leaves the sockets in other slots alone. -/
theorem Table.Strung.socket_relink (hl : t.Strung) {c : Capability} {y : Slot} {k : Socket}
    (hv : t.get target = .null) (hc : (t.get source).Reseats c) (hy : y ≠ source)
    (hk : t.get y = .socket k) : (t.relink source target c).get y = .socket k := by
  have hyt : y ≠ target := by
    rintro rfl
    rw [hk] at hv
    cases hv
  have hre := hl.reseats_relink hv hc y
  rw [Equiv.swap_apply_of_ne_of_ne hy hyt, hk] at hre
  exact hre.socket

theorem Machine.relocate_socket (hl : m.table.Strung) {y : Slot} {k : Socket}
    (hv : m.table.get target = .null) (hy : y ≠ source) (hk : m.table.get y = .socket k) :
    ((relocate source target (m.table.get source)).exec m).2.table.get y = .socket k := by
  rw [relocate_table]
  exact hl.socket_relink hv (reseats_arriving ..) hy hk

theorem Machine.relocate_forgoes (hl : m.table.Strung) (hv : m.table.get target = .null)
    (ho : source.owner ≠ target.owner) :
    Forgoes source m ((relocate source target (m.table.get source)).exec m).2 where
  registry := by rw [relocate_registry, if_neg ho]
  socket _ _ hy hk := relocate_socket hl hv hy hk

theorem Machine.discard_forgoes (s : Slot) (m : Machine) :
    Forgoes s m ((discardCapability s (m.table.get s)).exec m).2 where
  registry := discard_registry m s _
  socket y k hy hk := by rw [discard_table, Table.get_unlink, if_neg hy.symm, hk]

/-- What is taken back is given up by its owner. -/
theorem Machine.TookBack.forgoes (ht : TookBack s d m m') : Forgoes d m m' where
  registry := ht.registry
  socket y k hy hk := by
    rw [ht.table]
    refine Capability.outline_eq_socket ?_
    rw [Table.outline_takeBack hy, hk]

/-- A socket that moves within its process stays with it. -/
theorem Table.Attends.relink (h : t.Attends p i r) (hl : t.Strung) {c : Capability}
    (hv : t.get target = .null) (hc : (t.get source).Reseats c)
    (ho : source.owner = target.owner) : (t.relink source target c).Attends p i r := by
  obtain ⟨y, k, hy, hk, hi⟩ := h
  rcases eq_or_ne y source with rfl | hys
  · have hre := hl.reseats_relink hv hc target
    rw [Equiv.swap_apply_right, hk] at hre
    exact ⟨target, k, by rw [← ho, hy], hre.socket, hi⟩
  · exact ⟨y, k, hy, hl.socket_relink hv hc hys hk, hi⟩

end Moving

/-! ## Changes -/

/-- Whatever the deed, everybody who waits afterwards has a socket for it. -/
theorem Deed.attended (hd : Deed m m') (hl : m.table.Lineal) (h : m.Attended) : m'.Attended := by
  cases hd with
  | @move source target _ hv =>
    by_cases ho : source.owner = target.owner
    · -- within a process, the socket is in another slot of the same owner
      have hg := Machine.relocate_registry m source target (m.table.get source)
      rw [if_pos ho] at hg
      refine h.mono (fun i r w hw => by rwa [hg] at hw) fun p i r ha => ?_
      rw [Machine.relocate_table]
      exact ha.relink hl.strung hv (Machine.reseats_arriving ..) ho
    · exact (Machine.relocate_forgoes hl.strung hv ho).attended h
  | delete => exact (Machine.discard_forgoes ..).attended h
  | @derive source target c hd hv =>
    have hg := Machine.bear_registry m source target c (m.table.get source)
    refine h.mono (fun i r w hw => by rwa [hg] at hw) fun p i r ha => ha.mono fun y k hk => ?_
    -- no socket is overwritten, for the target was vacant
    have hy : y ≠ target := by
      rintro rfl
      rw [hk] at hv
      cases hv
    rw [Machine.bear_table]
    exact Capability.outline_eq_socket (by rw [hl.outline_derive hv hd hy, hk])
  | @load s r k hs =>
    obtain ⟨_, he⟩ := Machine.install_exec m s r k
    rw [he]
    refine h.mono (fun _ _ _ hw => hw) fun p i r ha => ha.mono fun y k hk => ?_
    rw [Table.get_set_of_ne _ _ (by rintro rfl; rw [hk] at hs; cases hs), hk]
  | @unload s r hs =>
    obtain ⟨_, he⟩ := Machine.uninstall_exec m s r
    rw [he]
    refine h.mono (fun _ _ _ hw => hw) fun p i r ha => ha.mono fun y k hk => ?_
    rw [Table.get_set_of_ne _ _ (by rintro rfl; rw [hk] at hs; cases hs), hk]

/-- Taking back one capability after the other keeps whoever waits attended. -/
theorem Takes.attended (ht : Takes s ds m m') (h : m.Attended) : m'.Attended := by
  induction ht with
  | nil => exact h
  | @cons d ds m m' b _ _ _ ih =>
    have hback := (Machine.takeBack_tookBack s d m).forgoes.attended h
    exact ih ((Machine.onBoard_hushed _ b).attended hback)

/-- Restoring a range is no matter of sockets. -/
theorem Machine.Restored.attended (hr : Restored s m m') (h : m.Attended) : m'.Attended := by
  refine h.mono (fun i r w hw => by rwa [hr.registry] at hw) fun p i r ha => ?_
  refine ha.mono fun y k hk => ?_
  rw [hr.table, Table.restore, Table.get_set]
  split
  · next hsy =>
    rw [hsy]
    exact Capability.outline_eq_socket (by rw [Capability.outline_restored, hk])
  · exact hk

/-- Revoking keeps whoever waits attended, wherever it stops. -/
theorem Machine.revokeCapability_attended (h : Hart) (hl : m.table.Lineal) (ha : m.Attended)
    (s : Slot) : ((revokeCapability h s).exec m).2.Attended := by
  rcases revokeCapability_cases hl h s with ⟨_, he⟩ | ⟨_, taken, rest, m₁, _, ht, ⟨_, he⟩ | he⟩
  · rw [he]
    exact ha
  · rw [he]
    exact (restore_restored s m₁).attended (ht.attended ha)
  · rw [he]
    exact ((note_aside fun _ => rfl).hushed m₁).attended (ht.attended ha)

/-! ## Waiting -/

theorem Machine.await_registry (k : Socket) (p : Pid) (b : Slot) (m : Machine) :
    ((await k p b).exec m).2.registry = m.registry.setWaiter k.chan k.role (some ⟨p, b⟩) := by
  simp [await]

/-- Whoever waits once a process has begun to wait is that process, or did so before. -/
theorem Machine.waiter_of_await {k : Socket} {p : Pid} {b : Slot} {i : Fin 16} {r : Role}
    {w : Waiter} (hw : (((await k p b).exec m).2.registry.get i).waiter r = some w) :
    (w = ⟨p, b⟩ ∧ k.chan.toNat = i.val ∧ k.role = r) ∨ (m.registry.get i).waiter r = some w := by
  rw [await_registry, Registry.get_setWaiter] at hw
  split at hw
  · next hi =>
    rw [Channel.waiter_setWaiter] at hw
    split at hw
    · next hr => exact .inl ⟨(Option.some.inj hw).symm, hi, hr⟩
    · exact .inr hw
  · exact .inr hw

/-- Whoever begins to wait over a socket that it has, has a socket for it. -/
theorem Machine.await_attended {k : Socket} (hk : m.table.get s = .socket k) (h : m.Attended)
    (b : Slot) : ((await k s.owner b).exec m).2.Attended := by
  intro i r w hw
  rw [(await_quiet k s.owner b m).table]
  rcases waiter_of_await hw with ⟨rfl, hi, hr⟩ | hw
  · exact ⟨s, k, rfl, hk, hi, hr⟩
  · exact h i r w hw

/-- Does a process send away, in an operation, the socket over which it then waits? -/
def Operation.SendsItself (op : Operation) : Prop :=
  ∃ s, op.WaitsAt s ∧ op.Ships s

theorem acrossWork_attended :
    AcrossWork (Preserves fun m => m.table.Lineal ∧ m.Attended) where
  hushed hh hP := ⟨by rw [hh.table]; exact hP.1, hh.attended hP.2⟩
  deed hd hP := ⟨(Change.deed hd).lineal hP.1, hd.attended hP.1 hP.2⟩

/-- While an operation goes on that does not send away the socket in a slot, the socket stays, and
everybody who waits has a socket for it. -/
theorem acrossWait_attended {leaves : Slot → Prop} (hs : ¬ leaves s) (m : Machine) :
    Machine.AcrossWait (Preserves fun m' => (m'.table.Lineal ∧ m'.Attended) ∧
      ∀ k, m.table.get s = .socket k → m'.table.get s = .socket k) s leaves m where
  hushed hh hP := ⟨acrossWork_attended.hushed hh hP.1, fun k hk => by rw [hh.table, hP.2 k hk]⟩
  move hb hn hv hP := by
    refine ⟨acrossWork_attended.deed (.move hn hv) hP.1, fun k hk => ?_⟩
    refine Machine.relocate_socket hP.1.1.strung hv ?_ (hP.2 k hk)
    -- the socket that is waited over does not go along
    rintro rfl
    exact hs hb
  delete hb hn hP := by
    refine ⟨acrossWork_attended.deed (.delete hn) hP.1, fun k hk => ?_⟩
    refine (Machine.discard_forgoes ..).socket s k ?_ (hP.2 k hk)
    rintro rfl
    exact hs hb
  await {k b} hk _ m' hP := by
    have ht := (Machine.await_quiet k s.owner b m').table
    refine ⟨⟨by rw [ht]; exact hP.1.1, Machine.await_attended (hP.2 k hk) hP.1.2 b⟩, ?_⟩
    intro k' hk'
    rw [ht, hP.2 k' hk']

/-- Operations keep it so that whoever waits has a socket for it. -/
theorem Operation.perform_attended (h : Hart) {op : Operation} (hop : ¬ op.SendsItself)
    (hl : m.table.Lineal) (ha : m.Attended) : ((op.perform h).exec m).2.Attended := by
  refine (op.perform_keeps acrossWork_attended h ?_ ?_ m ⟨hl, ha⟩).2
  · intro s _ m hP
    refine ⟨?_, Machine.revokeCapability_attended h hP.1 hP.2 s⟩
    exact lineal_of_changes (Machine.revokeCapability_sequel h s m hP.1) hP.1
  · intro s hs m hP
    have hkeeps := hs.perform_at (acrossWait_attended (fun hb => hop ⟨s, hs, hb⟩) m) h
    exact (hkeeps ⟨hP, fun _ hk => hk⟩).1

/-- After booting nobody waits. -/
theorem boot_silent (hb : (Machine.boot roots).exec .initial = (.ok (), m)) (i : Fin 16)
    (r : Role) : (m.registry.get i).waiter r = none := by
  refine Machine.boot_keeps_any (P := fun m => ∀ i r, (m.registry.get i).waiter r = none) ?_ ?_ ?_
    hb i r
  · intro i r
    cases r <;> simp [Machine.initial, Kernel.blank, Registry.blank, Registry.get, lookup,
      Channel.quiet, Channel.waiter]
  · intro m m' hh hP i r
    rw [Option.eq_none_iff_forall_ne_some]
    intro w hw
    -- hushed work registers nobody
    exact absurd ((hP i r).symm.trans (hh.waiter i r w hw)) (by simp)
  · intro m m' j c _ _ hP hr i r
    rw [hr.registry, hP i r]

/-- As long as nobody sends away the socket over which it then waits, whoever waits at an end of a
channel has a socket of that end. -/
theorem socket_of_waiter (h : ReachableBy (fun _ op _ => ¬ op.SendsItself) roots m) (i : Fin 16)
    (r : Role) (w : Waiter) (hw : (m.registry.get i).waiter r = some w) :
    ∃ x k, x.owner = w.pid ∧ m.table.get x = .socket k ∧ k.chan.toNat = i.val ∧ k.role = r := by
  refine h.invariant (P := Machine.Attended) ?_ (fun _ _ hh => hh.attended) ?_ i r w hw
  · intro m hb i r w hw
    rw [boot_silent hb] at hw
    cases hw
  · exact fun m m₁ m' h op hl ha _ _ hk => op.perform_attended h hk hl ha

/-! ## A client that calls -/

/-- The machine after a process has carried out some operations, the last of which lends the hart to
another one. That one carries out an operation of its own, and the hart goes on. -/
def Machine.meet (m : Machine) (h : Hart) (p q : Pid) (ops : List (Hart × Operation))
    (op : Operation) : Machine :=
  let lent := ops.foldl (fun m op => ((op.2.run op.1).exec m).2) ((nextProcess h).exec m).2
  let done := ((op.run h).exec ((release p).exec lent).2).2
  ((nextProcess h).exec ((release q).exec done).2).2

/-- A client that meets a server by operations of the given kind leaves a machine that is reached by
them. -/
theorem ReachableBy.meet {kind : Machine → Operation → Machine → Prop}
    (hm : ReachableBy kind roots m) {ops : List (Hart × Operation)} {op : Operation}
    (hops : ∀ op ∈ ops, ∀ m m', kind m op.2 m') (hop : ∀ m m', kind m op m') (h : Hart)
    (p q : Pid) : ReachableBy kind roots (m.meet h p q ops op) := by
  have hlent := (hm.hushed (.dispatch h) (Machine.nextProcess_hushed h m)).foldl ops hops
  have hdone := (hlent.hushed (.release p) (Machine.release_hushed p _)).operation
    (.operation h op) (hop _ _)
  exact (hdone.hushed (.release q) (Machine.release_hushed q _)).hushed (.dispatch h)
    (Machine.nextProcess_hushed h _)

/-- A machine in which process 0 has the hart, and a client of channel 3 in its slot 4. It has given
the server of the channel to process 1, which waits and keeps its slot 1 for a capability. -/
theorem exists_meeting : ∃ m,
    ReachableBy (fun _ op _ => ¬ op.SendsItself)
      [.wholeTime 0 0 64, .wholeMonitor 0 8, .wholeChannel 0 16] m ∧
    m = Machine.meet
      ((Machine.boot [.wholeTime 0 0 64, .wholeMonitor 0 8, .wholeChannel 0 16]).exec .initial).2
      0 0 1
      [(0, .capDerive ⟨0, 2⟩ ⟨0, 3⟩ (.socket ⟨3, .yield, .ofBits 15, 0⟩)),
        (0, .capDerive ⟨0, 3⟩ ⟨0, 4⟩ (.socket ⟨3, .yield, .ofBits 15, 5⟩)),
        (0, .monCapMove ⟨0, 1⟩ ⟨0, 3⟩ ⟨1, 0⟩), (0, .monResume ⟨0, 1⟩ 1), (0, .monYield ⟨0, 1⟩ 1)]
      (.receive ⟨1, 0⟩ 1) := by
  -- none of these operations ships anything
  have hother : ∀ op : Operation, (∀ s, ¬ op.Ships s) → ¬ op.SendsItself :=
    fun op hop ⟨s, _, hs⟩ => hop s hs
  refine ⟨_, ?_, rfl⟩
  apply ReachableBy.meet (.boot rfl)
  · intro op hop _ _
    apply hother
    intro s hs
    simp only [List.mem_cons, List.not_mem_nil, or_false] at hop
    rcases hop with rfl | rfl | rfl | rfl | rfl <;> exact hs
  · exact fun _ _ => hother _ fun _ hs => hs

/-- The machine after a process has sent what is in a slot of its own over the socket in another
one, and waits for the answer. -/
def Machine.asked (m : Machine) (h : Hart) (s : Slot) (buffer : Nat) : Machine :=
  (((Operation.call s ⟨buffer, true, .replicate 4 0⟩).run h).exec m).2

/-- The client sends its monitor, waits for the answer, and has its socket. -/
theorem socket_of_waiter_sent : ∃ m,
    ReachableBy (fun _ op _ => ¬ op.SendsItself)
      [.wholeTime 0 0 64, .wholeMonitor 0 8, .wholeChannel 0 16] m ∧
      m.table.get ⟨1, 1⟩ = .wholeMonitor 0 8 ∧
      (m.registry.get 3).waiter .client = some ⟨0, ⟨0, 1⟩⟩ ∧
      ∃ x k, x.owner = 0 ∧ m.table.get x = .socket k ∧ k.chan.toNat = 3 ∧ k.role = .client := by
  obtain ⟨m, hm, he⟩ := exists_meeting
  have hsent : (m.asked 0 ⟨0, 4⟩ 1).table.get ⟨1, 1⟩ = .wholeMonitor 0 8 := by
    rw [he]; decide +kernel
  have hw : ((m.asked 0 ⟨0, 4⟩ 1).registry.get 3).waiter .client = some ⟨0, ⟨0, 1⟩⟩ := by
    rw [he]; decide +kernel
  have hasked : ReachableBy (fun _ op _ => ¬ op.SendsItself)
      [.wholeTime 0 0 64, .wholeMonitor 0 8, .wholeChannel 0 16] (m.asked 0 ⟨0, 4⟩ 1) := by
    refine hm.operation (.operation 0 _) ?_
    rintro ⟨s, rfl, _, _, hs⟩
    cases hs
  exact ⟨_, hasked, hsent, hw, socket_of_waiter hasked 3 .client _ hw⟩

/-- The client sends its only socket, and waits for the answer without any. -/
theorem waiter_without_socket : ∃ m,
    Reachable [.wholeTime 0 0 64, .wholeMonitor 0 8, .wholeChannel 0 16] m ∧
      (m.registry.get 3).waiter .client = some ⟨0, ⟨0, 4⟩⟩ ∧
      ∀ x k, x.owner = 0 → m.table.get x ≠ .socket k := by
  obtain ⟨m, hm, he⟩ := exists_meeting
  have hw : ((m.asked 0 ⟨0, 4⟩ 4).registry.get 3).waiter .client = some ⟨0, ⟨0, 4⟩⟩ := by
    rw [he]; decide +kernel
  have hnone : ∀ j, ((m.asked 0 ⟨0, 4⟩ 4).table.get ⟨0, j⟩).kind ≠ 6 := by rw [he]; decide +kernel
  refine ⟨m.asked 0 ⟨0, 4⟩ 4, hm.reachable.step (.operation 0 _), hw, ?_⟩
  rintro ⟨_, j⟩ k rfl hk
  exact hnone j (by rw [hk]; rfl)

end SepKernel
