import SepKernel.Proofs.Channel.Waiter

/-!
# Whoever waits keeps a slot of its own

A process begins to wait with a slot of its own, into which a capability goes that comes with a
message. Whatever else happens, nobody begins to wait by it, and who waits keeps the same slot. So a
capability that comes with a message goes to the process that the message is for.
-/

namespace SepKernel

variable {m m' : Machine} {roots : List Capability} {s : Slot} {ds : List Slot}

/-! ## Nobody begins to wait -/

def Narrows (m m' : Machine) : Prop :=
  ∀ i r w, (m'.registry.get i).waiter r = some w → (m.registry.get i).waiter r = some w

instance : IsPreorder Machine Narrows where
  refl _ _ _ _ hw := hw
  trans _ _ _ h h' i r w hw := h i r w (h' i r w hw)

theorem Narrows.of_registry (h : m'.registry = m.registry) : Narrows m m' :=
  fun i r w hw => by rwa [h] at hw

theorem Narrows.of_silence {c : Capability} {p : Pid} (h : m'.registry = c.silence p m.registry) :
    Narrows m m' := by
  intro i r w hw
  rw [h] at hw
  exact (Capability.waiter_of_silence hw).1

/-- No deed enters anybody: a deed at most strikes out who waits over a socket that is given up. -/
theorem Deed.narrows (hd : Deed m m') : Narrows m m' := by
  -- a socket that is given away or deleted forgets its waiter, and nothing else touches the
  -- registry
  cases hd with
  | @move source target =>
    have hg := Machine.relocate_registry m source target (m.table.get source)
    split at hg
    · exact .of_registry hg
    · exact .of_silence hg
  | delete => exact .of_silence (Machine.discard_registry ..)
  | derive => exact .of_registry (Machine.bear_registry ..)
  | @load s r k =>
    obtain ⟨_, he⟩ := Machine.install_exec m s r k
    exact .of_registry (by rw [he])
  | @unload s r =>
    obtain ⟨_, he⟩ := Machine.uninstall_exec m s r
    exact .of_registry (by rw [he])

/-- Taking capabilities back, one after the other, only forgets waiters. -/
theorem Takes.narrows (ht : Takes s ds m m') : Narrows m m' := by
  induction ht with
  | nil m => exact refl_of Narrows m
  | @cons d ds m m' b _ _ _ ih =>
    have hback : Narrows m ((Machine.takeBack s d).exec m).2 :=
      .of_silence (Machine.takeBack_tookBack s d m).registry
    exact trans_of Narrows hback (trans_of Narrows (Machine.onBoard_hushed _ b).waiter ih)

/-- Revoking strikes out who waits over the sockets that it takes back, wherever it stops. -/
theorem Machine.revokeCapability_narrows (h : Hart) (s : Slot) (hl : m.table.Lineal) :
    Narrows m ((revokeCapability h s).exec m).2 := by
  rcases revokeCapability_cases hl h s with ⟨_, he⟩ | ⟨_, taken, rest, m₁, _, ht, ⟨_, he⟩ | he⟩
  · rw [he]
    exact refl_of Narrows m
  · rw [he]
    exact trans_of Narrows ht.narrows (.of_registry (restore_restored s m₁).registry)
  · rw [he]
    exact trans_of Narrows ht.narrows ((note_aside fun _ => rfl).hushed m₁).waiter

/-! ## Slots for capabilities -/

/-- Does everybody who waits keep a slot of its own? -/
def Machine.Buffered (m : Machine) : Prop :=
  ∀ i r w, (m.registry.get i).waiter r = some w → w.buffer.owner = w.pid

theorem Narrows.buffered (h : Narrows m m') (hm : m.Buffered) : m'.Buffered :=
  fun i r w hw => hm i r w (h i r w hw)

/-- Whoever begins to wait names a slot of its own. -/
theorem Machine.await_buffered {k : Socket} {p : Pid} {b : Slot} (hb : b.owner = p)
    (hm : m.Buffered) : ((await k p b).exec m).2.Buffered := by
  intro i r w hw
  rcases waiter_of_await hw with ⟨rfl, _, _⟩ | hw
  · exact hb
  · exact hm i r w hw

theorem acrossWork_buffered :
    AcrossWork (Preserves fun m => m.table.Lineal ∧ m.Buffered) where
  hushed hh hP := ⟨by rw [hh.table]; exact hP.1, Narrows.buffered hh.waiter hP.2⟩
  deed hd hP := ⟨(Change.deed hd).lineal hP.1, hd.narrows.buffered hP.2⟩

/-- An operation keeps the buffers in order. Only the operations that end in a wait enter
somebody. -/
theorem Operation.perform_buffered (h : Hart) (op : Operation) :
    (op.perform h).Keeps (Preserves fun m => m.table.Lineal ∧ m.Buffered) := by
  apply op.perform_keeps acrossWork_buffered h
  · intro s _ m hP
    refine ⟨?_, (Machine.revokeCapability_narrows h s hP.1).buffered hP.2⟩
    exact lineal_of_changes (Machine.revokeCapability_sequel h s m hP.1) hP.1
  · -- the operations that wait in the end
    intro s hs m
    apply hs.perform_at _ h
    constructor
    case hushed => exact acrossWork_buffered.hushed
    case move => exact fun _ hn hv => acrossWork_buffered.deed (.move hn hv)
    case delete => exact fun _ hn => acrossWork_buffered.deed (.delete hn)
    case await =>
      intro k b _ hb m hP
      have ht := (Machine.await_quiet k s.owner b m).table
      exact ⟨by rw [ht]; exact hP.1, Machine.await_buffered hb hP.2⟩

/-- In every reachable machine, whoever is in the registry names a slot of its own. -/
theorem Reachable.buffered (hm : Reachable roots m) : m.Buffered := by
  induction hm with
  | boot hb =>
    intro i r w hw
    rw [boot_silent hb] at hw
    cases hw
  | @step m m' hr hs ih =>
    rcases hs.cases with hh | ⟨op, hp⟩
    · exact Narrows.buffered hh.waiter ih
    rcases hp.amounts with hh | ⟨h, m₁, h₁, h₂⟩
    · exact Narrows.buffered hh.waiter ih
    have hl : m₁.table.Lineal := by
      rw [h₁.table]
      exact hr.lineal
    -- only operations enter somebody, and they begin on a machine that is lineal
    have hperformed := op.perform_buffered h m₁ ⟨hl, Narrows.buffered h₁.waiter ih⟩
    exact Narrows.buffered h₂.waiter hperformed.2

/-- Whoever waits at an end of a channel keeps a slot of its own. -/
theorem Reachable.owner_buffer (hm : Reachable roots m) {chan : BitVec 16} {r : Role} {w : Waiter}
    (hw : m.registry.waiter chan r = some w) : w.buffer.owner = w.pid := by
  obtain ⟨i, _, hi⟩ := Option.bind_eq_some_iff.1 hw
  exact hm.buffered i r w hi

end SepKernel
