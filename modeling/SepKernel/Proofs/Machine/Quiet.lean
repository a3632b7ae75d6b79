import SepKernel.Proofs.Machine.Aside

/-!
# Quiet work

Work of the kernel is *quiet* if it leaves the capabilities alone, and with them the schedule, the
protection registers and the genealogy. Asides are quiet, and so is everything that concerns the
status, the deadline or the registers of a process, the board, or who waits on which channel. Where
nobody begins to wait, quiet work is *hushed*.
-/

namespace SepKernel

/-! ## Processes -/

/-- The later of two processes stays. -/
theorem Processes.put_put (ps : Processes) (i : Pid) (a b : Process) :
    (ps.put i a).put i b = ps.put i b := by
  ext k
  simp only [get_put]
  split <;> rfl

namespace Process

variable {p q : Process}

@[simp] theorem bank_release (p : Process) : p.release.bank = p.bank := by
  simp only [release]
  split <;> rfl

@[simp] theorem bank_suspend (p : Process) : p.suspend.bank = p.bank := by
  simp only [suspend]
  split <;> rfl

/-- A process that can be taken was ready, or its wait was over. -/
theorem acquire?_cases {now : Nat} (h : p.acquire? now = some q) :
    (p.status = .ready ∧ q = { p with status := .running }) ∨
      ∃ c, p.status = .waiting c ∧ p.deadline ≤ now ∧
        q = if c = sleepChannel then { p with status := .running }
          else { p with status := .running }.report .timeout := by
  -- ready, or waiting past its deadline
  unfold acquire? at h
  split at h
  · next hs =>
    cases h
    exact .inl ⟨hs, rfl⟩
  · next c hs =>
    split at h
    · next hd =>
      cases h
      exact .inr ⟨c, hs, hd, rfl⟩
    · cases h
  · cases h

/-- A process that can be handed a message waits for it, and in time. -/
theorem receive?_eq {c : ChannelWord} {now deadline : Nat}
    (h : p.receive? c now deadline = some q) :
    p.status = .waiting c ∧ now < p.deadline ∧ q = { p with status := .running } := by
  unfold receive? at h
  -- neither the time of the sender nor that of the receiver has run out
  simp only at h
  split at h
  · cases h
  · next hin =>
    split at h
    · next hs =>
      cases h
      exact ⟨hs, Nat.lt_of_not_le fun hd => hin (.inr hd), rfl⟩
    · cases h

/-- Only a process that is not held can be had, and then it runs. -/
theorem acquire?_status {now : Nat} (h : p.acquire? now = some q) :
    p.status.busy = false ∧ q.status = .running := by
  obtain ⟨hs, rfl⟩ | ⟨c, hs, _, rfl⟩ := acquire?_cases h
  · exact ⟨by rw [hs]; rfl, rfl⟩
  · refine ⟨by rw [hs]; rfl, ?_⟩
    split <;> rfl

theorem receive?_status {c : ChannelWord} {now deadline : Nat}
    (h : p.receive? c now deadline = some q) : p.status.busy = false ∧ q.status = .running := by
  obtain ⟨hs, _, rfl⟩ := receive?_eq h
  exact ⟨by rw [hs]; rfl, rfl⟩

/-- Who is acquired keeps its bank. -/
theorem bank_of_acquire? {now : Nat} (h : p.acquire? now = some q) : q.bank = p.bank := by
  obtain ⟨_, rfl⟩ | ⟨c, _, _, rfl⟩ := acquire?_cases h
  · rfl
  · split <;> rfl

/-- The regions are left alone. -/
theorem bank_of_acquireStopped? (h : p.acquireStopped? = some q) : q.bank = p.bank := by
  unfold acquireStopped? at h
  split at h
  · cases h; rfl
  · cases h

theorem bank_of_receive? {c : ChannelWord} {now deadline : Nat}
    (h : p.receive? c now deadline = some q) : q.bank = p.bank := by
  rw [(receive?_eq h).2.2]

end Process

namespace Schedule

variable {s : Schedule} {ps : Processes} {h : Hart} {p : Pid} {q : Process}

/-- Who is fetched was acquired, and got a deadline. -/
theorem acquire?_of_fetch? {slot now : Nat} (hf : s.fetch? ps h slot now = some (p, q)) :
    ∃ q₀, (ps.get p).acquire? now = some q₀ ∧ q = { q₀ with deadline := q.deadline } := by
  simp only [fetch?, Option.bind_eq_bind, Option.bind_eq_some_iff] at hf
  obtain ⟨t, _, hf⟩ := hf
  split at hf
  · cases hf
  · obtain ⟨q₀, hq₀, hf⟩ := Option.bind_eq_some_iff.1 hf
    cases hf
    exact ⟨q₀, hq₀, rfl⟩

/-- Whom a decision finds could be acquired, and its deadline was set. -/
theorem acquire?_of_choose? {c : Choice} {now patience : Nat}
    (hc : s.choose? ps h now patience = some c) :
    ∃ q₀, (ps.get c.pid).acquire? c.time = some q₀ ∧
      c.process = { q₀ with deadline := c.process.deadline } := by
  obtain ⟨slot, _, hs⟩ := List.exists_of_findSome?_eq_some hc
  obtain ⟨r, hr, rfl⟩ := Option.map_eq_some_iff.1 hs
  exact acquire?_of_fetch? hr

end Schedule

/-! ## Channels -/

namespace Registry

/-- An update changes the channel that it names, if it exists. -/
theorem get_update (g : Registry) (chan : BitVec 16) (f : Channel → Channel) (i : Fin 16) :
    (g.update chan f).get i = if chan.toNat = i.val then f (g.get i) else g.get i := by
  rw [update]
  cases hi : index? 16 chan.toNat with
  | none =>
    have hne : chan.toNat ≠ i.val := by
      have := index?_eq_none_iff.1 hi
      omega
    rw [if_neg hne]
  | some j => -- the channels that exist are the numbers below sixteen
    have hij : j = i ↔ chan.toNat = i.val := by
      rw [← index?_eq_some_iff.1 hi, Fin.ext_iff]
    dsimp only
    rw [get_put]
    simp only [hij]
    split
    · next he => rw [hij.2 he]
    · rfl

theorem get_setWaiter (g : Registry) (chan : BitVec 16) (r : Role) (w : Option Waiter)
    (i : Fin 16) :
    (g.setWaiter chan r w).get i =
      if chan.toNat = i.val then (g.get i).setWaiter r w else g.get i :=
  g.get_update chan _ i

end Registry

/-! ## Quiet and hushed steps -/

/-- The capabilities, and what comes with holding them, stay as they are. -/
structure Quiet (m m' : Machine) : Prop where
  table : m'.table = m.table
  schedule : m'.schedule = m.schedule
  genealogy : m'.genealogy = m.genealogy
  bank : ∀ p, (m'.processes.get p).bank = (m.processes.get p).bank

instance : IsPreorder Machine Quiet where
  refl _ := ⟨rfl, rfl, rfl, fun _ => rfl⟩
  trans _ _ _ h h' := ⟨h'.table.trans h.table, h'.schedule.trans h.schedule,
    h'.genealogy.trans h.genealogy, fun p => (h'.bank p).trans (h.bank p)⟩

/-- Quiet, and whoever waits did so before. -/
structure Hushed (m m' : Machine) : Prop extends Quiet m m' where
  waiter : ∀ i r w, (m'.registry.get i).waiter r = some w → (m.registry.get i).waiter r = some w

instance : IsPreorder Machine Hushed where
  refl m := ⟨refl_of Quiet m, fun _ _ _ h => h⟩
  trans _ _ _ h h' :=
    ⟨trans_of Quiet h.toQuiet h'.toQuiet, fun i r w hw => h.waiter i r w (h'.waiter i r w hw)⟩

variable {m m' : Machine}

/-- Asides are hushed. -/
theorem Aside.hushed (h : Aside m m') : Hushed m m' := by
  have hk := h.kernel
  refine ⟨⟨congrArg Kernel.table hk, congrArg Kernel.schedule hk, h.genealogy, fun p => ?_⟩, ?_⟩
  · rw [hk]
  · intro i r w hw
    rwa [hk] at hw

theorem Action.Keeps.hushed {α : Type} {a : Action α} (ha : a.Keeps Aside) : a.Keeps Hushed :=
  ha.mono Aside.hushed

theorem Attempt.Keeps.hushed {α : Type} {a : Attempt α} (ha : a.Keeps Aside) : a.Keeps Hushed :=
  ha.mono Aside.hushed

/-- A machine with the same tables, but for the processes, whose protection registers stay. -/
theorem hushed_put {p : Pid} {q : Process} (h : q.bank = (m.processes.get p).bank) :
    Hushed m { m with processes := m.processes.put p q } := by
  refine ⟨⟨rfl, rfl, rfl, ?_⟩, fun _ _ _ hw => hw⟩
  intro k
  show (Processes.get _ k).bank = _
  rw [Processes.get_put]
  split
  · next hk => rw [← hk, h]
  · rfl

/-- The board has no part in what the kernel knows about capabilities. -/
theorem hushed_board (m : Machine) (b : Board) (holder : Option Hart) :
    Hushed m { m with board := b, lockHolder := holder } :=
  ⟨⟨rfl, rfl, rfl, fun _ => rfl⟩, fun _ _ _ hw => hw⟩

namespace Machine

open Action.Keeps

variable {R : Machine → Machine → Prop} [IsPreorder Machine R]

theorem expect_hushed (f : Fault) (b : Bool) : (expect f b).Keeps Hushed :=
  expect_keeps (fun _ _ => ⟨⟨rfl, rfl, rfl, fun _ => rfl⟩, fun _ _ _ hw => hw⟩) f b

/-! ### Processes -/

theorem modifyProcess_hushed (p : Pid) {f : Process → Process} (h : ∀ q, (f q).bank = q.bank) :
    (modifyProcess p f).Keeps Hushed :=
  modify fun _ => hushed_put (h _)

theorem setProcess_hushed {p : Pid} {q : Process} (h : q.bank = (m.processes.get p).bank) :
    Hushed m ((setProcess p q).exec m).2 :=
  hushed_put h

theorem release_keeps (ha : ∀ {m m'}, Aside m m' → R m m') (he : ∀ f b, (expect f b).Keeps R)
    {p : Pid} (hr : (modifyProcess p .release).Keeps R) : (release p).Keeps R :=
  bind ((process_aside p).mono ha) fun _ => bind (he _ _) fun _ => hr

theorem release_hushed (p : Pid) : (release p).Keeps Hushed :=
  release_keeps Aside.hushed expect_hushed (modifyProcess_hushed p Process.bank_release)

/-! ### The board -/

theorem modifyBoard_hushed (f : Board → Board) : (modifyBoard f).Keeps Hushed :=
  modify fun m => hushed_board m (f m.board) m.lockHolder

/-- A hart that cannot have the lock asks its timer in the meantime. -/
theorem lock_keeps {h : Hart}
    (hask : (modifyBoard fun b => b.setTimer h ((b.timer h).askUntilPending b.time)).Keeps R) :
    (lock h).Keeps R := by
  unfold lock
  refine .bind .get fun m => ?_
  split
  · exact .bind (.lift hask) fun _ => .throw _
  · exact .pure ()

theorem lock_hushed (h : Hart) : (lock h).Keeps Hushed :=
  lock_keeps (modifyBoard_hushed _)

/-! ### Monitors -/

/-- Monitors change statuses and registers of others, and no capability. -/
theorem suspendProcess_hushed (monitor : Slot) (p : Pid) :
    (suspendProcess monitor p).Keeps Hushed :=
  .bind (requireControl_aside monitor p).hushed fun _ =>
    .bind (.lift (modifyProcess_hushed p Process.bank_suspend)) fun _ =>
      .lift (note_aside fun _ => rfl).hushed

theorem resumeProcess_hushed (monitor : Slot) (p : Pid) :
    (resumeProcess monitor p).Keeps Hushed :=
  .bind (requireControl_aside monitor p).hushed fun _ =>
    .bind (.lift (modifyProcess_hushed p fun _ => rfl)) fun _ =>
      .lift (note_aside fun _ => rfl).hushed

/-- Lending the hart is hushed. -/
theorem yieldTo_hushed (monitor : Slot) (p : Pid) : (yieldTo monitor p).Keeps Hushed := by
  unfold yieldTo
  refine .bind (requireControl_aside monitor p).hushed fun _ =>
    .bind_of (.lift (process_aside p).hushed) ?_
  rintro m _ _ ⟨⟩
  rw [Attempt.exec_bind_ok Attempt.exec_get]
  simp only
  cases hq : (m.processes.get p).acquire? m.board.time with
  | none => exact refl_of Hushed m
  | some q =>
    apply Attempt.Keeps.bind_at (setProcess_hushed (Process.bank_of_acquire? hq))
    intro _
    exact .bind (.lift (process_aside _).hushed) fun _ =>
      .map _ (.lift (modifyProcess_hushed p fun _ => rfl))

/-- So is writing a register. -/
theorem writeRegister_hushed (monitor : Slot) (p : Pid) (r : Register) (w : Word) :
    (writeRegister monitor p r w).Keeps Hushed := by
  unfold writeRegister
  refine .bind (requireControl_aside monitor p).hushed fun _ =>
    .bind_of (.lift (process_aside p).hushed) ?_
  rintro m _ _ ⟨⟩
  cases hq : (m.processes.get p).acquireStopped? with
  | none => exact refl_of Hushed m
  | some q =>
    have hbank : q.bank = (m.processes.get p).bank := Process.bank_of_acquireStopped? hq
    exact Attempt.Keeps.bind_at (setProcess_hushed hbank) fun _ => .lift (release_hushed p)

/-! ### Waiting -/

theorem modifyRegistry_quiet (f : Registry → Registry) : (modifyRegistry f).Keeps Quiet :=
  modify fun _ => ⟨rfl, rfl, rfl, fun _ => rfl⟩

/-- Who does not wait any more is not a new one. -/
theorem dismiss_hushed (chan : BitVec 16) (r : Role) :
    (modifyRegistry (·.setWaiter chan r none)).Keeps Hushed := by
  refine modify fun m => ⟨⟨rfl, rfl, rfl, fun _ => rfl⟩, ?_⟩
  intro i r' w hw
  rw [Registry.get_setWaiter] at hw
  split at hw
  · rw [Channel.waiter_setWaiter] at hw
    split at hw
    · cases hw
    · exact hw
  · exact hw

theorem awaitForever_hushed (p : Pid) : (awaitForever p).Keeps Hushed :=
  modifyProcess_hushed p fun _ => rfl

/-- Whoever begins to wait enters the registry, which is not hushed. -/
theorem await_quiet (k : Socket) (p : Pid) (buffer : Slot) : (await k p buffer).Keeps Quiet :=
  bind ((expect_hushed _ _).mono Hushed.toQuiet) fun _ =>
    bind (modifyRegistry_quiet _) fun _ => .mono (S := Quiet)
      (bind (process_aside p).hushed fun _ => bind (expect_hushed _ _) fun _ =>
        modifyProcess_hushed p fun _ => rfl) Hushed.toQuiet

/-! ### Dispatching -/

/-- Fetching is hushed. -/
theorem fetch_hushed (h : Hart) (slot now : Nat) : (fetch h slot now).Keeps Hushed := by
  intro m
  unfold fetch
  rw [Action.exec_bind]
  simp only [Action.exec_get]
  split
  · next hf =>
    -- the process that is fetched differs in its deadline and status
    obtain ⟨q₀, hq₀, hq⟩ := Schedule.acquire?_of_fetch? hf
    have hbank := Process.bank_of_acquire? hq₀
    apply Action.Keeps.bind_at (setProcess_hushed (by rw [hq, ← hbank]))
    intro _
    exact bind (note_aside fun _ => rfl).hushed fun _ => pure _
  · exact refl_of Hushed m

/-- A hart that looks for a process takes one that can be had, and gives it a deadline. -/
theorem nextProcess_keeps (ha : ∀ {m m'}, Aside m m' → R m m')
    (he : ∀ f b, (expect f b).Keeps R) (hboard : ∀ f, (modifyBoard f).Keeps R)
    (htake : ∀ {m p x now}, (m.processes.get p).acquire? now = some x →
      ∀ deadline, R m ((setProcess p { x with deadline }).exec m).2) (h : Hart) :
    (nextProcess h).Keeps R := by
  intro m
  unfold nextProcess
  rw [Action.exec_bind]
  simp only [Action.exec_get]
  split
  · next c hc =>
    obtain ⟨x, hx, hp⟩ := Schedule.acquire?_of_choose? hc
    -- the process that is found is acquired, with a new deadline
    have hset : R m ((setProcess c.pid c.process).exec m).2 := by
      rw [hp]
      exact htake hx _
    apply Action.Keeps.bind_at hset
    intro _
    exact bind ((note_aside fun _ => rfl).mono ha) fun _ =>
      bind (he _ _) fun _ => bind (hboard _) fun _ => pure _
  · exact bind (hboard _) (fun _ => pure _) m

theorem nextProcess_hushed (h : Hart) : (nextProcess h).Keeps Hushed :=
  nextProcess_keeps Aside.hushed expect_hushed modifyBoard_hushed
    (fun hx _ => setProcess_hushed (by rw [← Process.bank_of_acquire? hx])) h

theorem handleTrap_hushed (p : Pid) (t : Trap) : (handleTrap p t).Keeps Hushed :=
  bind (note_aside fun _ => rfl).hushed fun _ =>
    bind (modifyProcess_hushed p fun _ => rfl) fun _ => pure _

/-! ### Calls -/

/-- A call that concerns its caller alone writes its registers, and sets its deadline if it gives up
the hart. -/
theorem performOwn_keeps (ha : ∀ {m m'}, Aside m m' → R m m')
    (he : ∀ f b, (expect f b).Keeps R) {p : Pid}
    (hr : ∀ {f : Process → Process}, (∀ q, f q = { q with registers := (f q).registers }) →
      (modifyProcess p f).Keeps R)
    (hsync : (modifyProcess p fun q => { q.reportSuccess with deadline := 0 }).Keeps R)
    (hsleep : ∀ time, (modifyProcess p (·.sleep time)).Keeps R) (h : Hart) (c : OwnCall) :
    (performOwn h p c).Keeps R := by
  -- looking at the own process is an aside
  have hprocess : (process p).Keeps R := (process_aside p).mono ha
  unfold performOwn
  split
  · exact pure _
  · exact map _ get
  · exact map _ get
  · exact bind hprocess fun _ => pure _
  · exact bind (hr fun _ => rfl) fun _ => pure _
  · exact pure _
  · exact bind hsync fun _ => pure _
  · refine bind (hr fun _ => rfl) fun _ => bind get fun _ => ?_
    dsimp only
    split
    · exact bind hprocess fun _ => bind (he _ _) fun _ =>
        bind (hsleep _) fun _ => pure _
    · exact pure _

theorem performOwn_hushed (h : Hart) (p : Pid) (c : OwnCall) : (performOwn h p c).Keeps Hushed :=
  performOwn_keeps Aside.hushed expect_hushed (fun hf => modifyProcess_hushed p fun q => by rw [hf])
    (modifyProcess_hushed p fun _ => rfl) (fun _ => modifyProcess_hushed p fun _ => rfl) h c

/-- To be told how its call ended, a process gets something into its registers, and at most a note
is made besides. -/
theorem conclude_keeps (ha : ∀ {m m'}, Aside m m' → R m m') {p : Pid}
    (hr : ∀ {f : Process → Process}, (∀ q, f q = { q with registers := (f q).registers }) →
      (modifyProcess p f).Keeps R) (number : Word) (r : Except Error Outcome) :
    (conclude p number r).Keeps R := by
  have hreport : ∀ e, (modifyProcess p (·.report e)).Keeps R := fun e => hr fun _ => rfl
  have hdone : (modifyProcess p .reportSuccess).Keeps R := hr fun _ => rfl
  unfold conclude
  split
  · exact bind hdone fun _ => pure _
  · exact bind hdone fun _ => pure _
  · exact bind (hr fun _ => rfl) fun _ => pure _
  · exact pure _
  · exact bind hdone fun _ => pure _
  · exact pure _
  · exact bind (hreport _) fun _ => pure _
  · apply bind ((process_aside p).mono ha)
    intro _
    split
    · exact bind (hreport _) fun _ => pure _
    · exact bind ((note_aside fun _ => rfl).mono ha) fun _ => bind (hreport _) fun _ => pure _

theorem conclude_hushed (p : Pid) (number : Word) (r : Except Error Outcome) :
    (conclude p number r).Keeps Hushed :=
  conclude_keeps Aside.hushed (fun hf => modifyProcess_hushed p fun q => by rw [hf]) number r

end Machine
end SepKernel
