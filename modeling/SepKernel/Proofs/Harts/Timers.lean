import SepKernel.Proofs.Machine.Separation

/-!
# Timers and deadlines

Only a scheduling decision programs a timer. Whatever else the kernel does, each hart keeps its
deadline, although it may ask whether its interrupt is pending.

The deadline of a process changes when it begins to wait, when it is lent a hart, and when it is let
go on by a monitor. Whoever is lent a hart by an operation gets the deadline of the caller, and
whoever runs on another hart keeps its own.
-/

namespace SepKernel

variable {m m' m₁ m₂ : Machine} {h : Hart} {p q : Pid} {op : Operation} {s : Slot} {msg : Message}

/-! ## Timers -/

def Untimed (m m' : Machine) : Prop :=
  ∀ h, m'.board.deadline h = m.board.deadline h

instance : IsPreorder Machine Untimed where
  refl _ _ := rfl
  trans _ _ _ h h' k := (h' k).trans (h k)

structure Timeless (m m' : Machine) : Prop where
  untimed : Untimed m m'
  deadline : ∀ p, (m'.processes.get p).deadline = (m.processes.get p).deadline

instance : IsPreorder Machine Timeless where
  refl m := ⟨refl_of Untimed m, fun _ => rfl⟩
  trans _ _ _ h h' :=
    ⟨trans_of Untimed h.untimed h'.untimed, fun p => (h'.deadline p).trans (h.deadline p)⟩

theorem Untimed.of_board (hb : m'.board = m.board) : Untimed m m' :=
  fun _ => by rw [hb]

/-- Clerical work changes neither timers nor deadlines. -/
theorem Clerical.timeless (h : Clerical m m') : Timeless m m' :=
  ⟨.of_board h.board, h.settled.deadline⟩

theorem Aside.timeless (h : Aside m m') : Timeless m m' :=
  h.clerical.timeless

/-! ### Asking -/

namespace Timer

@[simp] theorem deadline_countDown (t : Timer) : t.countDown.deadline = t.deadline := by
  unfold countDown
  split <;> rfl

/-- However often the timer is asked, its deadline stays. -/
@[simp] theorem deadline_askUpTo (time n : Nat) (t : Timer) :
    (t.askUpTo time n).deadline = t.deadline := by
  induction n generalizing t with
  | zero => rfl
  | succ n ih =>
    unfold askUpTo
    dsimp only
    split
    · exact t.deadline_countDown
    · rw [ih, deadline_countDown]

end Timer

/-- A timer may be written that keeps its deadline. -/
theorem Board.deadline_setTimer {b : Board} {t : Timer}
    (ht : t.deadline = (b.timer h).deadline) (k : Hart) :
    (b.setTimer h t).deadline k = b.deadline k := by
  rw [deadline, timer_setTimer]
  split
  · next hk => rw [ht, hk]; rfl
  · rfl

namespace Machine

open Action.Keeps

theorem poll_timeless (h : Hart) : (poll h).Keeps Timeless :=
  fun _ => ⟨Board.deadline_setTimer (Timer.deadline_countDown _), fun _ => rfl⟩

theorem lock_timeless (h : Hart) : (lock h).Keeps Timeless :=
  lock_keeps fun _ => ⟨Board.deadline_setTimer (Timer.deadline_askUpTo _ _ _), fun _ => rfl⟩

/-! ### Revocations -/

/-- Revoking asks the timer, again and again. -/
theorem takeAllBack_timeless (h : Hart) (s : Slot) (ds : List Slot) :
    (takeAllBack h s ds).Keeps Timeless := by
  induction ds with
  | nil => exact pure _
  | cons d ds ih =>
    refine bind ((takeBack_clerical s d).mono Clerical.timeless) fun _ =>
      bind (poll_timeless h) fun pending => ?_
    cases pending with
    | true => exact pure _
    | false => exact ih

/-- However far a revocation comes, no deadline changes. -/
theorem revokeCapability_timeless (h : Hart) (s : Slot) :
    (revokeCapability h s).Keeps Timeless := by
  unfold revokeCapability
  refine .bind ((readCapability_aside s).mono Aside.timeless) fun _ => .bind .get fun _ => ?_
  refine .bind (.lift (takeAllBack_timeless h s _)) fun done => ?_
  split
  · exact .lift ((restore_clerical s).mono Clerical.timeless)
  · exact .bind (.lift ((note_clerical _).mono Clerical.timeless)) fun _ => .throw _

/-! ### Single processes -/

theorem modifyProcess_untimed (p : Pid) (f : Process → Process) :
    (modifyProcess p f).Keeps Untimed :=
  fun _ _ => rfl

/-- A change of a process that keeps its deadline. -/
theorem modifyProcess_timeless (p : Pid) {f : Process → Process}
    (hf : ∀ x, (f x).deadline = x.deadline) : (modifyProcess p f).Keeps Timeless := by
  refine fun m => ⟨fun _ => rfl, fun q => ?_⟩
  show ((m.processes.put p (f (m.processes.get p))).get q).deadline = _
  rw [Processes.get_put]
  split
  · next hpq => rw [hf, hpq]
  · rfl

theorem note_timeless (e : Event) : (note e).Keeps Timeless :=
  (note_clerical e).mono Clerical.timeless

theorem expect_timeless (f : Fault) (b : Bool) : (expect f b).Keeps Timeless :=
  (expect_clerical f b).mono Clerical.timeless

theorem process_timeless (p : Pid) : (process p).Keeps Timeless :=
  (process_aside p).mono Aside.timeless

end Machine

/-- A process keeps its deadline when it is given back. -/
theorem Process.deadline_release (x : Process) : x.release.deadline = x.deadline := by
  unfold release
  dsimp only
  split <;> rfl

/-- A process keeps its deadline when it is suspended. -/
theorem Process.deadline_suspend (x : Process) : x.suspend.deadline = x.deadline := by
  unfold suspend
  dsimp only
  split <;> rfl

namespace Machine

open Action.Keeps

theorem release_timeless (p : Pid) : (release p).Keeps Timeless :=
  bind (process_timeless p) fun _ => bind (expect_timeless _ _) fun _ =>
    modifyProcess_timeless p Process.deadline_release

theorem conclude_timeless (p : Pid) (number : Word) (r : Except Error Outcome) :
    (conclude p number r).Keeps Timeless :=
  conclude_keeps Aside.timeless (fun hf => modifyProcess_timeless p fun q => by rw [hf]) number r

/-! ### Waiting -/

/-- Beginning to wait is one thing, the deadline of the wait another. -/
theorem await_timeless (k : Socket) (p : Pid) (b : Slot) : (await k p b).Keeps Timeless :=
  bind (expect_timeless _ _) fun _ =>
    bind ((modifyRegistry_clerical _).mono Clerical.timeless) fun _ =>
      bind (process_timeless p) fun _ => bind (expect_timeless _ _) fun _ =>
        modifyProcess_timeless p fun _ => rfl

theorem awaitClient_untimed (k : Socket) (p : Pid) (b : Slot) :
    (awaitClient k p b).Keeps Untimed :=
  bind ((await_timeless k p b).mono Timeless.untimed) fun _ =>
    bind (modifyProcess_untimed p _) fun _ => (note_timeless _).mono Timeless.untimed

/-- The deadline of a wait is no timer. -/
theorem awaitAnswer_untimed (k : Socket) (p : Pid) (b : Slot) (lent : Option Pid) :
    (awaitAnswer k p b lent).Keeps Untimed := by
  apply bind ((await_timeless k p b).mono Timeless.untimed)
  intro _
  split
  · exact modifyProcess_untimed p _
  · exact .pure _

/-- A message programs no timer, although it may lend the hart. -/
theorem deliver_untimed (d : Delivery) : (deliver d).Keeps Untimed := by
  intro m
  -- the deadline of a receiver that is lent the hart is not the timer of the hart
  have hhand : ∀ c, (hand d c).Keeps Untimed := by
    intro c
    unfold hand
    refine bind (modifyProcess_untimed _ _) fun _ =>
      bind ((modifyRegistry_clerical _).mono fun hc => hc.timeless.untimed) fun _ =>
        bind ((note_timeless _).mono Timeless.untimed) fun _ => ?_
    split
    · exact bind ((process_timeless _).mono Timeless.untimed) fun _ =>
        bind (modifyProcess_untimed _ _) fun _ => pure _
    · exact bind ((release_timeless _).mono Timeless.untimed) fun _ => pure _
  rw [deliver_exec]
  refine trans_of Untimed ?_ (hhand _ _)
  exact trans_of Untimed (modifyProcess_untimed d.receiver.pid (fun _ => d.taken) m)
    (ship_clerical d _).timeless.untimed

end Machine
end SepKernel
