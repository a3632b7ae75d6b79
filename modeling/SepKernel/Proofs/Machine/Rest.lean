import SepKernel.Proofs.Machine.Separation

/-!
# Processes at rest

A process that waits for nothing and does nothing itself can be left alone. Others may stop it and
let it go on, a hart may take it and give it back; but no message comes to it, and whatever anybody
else does, its registers stay as they are, unless a monitor edits them.
-/

namespace SepKernel

open Relation (ReflTransGen)

variable {m m' m₁ m₂ : Machine} {roots : List Capability} {h : Hart} {p : Option Pid} {q : Pid}
  {s : Slot} {op : Operation} {o : Option Operation}

/-! ## Who acts in a step -/

namespace Machine

/-- The steps of a machine, each with the process that acts in it, and the operation that the
process asks for. Nobody acts when the hart or the board does something. -/
inductive Acts (m : Machine) : Option Pid → Option Operation → Machine → Prop
  | operation (h : Hart) (op : Operation) : Acts m op.caller op ((op.run h).exec m).2
  | call (h : Hart) (p : Pid) : Acts m p (m.requested? p) ((handleCall h p).exec m).2
  | trap (p : Pid) (t : Trap) : Acts m p none ((handleTrap p t).exec m).2
  | process (p : Pid) (x : Process) : x.bank = (m.processes.get p).bank →
      Acts m p none { m with processes := m.processes.put p x }
  | dispatch (h : Hart) : Acts m none none ((nextProcess h).exec m).2
  | fetch (h : Hart) (slot now : Nat) : Acts m none none ((fetch h slot now).exec m).2
  | release (p : Pid) : Acts m none none ((release p).exec m).2
  | board (b : Board) (holder : Option Hart) :
      Acts m none none { m with board := b, lockHolder := holder }

/-- In every step somebody acts, or nobody. -/
theorem step_iff_acts : m.Step m' ↔ ∃ p o, m.Acts p o m' := by
  constructor
  · intro hs
    cases hs with
    | operation h op => exact ⟨_, _, .operation h op⟩
    | call h p => exact ⟨_, _, .call h p⟩
    | trap p t => exact ⟨_, _, .trap p t⟩
    | dispatch h => exact ⟨_, _, .dispatch h⟩
    | fetch h slot now => exact ⟨_, _, .fetch h slot now⟩
    | release p => exact ⟨_, _, .release p⟩
    | process p x hx => exact ⟨_, _, .process p x hx⟩
    | board b holder => exact ⟨_, _, .board b holder⟩
  · intro ⟨p, o, hs⟩
    cases hs with
    | operation h op => exact .operation h op
    | call h p => exact .call h p
    | trap p t => exact .trap p t
    | dispatch h => exact .dispatch h
    | fetch h slot now => exact .fetch h slot now
    | release p => exact .release p
    | process p x hx => exact .process p x hx
    | board b holder => exact .board b holder

def Beside (q : Pid) (m m' : Machine) : Prop :=
  ∃ p o, p ≠ some q ∧ m.Acts p o m'

end Machine

/-! ## What happens to a process -/

namespace Process

variable {a b c : Process} {W W' : Prop}

/-- A process that does not wait does not begin to, and its registers are written only if something
is the case. -/
def Undisturbed (W : Prop) (a b : Process) : Prop :=
  a.status.wait = none → b.status.wait = none ∧ (b.registers ≠ a.registers → W)

theorem Undisturbed.of_eq (hw : a.status.wait = none → b.status.wait = none)
    (hr : b.registers = a.registers) : a.Undisturbed W b :=
  fun ha => ⟨hw ha, fun hne => absurd hr hne⟩

theorem Undisturbed.refl (a : Process) : a.Undisturbed W a :=
  .of_eq id rfl

/-- One after the other. -/
theorem Undisturbed.trans (hab : a.Undisturbed W b) (hbc : b.Undisturbed W c) :
    a.Undisturbed W c := by
  intro ha
  obtain ⟨hb, hwb⟩ := hab ha
  obtain ⟨hc, hwc⟩ := hbc hb
  refine ⟨hc, fun hne => ?_⟩
  by_cases hcb : c.registers = b.registers
  · exact hwb (hcb ▸ hne)
  · exact hwc hcb

/-- Whoever does not wait has nothing to be told when it is taken. -/
theorem undisturbed_acquire? {now : Nat} (h : a.acquire? now = some b) : a.Undisturbed W b := by
  intro ha
  rcases acquire?_cases h with ⟨_, rfl⟩ | ⟨c, hs, _, _⟩
  · exact ⟨rfl, fun hne => absurd rfl hne⟩
  · rw [hs] at ha
    cases ha

/-- Nor when it is stopped. -/
theorem undisturbed_suspend (a : Process) : a.Undisturbed W a.suspend := by
  intro ha
  have hs : a.suspend = { a with status.suspended := true } := by simp [suspend, ha]
  rw [hs]
  exact ⟨ha, fun hne => absurd rfl hne⟩

/-- Nor when it is given back. -/
theorem undisturbed_release (a : Process) : a.Undisturbed W a.release := by
  intro ha
  have hs : a.release = { a with status.busy := false } := by simp [release, ha]
  rw [hs]
  exact ⟨ha, fun hne => absurd rfl hne⟩

end Process

open Process (Undisturbed)

def Operation.WritesTo (o : Option Operation) (q : Pid) : Prop :=
  ∃ s r w, o = some (.monWriteRegister s q r w)

namespace Operation

/-- No message touches a process that does not wait. -/
theorem Touches.undisturbed {x : Process} (ht : op.Touches h m q x) :
    (m.processes.get q).Undisturbed (WritesTo op q) x := by
  -- a message meets only somebody who waits
  cases ht with
  | @message _ _ _ d _ _ _ hop hs hq =>
    intro hw
    obtain ⟨hwaits, _⟩ := Process.receive?_eq hs.prepared.taken
    rw [hq, hs.aside.kernel] at hwaits
    rw [hwaits] at hw
    cases hw
  | suspend => exact Process.undisturbed_suspend _
  | resume => exact .of_eq id rfl
  | lend _ hx => exact (Process.undisturbed_acquire? hx).trans (.of_eq id rfl)
  | @write s r w => exact fun hw => ⟨hw, fun _ => ⟨s, r, w, rfl⟩⟩

/-- Nor does an operation disturb anybody else but by writing to a register. -/
theorem Meets.undisturbed (hm : op.Meets h q m m') :
    (m.processes.get q).Undisturbed (WritesTo op q) (m'.processes.get q) := by
  obtain ⟨x, b, hx, hget⟩ := hm
  rw [hget]
  rcases hx with rfl | ht
  · exact .of_eq id rfl
  · exact ht.undisturbed.trans (.of_eq id rfl)

/-- Whoever does not wait at the end of an operation is left alone by it, or touched. -/
theorem run_meets (hl : m.table.Strung) (h : Hart) (hq : op.caller ≠ q) :
    op.Meets h q m ((op.run h).exec m).2 := by
  rcases Machine.lock_cases h m with hlock | hlock
  · rw [run, Attempt.exec_bind_ok hlock]
    rcases op.aside_or_effect h m with ha | ⟨he, _⟩
    · exact .of_settled ha.settled
    · apply he.meets hl
      intro s hs hqs
      exact hq ((caller_of_waitsAt hs).trans hqs.symm)
  · rw [run, Attempt.exec_bind_error (Prod.ext hlock rfl)]
    exact ⟨_, (m.processes.get q).bank, .inl rfl, Machine.lock_solo (p := op.caller) h m q hq.symm⟩

end Operation

/-! ## What happens in a step -/

theorem Solo.undisturbed {p : Pid} {W : Prop} (hs : Solo p m m') (hq : q ≠ p) :
    (m.processes.get q).Undisturbed W (m'.processes.get q) := by
  rw [hs q hq]
  exact .refl _

namespace Machine

/-- A decision may take a process, and has nothing to tell it if it does not wait. -/
theorem nextProcess_undisturbed {W : Prop} (h : Hart) (q : Pid) (m : Machine) :
    (m.processes.get q).Undisturbed W (((nextProcess h).exec m).2.processes.get q) := by
  rcases nextProcess_cases h q m with hn | ⟨_, x, deadline, hx, hn⟩
  · rw [hn]
    exact .refl _
  · rw [hn]
    exact (Process.undisturbed_acquire? hx).trans (.of_eq id rfl)

/-- The same for fetching. -/
theorem fetch_undisturbed {W : Prop} (h : Hart) (slot now : Nat) (q : Pid) (m : Machine) :
    (m.processes.get q).Undisturbed W (((fetch h slot now).exec m).2.processes.get q) := by
  rcases fetch_cases h slot now q m with ⟨_, hn⟩ | ⟨x, deadline, hx, hn⟩
  · rw [hn]
    exact .refl _
  · rw [hn]
    exact (Process.undisturbed_acquire? hx).trans (.of_eq id rfl)

/-- In a call of another process the operation that it asks for may touch a process, and the hart
may take it. -/
theorem handleCall_undisturbed (hl : m.table.Strung) (h : Hart) {p : Pid} (hq : q ≠ p) :
    (m.processes.get q).Undisturbed (Operation.WritesTo (m.requested? p) q)
      (((handleCall h p).exec m).2.processes.get q) := by
  have hrespond : (m.processes.get q).Undisturbed (Operation.WritesTo (m.requested? p) q)
      (((respond h p).exec m).2.processes.get q) := by
    rcases respond_meets hl h hq with ⟨b, hb⟩ | ⟨op, m₁, _, x, b, hc, _, _, ht, hx⟩
    · rw [hb]
      exact .of_eq id rfl
    · rw [hx, hc.requested, ← hc.process hq]
      exact ht.undisturbed.trans (.of_eq id rfl)
  rw [handleCall_exec]
  -- the end of the call may be a decision
  rcases finish_cases h ((m.processes.get p).register .t0) ((respond h p).exec m).1 hq
    ((respond h p).exec m).2 with hf | ⟨_, m₁, hf, hm₁⟩
  · rw [hf]
    exact hrespond
  · rw [hf]
    rw [← hm₁] at hrespond
    exact hrespond.trans (nextProcess_undisturbed h q m₁)

/-- A process that takes no part in a step, and does not wait, is disturbed only by a monitor that
writes a register of it. -/
theorem Acts.undisturbed (hs : m.Acts p o m') (hl : m.table.Strung) (hq : p ≠ some q) :
    (m.processes.get q).Undisturbed (Operation.WritesTo o q) (m'.processes.get q) := by
  -- whoever acts is somebody else
  have other : ∀ {p : Pid}, (some p : Option Pid) ≠ some q → q ≠ p :=
    fun hp hqp => hp (congrArg some hqp.symm)
  cases hs with
  | operation h op => exact (Operation.run_meets hl h (other hq).symm).undisturbed
  | call h p => exact handleCall_undisturbed hl h (other hq)
  | trap p t => exact Solo.undisturbed (handleTrap_solo p t m) (other hq)
  | process p x => exact Solo.undisturbed (solo_put m p x) (other hq)
  | dispatch h => exact nextProcess_undisturbed h q m
  | fetch h slot now => exact fetch_undisturbed h slot now q m
  | release p =>
    by_cases hp : q = p
    · subst hp
      have hget : ((Machine.release q).exec m).2.processes.get q = (m.processes.get q).release := by
        simp [Machine.release]
      rw [hget]
      exact Process.undisturbed_release _
    · exact Solo.undisturbed (release_solo p m) hp
  | board => exact .refl _

end Machine

/-! ## What happens in a run -/

/-- As long as a process takes no part, it does not begin to wait. -/
theorem Reachable.rests (hm : Reachable roots m) (hw : (m.processes.get q).status.wait = none)
    (hrun : ReflTransGen (Machine.Beside q) m m₁) :
    Reachable roots m₁ ∧ (m₁.processes.get q).status.wait = none := by
  induction hrun with
  | refl => exact ⟨hm, hw⟩
  | tail _ hs ih =>
    obtain ⟨p, o, hp, hs⟩ := hs
    obtain ⟨hm₁, hw₁⟩ := ih
    exact ⟨hm₁.step (Machine.step_iff_acts.2 ⟨p, o, hs⟩),
      (hs.undisturbed hm₁.lineal.strung hp hw₁).1⟩

/-- As long as a process that does not wait takes no part, nobody writes its registers, apart from
monitors that edit it. -/
theorem Reachable.undisturbed (hm : Reachable roots m)
    (hw : (m.processes.get q).status.wait = none)
    (hrun : ReflTransGen (Machine.Beside q) m m₁) (hs : m₁.Acts p o m₂) (hp : p ≠ some q)
    (hr : (m₂.processes.get q).registers ≠ (m₁.processes.get q).registers) :
    Operation.WritesTo o q := by
  obtain ⟨hm₁, hw₁⟩ := hm.rests hw hrun
  exact (hs.undisturbed hm₁.lineal.strung hp hw₁).2 hr

end SepKernel
