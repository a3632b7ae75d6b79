import SepKernel.Proofs.Machine.Operations

/-!
# Operations in steps

An operation comes about in two ways: on its own, or because a process asks for it by a system call.
In either way it is the only thing that is not hushed. What the registers of a process ask for is
decided before the call does anything.
-/

namespace SepKernel

variable {m m' : Machine} {op : Operation} {h : Hart} {p : Pid}

/-! ## What a process asks for -/

theorem Registers.arguments_set_pc (rs : Registers) (w : Word) :
    (rs.set .pc w).arguments = rs.arguments := by
  simp [arguments, Register.arguments, get_set]

namespace Machine

/-- The operation that the registers of a process ask for, if it traps with them. -/
def requested? (m : Machine) (p : Pid) : Option Operation :=
  let rs := (m.processes.get p).registers
  match Syscall.decode (rs.get .t0) rs.arguments with
  | .ok (.shared c) => some (c.operation p)
  | _ => none

theorem requested?_eq {c : SharedCall} (hc : Syscall.decode ((m.processes.get p).register .t0)
    (m.processes.get p).registers.arguments = .ok (.shared c)) :
    m.requested? p = some (c.operation p) := by
  rw [Process.register] at hc
  simp only [requested?, hc]

inductive Performs (m : Machine) : Operation → Machine → Prop
  | operation (h : Hart) (op : Operation) : Performs m op ((op.run h).exec m).2
  | call (h : Hart) (p : Pid) {op : Operation} : m.requested? p = some op →
      Performs m op ((handleCall h p).exec m).2

/-! ## What a step comes to -/

/-- Before the operation, and after it, the work is hushed; if the lock is not to be had, that is
all. -/
def Amounts (m : Machine) (op : Operation) (m' : Machine) : Prop :=
  Hushed m m' ∨ ∃ h m₁, Hushed m m₁ ∧ Hushed ((op.perform h).exec m₁).2 m'

/-- Hushed work may follow. -/
theorem Amounts.after (ha : Amounts m op m') {m'' : Machine} (hh : Hushed m' m'') :
    Amounts m op m'' := by
  rcases ha with ha | ⟨h, m₁, h₁, h₂⟩
  · exact .inl (trans_of Hushed ha hh)
  · exact .inr ⟨h, m₁, h₁, trans_of Hushed h₂ hh⟩

/-- Hushed work may come before. -/
theorem Amounts.before {m₀ : Machine} (hh : Hushed m₀ m) (ha : Amounts m op m') :
    Amounts m₀ op m' := by
  rcases ha with ha | ⟨h, m₁, h₁, h₂⟩
  · exact .inl (trans_of Hushed hh ha)
  · exact .inr ⟨h, m₁, trans_of Hushed hh h₁, h₂⟩

/-- The work of a system call once its operation has answered. -/
def finish (h : Hart) (p : Pid) (number : Word) (r : Except Error Outcome) :
    Action (Option Pid) := do
  match ← conclude p number r with
  | some q =>
    if q = p then
      return some p
    else
      release p
      return some q
  | none =>
    release p
    nextProcess h

/-- What a relation must be kept by to be kept by the end of a call. -/
theorem finish_keeps {R : Machine → Machine → Prop} [IsPreorder Machine R]
    (hconclude : ∀ number r, (conclude p number r).Keeps R) (hrelease : (release p).Keeps R)
    (hnext : (nextProcess h).Keeps R) (number : Word) (r : Except Error Outcome) :
    (finish h p number r).Keeps R := by
  unfold finish
  refine .bind (hconclude number r) fun next => ?_
  split
  · split
    · exact .pure _
    · exact .bind hrelease fun _ => .pure _
  · exact .bind hrelease fun _ => hnext

theorem finish_hushed (h : Hart) (p : Pid) (number : Word) (r : Except Error Outcome) :
    (finish h p number r).Keeps Hushed :=
  finish_keeps (conclude_hushed p) (release_hushed p) (nextProcess_hushed h) number r

/-- The first part of a system call: its process steps over the instruction, and what its registers
ask for is read and carried out. -/
def respond (h : Hart) (p : Pid) : Action (Except Error Outcome) := do
  modifyProcess p fun q => q.setRegister .pc (q.register .pc + 4)
  let rs := (← process p).registers
  (attemptCall h p (rs.get .t0) rs.arguments).run

def stepped (m : Machine) (p : Pid) : Machine :=
  { m with
    processes := m.processes.put p
      ((m.processes.get p).setRegister .pc ((m.processes.get p).register .pc + 4)) }

theorem stepped_hushed (m : Machine) (p : Pid) : Hushed m (m.stepped p) :=
  hushed_put rfl

/-- Stepping over the instruction does not change what the registers ask for. -/
theorem respond_exec (h : Hart) (p : Pid) (m : Machine) :
    (respond h p).exec m =
      (attemptCall h p ((m.processes.get p).register .t0)
        (m.processes.get p).registers.arguments).exec (m.stepped p) := by
  have hexec : (respond h p).exec m =
      (attemptCall h p (((m.stepped p).processes.get p).registers.get .t0)
        ((m.stepped p).processes.get p).registers.arguments).exec (m.stepped p) := rfl
  rw [hexec, stepped, Processes.get_put_self, Process.setRegister, Registers.arguments_set_pc,
    Registers.get_set_of_ne _ _ (by decide)]
  rfl

/-- A system call is that first part, and then the work that its answer asks for. -/
theorem handleCall_exec (h : Hart) (p : Pid) (m : Machine) :
    (handleCall h p).exec m =
      (finish h p ((m.processes.get p).register .t0) ((respond h p).exec m).1).exec
        ((respond h p).exec m).2 := by
  have hexec : (handleCall h p).exec m =
      (finish h p (((m.stepped p).processes.get p).registers.get .t0)
        ((respond h p).exec m).1).exec ((respond h p).exec m).2 := rfl
  rw [hexec, stepped, Processes.get_put_self, Process.setRegister,
    Registers.get_set_of_ne _ _ (by decide)]
  rfl

/-- Under the lock or not, an operation amounts to what it performs. -/
theorem run_amounts (h : Hart) (op : Operation) (m : Machine) :
    Amounts m op ((op.run h).exec m).2 := by
  have hl := lock_hushed h m
  rw [Operation.run, Attempt.exec_bind]
  generalize (lock h).exec m = locked at hl ⊢
  obtain ⟨_ | _, m₁⟩ := locked
  · exact .inl hl
  · exact .inr ⟨h, m₁, hl, refl_of Hushed _⟩

/-- A call that can be read is noted and carried out. -/
theorem attemptCall_exec {h : Hart} {p : Pid} {number : Word} {arguments : Vector Word 8}
    {c : Syscall} (hc : Syscall.decode number arguments = .ok c) (m : Machine) :
    (attemptCall h p number arguments).exec m =
      (perform h p c).exec ((note (.called p c)).exec m).2 := by
  rw [attemptCall, hc]
  rfl

/-- Most calls stand for an operation, of which the answer is put in another form. -/
theorem perform_shared (h : Hart) (p : Pid) (c : SharedCall) (m : Machine) :
    (perform h p (.shared c)).exec m = ((((c.operation p).run h).exec m).1.map (·.outcome),
      (((c.operation p).run h).exec m).2) := by
  rw [perform, bind_pure_comp, Attempt.exec_map]

/-- What a call asks for is carried out under the lock; other calls are hushed. -/
theorem attemptCall_amounts (h : Hart) (p : Pid) (number : Word) (arguments : Vector Word 8)
    (m : Machine) :
    Hushed m ((attemptCall h p number arguments).exec m).2 ∨
      ∃ c, Syscall.decode number arguments = .ok (.shared c) ∧
        Amounts m (c.operation p) ((attemptCall h p number arguments).exec m).2 := by
  -- what a call asks for is noted first
  have hnote : ∀ c, Hushed m ((note (.called p c)).exec m).2 :=
    fun c => (note_aside fun _ => rfl).hushed m
  cases hd : Syscall.decode number arguments with
  | error e =>
    left
    rw [attemptCall, hd]
    exact refl_of Hushed m
  | ok c =>
    rw [attemptCall_exec hd]
    cases c with
    | own c => exact .inl (trans_of Hushed (hnote _) (performOwn_hushed h p c _))
    | shared c =>
      refine .inr ⟨c, rfl, .before (hnote (.shared c)) ?_⟩
      rw [perform_shared]
      exact run_amounts h (c.operation p) ((note (.called p (.shared c))).exec m).2

/-- A system call comes to the operation that the registers of its process ask for, or is hushed. -/
theorem handleCall_amounts (h : Hart) (p : Pid) (m : Machine) :
    Hushed m ((handleCall h p).exec m).2 ∨
      ∃ op, m.requested? p = some op ∧ Amounts m op ((handleCall h p).exec m).2 := by
  have h₁ := stepped_hushed m p
  have h₂ := finish_hushed h p ((m.processes.get p).register .t0) ((respond h p).exec m).1
    ((respond h p).exec m).2
  rw [← handleCall_exec] at h₂
  rw [respond_exec] at h₂
  -- whatever the call answered, what comes after it is hushed
  rcases attemptCall_amounts h p ((m.processes.get p).register .t0)
    (m.processes.get p).registers.arguments (m.stepped p) with hr | ⟨c, hc, hr⟩
  · exact .inl (trans_of Hushed h₁ (trans_of Hushed hr h₂))
  · exact .inr ⟨c.operation p, requested?_eq hc, (hr.after h₂).before h₁⟩

/-- Whether the operation is performed for its own sake or in a call makes no difference. -/
theorem Performs.amounts (hp : Performs m op m') : Amounts m op m' := by
  cases hp with
  | operation h op => exact run_amounts h op m
  | call h p hop =>
    rcases handleCall_amounts h p m with hh | ⟨op', hop', ha⟩
    · exact .inl hh
    · rw [hop] at hop'
      cases hop'
      exact ha

end Machine
end SepKernel
