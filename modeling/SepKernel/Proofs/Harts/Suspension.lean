import SepKernel.Proofs.Harts.Running
import SepKernel.Proofs.Machine.Carried

/-!
# Who is stopped stays stopped

Once a process is stopped, and held by nobody, it takes part in nothing until a monitor lets it go
on. No hart gets it, whether by the schedule, by a message or by a monitor that lends it one; no
message comes to it, though it may still be in the registry; and its registers stay as they are,
apart from those that a monitor writes. Other processes and the harts may do meanwhile what they
like, in any order, and operations may even be carried out for the process itself.
-/

namespace SepKernel

open Relation (ReflTransGen)

variable {m m' m₁ : Machine} {roots : List Capability} {h : Hart} {p q : Pid} {op : Operation}
  {x : Process}

/-! ## Requests -/

/-- What the kernel may be asked to do, and what may happen in between. -/
inductive Request where
  /-- An operation under the lock. -/
  | operation (h : Hart) (op : Operation)
  /-- A system call of the process that a hart runs. -/
  | call (h : Hart) (p : Pid)
  /-- An exception of a process that runs. -/
  | trap (p : Pid) (t : Trap)
  /-- The timer interrupt of a hart that runs a process. -/
  | timer (h : Hart) (p : Pid)
  /-- A hart looks for a process. -/
  | dispatch (h : Hart)
  /-- A hart looks for a process in one slot of the schedule. -/
  | fetch (h : Hart) (slot now : Nat)
  /-- A process is given back. -/
  | release (p : Pid)
  /-- A process that runs changes its registers. -/
  | compute (p : Pid) (rs : Registers)
  /-- The clock and the timers move on, and the lock changes hands. -/
  | board (b : Board) (holder : Option Hart)

namespace Request

/-- The process that was taken for a hart, by how an operation ended. -/
def taken : Except Error Operation.Answer → Option Pid
  | .ok a => a.outcome.taken
  | .error _ => none

def serve : Request → Action (Option Pid)
  | operation h op => taken <$> (op.run h).run
  | call h p => Machine.handleCall h p
  | trap p t => some <$> Machine.handleTrap p t
  | timer h p => Machine.handleTimer h p
  | dispatch h => Machine.nextProcess h
  | fetch h slot now => Machine.fetch h slot now
  | release p => do Machine.release p; return none
  | compute p rs => do
    Machine.modifyProcess p fun q => { q with registers := rs }
    return none
  | board b holder => do
    modify fun m => { m with board := b, lockHolder := holder }
    return none

def runner? : Request → Option Pid
  | call _ p | trap p _ | timer _ p | compute p _ => some p
  | _ => none

/-- Does a hart hold the process that runs when this is asked for? -/
def Fits (r : Request) (m : Machine) : Prop :=
  ∀ p, r.runner? = some p → m.Holds p

/-- Is an operation asked for, by itself or by a call, and not refused? -/
inductive Obtains (m : Machine) : Request → Operation → Prop
  | operation {h : Hart} {op : Operation} {a : Operation.Answer} :
      ((op.run h).exec m).1 = .ok a → Obtains m (.operation h op) op
  | call {h : Hart} {p : Pid} {op : Operation} : m.Obtains h p op → Obtains m (.call h p) op

theorem operation_exec (h : Hart) (op : Operation) (m : Machine) :
    (operation h op).serve.exec m = (taken ((op.run h).exec m).1, ((op.run h).exec m).2) :=
  (rfl)

/-- Requests lead from reachable machines to reachable ones. -/
theorem reachable (r : Request) (hm : Reachable roots m) :
    Reachable roots (r.serve.exec m).2 := by
  cases r with
  | operation h op => exact hm.step (.operation h op)
  | call h p => exact hm.step (.call h p)
  | trap p t => exact hm.step (.trap p t)
  | timer h p => exact (hm.step (.release p)).step (.dispatch h)
  | dispatch h => exact hm.step (.dispatch h)
  | fetch h slot now => exact hm.step (.fetch h slot now)
  | release p => exact hm.step (.release p)
  | compute p rs => exact hm.step (.process p _ rfl)
  | board b holder => exact hm.step (.board b holder)

/-- Whoever is taken for a hart is held. -/
theorem holds_of_serve {r : Request} (hr : r.Fits m) (hq : (r.serve.exec m).1 = some q) :
    (r.serve.exec m).2.Holds q := by
  cases r with
  | operation h op =>
    have hlock : (Machine.lock h).Keeps Steady := (Machine.lock_calm h).mono Calm.hands
    have hended := Attempt.HandsAt.bind hlock
      (fun _ => op.perform_hands h fun s hs => (Operation.caller_of_waitsAt hs).symm) m
    rw [operation_exec] at hq ⊢
    rw [← Operation.run] at hended
    rw [Attempt.HandsAt] at hended
    generalize (op.run h).exec m = e at hq hended ⊢
    obtain ⟨_ | a, m'⟩ := e
    · cases hq
    · exact (Hands.held hended q).2 (.inr hq)
  | call h p => exact ((Machine.handleCall_turns h (hr p rfl)).held q).2 (.inr hq)
  | trap p t => exact ((Machine.handleTrap_turns t (hr p rfl)).held q).2 (.inr hq)
  | timer h p => exact ((Machine.handleTimer_turns h (hr p rfl)).held q).2 (.inr hq)
  | dispatch h => exact ((Machine.nextProcess_hands h m).held q).2 (.inr hq)
  | fetch h slot now =>
    rcases Machine.fetch_cases h slot now q m with ⟨hne, _⟩ | ⟨x, deadline, hx, hget⟩
    · exact absurd hq hne
    · -- it was acquired, and so it is held
      show (((Machine.fetch h slot now).exec m).2.processes.get q).status.busy = true
      rw [hget]
      show x.status.busy = true
      rw [(Process.acquire?_status hx).2]
      rfl
  | release | compute | board => cases hq

end Request

/-! ## What becomes of a process that is stopped -/

namespace Process

/-- A process that is stopped is taken by nobody. -/
theorem acquire?_stopped (hx : x.status = .stopped) (now : Nat) : x.acquire? now = none := by
  simp [acquire?, hx, Status.stopped]

/-- Suspending it again changes nothing. -/
theorem suspend_stopped (hx : x.status = .stopped) : x.suspend = x := by
  obtain ⟨_, _, _, _⟩ := x
  obtain rfl := hx
  rfl

/-- A stopped process is not held, so there is nothing to release. -/
theorem release_stopped (hx : x.status = .stopped) : x.release = x := by
  obtain ⟨_, _, _, _⟩ := x
  obtain rfl := hx
  rfl

end Process

/-- A process that is stopped, and that is not let go on, is touched only to be edited. -/
theorem Operation.Touches.of_stopped (ht : op.Touches h m q x)
    (hq : (m.processes.get q).status = .stopped) (hop : ∀ s, op ≠ .monResume s q) :
    x = m.processes.get q ∨ ∃ s r w, op = .monWriteRegister s q r w ∧
      Machine.controls (m.table.get s) q = true ∧ x = (m.processes.get q).setRegister r w := by
  -- a stopped process does not wait and cannot be had, so that only a register is left
  cases ht with
  | message _ hs hd =>
    obtain ⟨hwaits, _⟩ := Process.receive?_eq hs.prepared.taken
    rw [hd, hs.aside.kernel, hq] at hwaits
    cases hwaits
  | suspend => exact .inl (Process.suspend_stopped hq)
  | resume => exact absurd rfl (hop _)
  | lend _ hx =>
    rw [Process.acquire?_stopped hq] at hx
    cases hx
  | @write s r w he => exact .inr ⟨s, r, w, rfl, he.controls, rfl⟩

namespace Machine

/-- No hart takes a process that is stopped. -/
theorem nextProcess_stopped (hq : (m.processes.get q).status = .stopped) (h : Hart) :
    ((nextProcess h).exec m).2.processes.get q = m.processes.get q := by
  rcases nextProcess_cases h q m with hn | ⟨_, x, _, hx, _⟩
  · exact hn
  · rw [Process.acquire?_stopped hq] at hx
    cases hx

/-- A process is left alone, or a monitor writes a register of it in an operation that is done; its
protection registers aside. -/
inductive Bypasses (q : Pid) (does : Operation → Prop) (m m' : Machine) : Prop
  | alone {b : Bank} : m'.processes.get q = { m.processes.get q with bank := b } →
      Bypasses q does m m'
  | written {s : Slot} {r : Register} {w : Word} {b : Bank} : does (.monWriteRegister s q r w) →
      controls (m.table.get s) q = true →
      m'.processes.get q = { (m.processes.get q).setRegister r w with bank := b } →
      Bypasses q does m m'

theorem Bypasses.of_eq {does : Operation → Prop}
    (he : m'.processes.get q = m.processes.get q) : Bypasses q does m m' :=
  .alone (b := (m.processes.get q).bank) he

/-- Whoever is passed over keeps its status. -/
theorem Bypasses.status {does : Operation → Prop} (hb : Bypasses q does m m') :
    (m'.processes.get q).status = (m.processes.get q).status := by
  cases hb with
  | alone he => rw [he]
  | written _ _ he =>
    rw [he]
    rfl

/-- An operation that touches a process that is stopped, and does not let it go on, at most writes a
register of it. -/
theorem Bypasses.of_touches {does : Operation → Prop} {b : Bank}
    (ht : op.Touches h m q x) (hq : (m.processes.get q).status = .stopped)
    (hdoes : does op) (hop : ∀ s, ¬ does (.monResume s q))
    (he : m'.processes.get q = { x with bank := b }) : Bypasses q does m m' := by
  rcases ht.of_stopped hq fun s hs => hop s (hs ▸ hdoes) with rfl | ⟨s, r, w, rfl, hc, rfl⟩
  · exact .alone he
  · exact .written hdoes hc he

/-- Work that concerns another process alone. -/
theorem Bypasses.of_solo {does : Operation → Prop} (hs : Solo p m m') (hq : q ≠ p) :
    Bypasses q does m m' :=
  .of_eq (hs q hq)

/-- What comes before leaves the process as it is, and the capabilities. -/
theorem Bypasses.preceded {does : Operation → Prop} (hb : Bypasses q does m₁ m')
    (ht : m₁.table = m.table) (he : m₁.processes.get q = m.processes.get q) :
    Bypasses q does m m' := by
  cases hb with
  | alone hget => exact .alone (by rw [hget, he])
  | written hdoes hc hget => exact .written hdoes (by rwa [← ht]) (by rw [hget, he])

/-- What comes after leaves the process as it is. -/
theorem Bypasses.followed {does : Operation → Prop} (hb : Bypasses q does m m₁)
    (he : m'.processes.get q = m₁.processes.get q) : Bypasses q does m m' := by
  cases hb with
  | alone hget => exact .alone (he.trans hget)
  | written hdoes hc hget => exact .written hdoes hc (he.trans hget)

end Machine

/-- An operation touches a process only if it is not refused, or it is for the process itself, and
then it is refused if the process is stopped. -/
theorem Operation.run_touches (hl : m.table.Strung) (h : Hart) (op : Operation)
    (hq : (m.processes.get q).status.suspended = true) :
    (∃ b, ((op.run h).exec m).2.processes.get q = { m.processes.get q with bank := b }) ∨
      ∃ a x b, ((op.run h).exec m).1 = .ok a ∧ op.Touches h m q x ∧
        ((op.run h).exec m).2.processes.get q = { x with bank := b } := by
  rcases Machine.lock_cases h m with hlock | hlock
  · rw [run, Attempt.exec_bind_ok hlock]
    rcases op.aside_or_effect h m with ha | ⟨he, hok⟩
    · exact .inl ⟨(m.processes.get q).bank, by rw [ha.kernel]⟩
    -- a process that is suspended may not begin to wait either
    by_cases hw : ∃ s, op.WaitsAt s ∧ q = s.owner
    · obtain ⟨s, hs, rfl⟩ := hw
      have hstopped := Operation.perform_stopped hs hq h
      rw [Attempt.Decides] at hstopped
      generalize (op.perform h).exec m = e at hstopped ⊢
      obtain ⟨_ | a, m'⟩ := e
      · exact .inl ⟨(m.processes.get s.owner).bank, by
          rw [show m'.toKernel = m.toKernel from Aside.kernel hstopped]⟩
      · exact hstopped.elim
    obtain ⟨x, b, rfl | ht, hget⟩ := he.meets hl fun s hs hqs => hw ⟨s, hs, hqs⟩
    · exact .inl ⟨b, hget⟩
    · rcases hok with ⟨a, ha⟩ | ⟨s, rfl⟩
      · exact .inr ⟨a, x, b, ha, ht, hget⟩
      · cases ht with
        | message hop => cases hop
  · rw [run, Attempt.exec_bind_error (Prod.ext hlock rfl)]
    exact .inl ⟨(m.processes.get q).bank, by rw [Machine.lock_processes]⟩

/-- Whatever is asked for bypasses a process that is stopped, unless it is let go on. -/
theorem Request.serve_bypasses {r : Request} (hl : m.table.Strung) (hr : r.Fits m)
    (hq : (m.processes.get q).status = .stopped) (hop : ∀ s, ¬ r.Obtains m (.monResume s q)) :
    Machine.Bypasses q (r.Obtains m) m (r.serve.exec m).2 := by
  -- whoever acts is held, and whoever is stopped is not
  have hother : ∀ p, r.runner? = some p → q ≠ p := by
    rintro p hp rfl
    have hheld := hr q hp
    rw [Machine.Holds, hq] at hheld
    cases hheld
  cases r with
  | operation h op =>
    rcases op.run_touches hl h (by rw [hq]; rfl) with ⟨b, he⟩ | ⟨a, x, b, ha, ht, he⟩
    · exact .alone he
    · exact .of_touches ht hq (.operation ha) hop he
  | call h p =>
    have hqp := hother p rfl
    have hrespond : Machine.Bypasses q (Obtains m (.call h p)) m
        ((Machine.respond h p).exec m).2 := by
      rcases Machine.respond_meets hl h hqp with ⟨b, he⟩ | ⟨op, m₁, o, x, b, hc, ho, _, ht, he⟩
      · exact .alone he
      · have hprocess := hc.process hqp
        have hobtains : Obtains m (.call h p) op := .call ⟨hc.requested, o, ho⟩
        exact (Machine.Bypasses.of_touches ht (by rw [hprocess, hq]) hobtains hop he).preceded
          hc.table hprocess
    show Machine.Bypasses q _ m ((Machine.handleCall h p).exec m).2
    rw [Machine.handleCall_exec]
    rcases Machine.finish_cases h ((m.processes.get p).register .t0)
      ((Machine.respond h p).exec m).1 hqp ((Machine.respond h p).exec m).2 with
      hf | ⟨_, m₁, hf, hm₁⟩
    · exact hrespond.followed hf
    · rw [hf]
      apply hrespond.followed
      rw [Machine.nextProcess_stopped _ h, hm₁]
      rw [hm₁, hrespond.status, hq]
  | trap p t => exact .of_solo (Machine.handleTrap_solo p t m) (hother p rfl)
  | timer h p =>
    have hgiven := Machine.release_solo p m q (hother p rfl)
    apply Machine.Bypasses.of_eq
    show ((Machine.nextProcess h).exec ((Machine.release p).exec m).2).2.processes.get q = _
    rw [Machine.nextProcess_stopped (by rw [hgiven, hq]), hgiven]
  | dispatch h => exact .of_eq (Machine.nextProcess_stopped hq h)
  | fetch h slot now =>
    rcases Machine.fetch_cases h slot now q m with ⟨_, he⟩ | ⟨_, _, hx, _⟩
    · exact .of_eq he
    · rw [Process.acquire?_stopped hq] at hx
      cases hx
  | release p =>
    apply Machine.Bypasses.of_eq
    show ((Machine.release p).exec m).2.processes.get q = _
    by_cases hp : q = p
    · subst hp
      simp [Machine.release, Process.release_stopped hq]
    · exact Machine.release_solo p m q hp
  | compute p rs =>
    have hsolo : (Machine.modifyProcess p fun q => { q with registers := rs }).Keeps (Solo p) :=
      Machine.modifyProcess_solo p _
    exact .of_solo (hsolo m) (hother p rfl)
  | board b holder => exact .of_eq rfl

/-! ## Words -/

namespace Status

/-- The third bit of the word says whether the process is suspended. -/
theorem word_suspended (s : Status) : s.word.getLsbD 2 = s.suspended := by
  simp only [word, BitVec.getLsbD_append, BitVec.getLsbD_ofBool]
  rfl

/-- Only who is stopped, and not held, has this word. -/
theorem word_eq_stopped {s : Status} : s.word = stopped.word ↔ s = .stopped := by
  refine ⟨fun hs => ?_, congrArg word⟩
  have hb := word_busy s
  have hu := word_suspended s
  have hw := word_wait s
  rw [hs] at hb hu hw
  obtain ⟨_, _, wait⟩ := s
  cases wait with
  | none => exact congrArg₂ (Status.mk · · none) hb.symm hu.symm
  | some => cases hw

end Status

/-! ## Runs -/

namespace Request

/-- What is asked for passes over a process that is stopped. -/
structure PassesOver (r : Request) (q : Pid) (m : Machine) : Prop where
  status : ((r.serve.exec m).2.processes.get q).status.word = Status.stopped.word
  taken : (r.serve.exec m).1 ≠ some q
  message : ∀ (h : Hart) (op : Operation) c, ¬ op.Finds h m q c
  registers : ∀ k, ((r.serve.exec m).2.processes.get q).register k ≠
    (m.processes.get q).register k → ∃ s w, r.Obtains m (.monWriteRegister s q k w) ∧
      Machine.controls (m.table.get s) q = true ∧
      ((r.serve.exec m).2.processes.get q).register k = w

end Request

def Machine.Detains (q : Pid) (m m' : Machine) : Prop :=
  ∃ r : Request, r.Fits m ∧ (∀ s, ¬ r.Obtains m (.monResume s q)) ∧ m' = (r.serve.exec m).2

/-- A process that is stopped is so until it is let go on. -/
theorem Reachable.stays_stopped (hm : Reachable roots m)
    (hq : (m.processes.get q).status = .stopped) (hrun : ReflTransGen (Machine.Detains q) m m₁) :
    Reachable roots m₁ ∧ (m₁.processes.get q).status = .stopped := by
  induction hrun with
  | refl => exact ⟨hm, hq⟩
  | tail _ hs ih =>
    obtain ⟨hm, hq⟩ := ih
    obtain ⟨r, hr, hop, rfl⟩ := hs
    exact ⟨r.reachable hm, (Request.serve_bypasses hm.lineal.strung hr hq hop).status.trans hq⟩

/-- From when the word of a process says that it is stopped, and nothing else, until a monitor lets
it go on, no hart takes it and no message finds it; its word says so again after everything that is
asked for; and only a monitor that has control over it writes its registers. -/
theorem passes_over_of_stopped {r : Request} (hm : Reachable roots m)
    (hq : (m.processes.get q).status.word = Status.stopped.word)
    (hrun : ReflTransGen (Machine.Detains q) m m₁) (hr : r.Fits m₁)
    (hop : ∀ s, ¬ r.Obtains m₁ (.monResume s q)) : r.PassesOver q m₁ := by
  obtain ⟨hm₁, hq₁⟩ := hm.stays_stopped (Status.word_eq_stopped.1 hq) hrun
  -- up to the request it stays stopped, and the request passes it by
  have hbypasses := Request.serve_bypasses hm₁.lineal.strung hr hq₁ hop
  have hstatus := hbypasses.status.trans hq₁
  constructor
  case status => rw [hstatus]
  case taken =>
    intro htaken
    have hheld := Request.holds_of_serve hr htaken
    rw [Machine.Holds, hstatus] at hheld
    cases hheld
  case message =>
    intro h op c hf
    have hwaits := hf.waiting
    rw [hq₁] at hwaits
    cases hwaits
  case registers =>
    intro k hk
    cases hbypasses with
    | alone he =>
      rw [he] at hk
      exact absurd rfl hk
    | @written s k' w b hdoes hc he =>
      rw [he] at hk ⊢
      -- only one register was written
      obtain rfl : k' = k := by
        by_contra hne
        exact hk (Registers.get_set_of_ne _ _ hne)
      exact ⟨s, w, hdoes, hc, by simp [Process.register, Process.setRegister]⟩

/-- A server is stopped while it waits. It is still in the registry when a client calls it, which is
refused, and when its monitor writes a register of it. -/
theorem passes_over_of_stopped_server : ∃ m m₁,
    Reachable [.wholeTime 0 0 64, .wholeMonitor 0 8, .wholeChannel 0 16] m ∧
      (m.processes.get 1).status.word = Status.stopped.word ∧
      ReflTransGen (Machine.Detains 1) m m₁ ∧ m₁.registry.waiter 3 .server = some ⟨1, ⟨1, 1⟩⟩ ∧
      (Request.operation 0 (.monWriteRegister ⟨0, 1⟩ 1 .a0 7)).PassesOver 1 m₁ ∧
      (((Request.operation 0 (.monWriteRegister ⟨0, 1⟩ 1 .a0 7)).serve.exec m₁).2.processes.get
        1).register .a0 = 7 := by
  obtain ⟨m₀, hm₀, h₀⟩ := exists_meeting
  obtain ⟨m, hsuspended⟩ : ∃ m, m =
    ((Request.operation 0 (.monSuspend ⟨0, 1⟩ 1)).serve.exec m₀).2 := ⟨_, rfl⟩
  obtain ⟨m₁, hcalled⟩ : ∃ m₁, m₁ =
    ((Request.operation 0 (.call ⟨0, 4⟩ ⟨5, false, #v[9, 8, 7, 6]⟩)).serve.exec m).2 := ⟨_, rfl⟩
  -- process 1 waits as a server when it is suspended; then a client calls it
  have hm := hsuspended ▸ Request.reachable _ hm₀.reachable
  have hq : (m.processes.get 1).status.word = Status.stopped.word := by
    rw [hsuspended, h₀]; decide +kernel
  have hwaiter : m₁.registry.waiter 3 .server = some ⟨1, ⟨1, 1⟩⟩ := by
    rw [hcalled, hsuspended, h₀]; decide +kernel
  have hfits : ∀ op m, (Request.operation 0 op).Fits m := fun _ _ _ hp => nomatch hp
  have hrun : ReflTransGen (Machine.Detains 1) m m₁ := by
    refine .single ⟨_, hfits _ _, ?_, hcalled⟩
    intro s hs
    cases hs
  refine ⟨m, m₁, hm, hq, hrun, hwaiter, passes_over_of_stopped hm hq hrun (hfits _ _) ?_, ?_⟩
  · intro s hs
    cases hs
  · rw [hcalled, hsuspended, h₀]; decide +kernel

end SepKernel
