import SepKernel.Proofs.Harts.Timers
import SepKernel.Proofs.Harts.Waking

/-!
# Waiting without a deadline

A server that waits for a client, and a client that keeps the hart and waits for its answer, wait
without a deadline. As long as the clock does not come to its end, and no monitor lets the process
go on while it waits, such a wait ends by a message or because the process is stopped, and never
because the time is up. A monitor that lets a process go on which is not stopped takes its deadline
away, and so the time is up at once.
-/

namespace SepKernel

variable {m m' m₁ : Machine} {roots : List Capability} {h : Hart} {p q : Pid} {s : Slot}
  {op : Operation} {c : ChannelWord} {k : Socket} {msg : Message}

/-- Does the owner of a slot wait without a deadline at the end of the operation, if it succeeds? A
server does, and a client that keeps the hart. -/
def Operation.Endless (op : Operation) (m : Machine) (s : Slot) (c : ChannelWord) : Prop :=
  op.WaitsAt s ∧ ∃ k, m.table.get s = .socket k ∧ (k.role = .client → k.mode = .keep) ∧
    k.chan.setWidth 32 = c

/-- Does a process wait on a channel without a deadline? -/
def Machine.Endless (m : Machine) (p : Pid) (c : ChannelWord) : Prop :=
  (m.processes.get p).status = .waiting c ∧ (m.processes.get p).deadline = never

/-! ## The beginning of the wait -/

namespace Machine

/-- Whoever does not wait is not the receiver, so that its status stays. -/
theorem Sends.status {d : Delivery} (hs : Sends h s msg m d m₁) (hl : m.table.Strung)
    (hp : (m.processes.get p).status.wait = none) :
    (((deliver d).exec m₁).2.processes.get p).status = (m.processes.get p).status := by
  obtain ⟨_, hd⟩ := deliver_delivered hs.prepared (by rwa [hs.aside.kernel])
  have hreceiver : p ≠ d.receiver.pid := by
    rintro rfl
    obtain ⟨hwaits, _⟩ := Process.receive?_eq hs.prepared.taken
    rw [hs.aside.kernel] at hwaits
    rw [hwaits] at hp
    cases hp
  obtain ⟨b, hb⟩ := hd.others p hreceiver
  rw [hb, hs.aside.kernel]

/-- The same for an answer, whether it is delivered or dropped. -/
theorem Answers.status {n : Next} (ha : Answers h s msg m n m') (hl : m.table.Strung)
    (hp : (m.processes.get p).status.wait = none) :
    (m'.processes.get p).status = (m.processes.get p).status := by
  cases ha with
  | deliver hs => exact hs.status hl hp
  | drop h₁ => rw [(dropAnswer_clerical _ _ _).settled.calm p, h₁.calm p]

/-- A server waits for as long as it takes. -/
theorem awaitClient_deadline (k : Socket) (p : Pid) (b : Slot) (m : Machine) :
    (((awaitClient k p b).exec m).2.processes.get p).deadline = never := by
  simp [awaitClient, awaitForever]

/-- So does a client that lends nobody its hart. -/
theorem awaitAnswer_deadline (k : Socket) (p : Pid) (b : Slot) (m : Machine) :
    (((awaitAnswer k p b none).exec m).2.processes.get p).deadline = never := by
  simp [awaitAnswer, awaitForever]

end Machine

namespace Operation

/-- An operation at the end of which somebody waits has its effect, or is refused. -/
theorem WaitsAt.decides (hop : op.WaitsAt s) (h : Hart) (m : Machine) :
    (op.perform h).Decides m fun _ => op.Effect h m := by
  cases op with
  | receive => exact .map (Machine.receive_effect _ _ m) _
  | call => exact .map (Machine.call_effect h _ _ m) _
  | replyReceive => exact .map (Machine.replyReceive_effect h _ _ m) _
  | sendReceive => exact .map (Machine.sendReceive_effect h _ _ m) _
  | _ => exact hop.elim

theorem Endless.congr (hop : op.Endless m s c) (ht : m₁.table = m.table) : op.Endless m₁ s c := by
  rwa [Endless, ht]

/-- The wait that begins with such an operation has no deadline. -/
theorem Effect.endless (he : op.Effect h m m') (hl : m.table.Strung) (hop : op.Endless m s c)
    (hidle : (m.processes.get s.owner).status.wait = none) :
    (m'.processes.get s.owner).status = ⟨(m.processes.get s.owner).status.busy,
        (m.processes.get s.owner).status.suspended, some c⟩ ∧
      (m'.processes.get s.owner).deadline = never := by
  obtain ⟨hs, k, hk, hmode, rfl⟩ := hop
  -- whoever enters the registry waits on the channel of its socket
  have hstatus : ∀ {m₁ m₂ : Machine}, Machine.Enters k s.owner m₁ m₂ →
      (m₁.processes.get s.owner).status = (m.processes.get s.owner).status →
      (m₂.processes.get s.owner).status = ⟨(m.processes.get s.owner).status.busy,
        (m.processes.get s.owner).status.suspended, some (k.chan.setWidth 32)⟩ := by
    intro m₁ m₂ hent h₁
    simp [hent.status, Process.await, h₁, hidle]
  induction he with
  | receive h₁ hsocket =>
    obtain rfl := hs
    cases hk.symm.trans hsocket
    exact ⟨hstatus (Machine.awaitClient_enters ..) (h₁.calm _), Machine.awaitClient_deadline ..⟩
  | @call x _ d _ hsends hrole =>
    obtain rfl := hs
    cases hk.symm.trans hsends.socket
    -- the hart is not lent, so that the wait has no deadline
    obtain ⟨hanswer, _⟩ := Machine.deliver_delivered hsends.prepared
      (by rwa [hsends.aside.kernel])
    have hlent : d.answer.lent = none := by rw [Machine.Delivery.answer, hmode hrole]; rfl
    rw [hanswer, hlent]
    exact ⟨hstatus (Machine.awaitAnswer_enters ..) (hsends.status hl hidle),
      Machine.awaitAnswer_deadline ..⟩
  | replyReceive hsocket _ _ _ ha =>
    obtain rfl := hs
    cases hk.symm.trans hsocket
    exact ⟨hstatus (Machine.awaitClient_enters ..) (ha.status hl hidle),
      Machine.awaitClient_deadline ..⟩
  | exchange _ ih => exact ih hs
  | exchangeBack _ ih => exact ih hs
  | _ => cases hs

end Operation

namespace Machine

/-- Whoever calls for such an operation waits, and is still held, when the operation has
answered. -/
theorem Obtains.endless (ho : m.Obtains h s.owner op) (hop : op.Endless m s c)
    (hl : m.table.Strung) (hp : m.Holds s.owner) (ha : m.Awake s.owner) :
    (((respond h s.owner).exec m).2.processes.get s.owner).status = ⟨true, false, some c⟩ ∧
      (((respond h s.owner).exec m).2.processes.get s.owner).deadline = never := by
  obtain ⟨m₁, a, hc, hok⟩ := ho.carries
  have hstatus : (m₁.processes.get s.owner).status = (m.processes.get s.owner).status := by
    rw [hc.kernel, stepped, Processes.get_put_self]
    rfl
  -- a caller that is to be stopped is not let wait
  have hgoing : (m₁.processes.get s.owner).status.suspended = false := by
    rw [← Bool.not_eq_true]
    exact fun hs => (Operation.perform_stopped hop.1 hs h).of_ok hok
  have hidle : (m₁.processes.get s.owner).status.wait = none := by rw [hstatus, ha hp]
  obtain ⟨hs, hd⟩ := ((hop.1.decides h m₁).of_ok hok).endless (by rwa [hc.table])
    (hop.congr hc.table) hidle
  rw [hc.machine, hs, hgoing, hstatus, hp]
  exact ⟨rfl, hd⟩

/-- A hart does not take a process that waits without a deadline, unless the clock has come to its
end. -/
theorem Endless.nextProcess (he : m.Endless p c)
    (hclock : ((nextProcess h).exec m).2.board.time < never) :
    ((nextProcess h).exec m).2.Endless p c := by
  rcases nextProcess_cases h p m with hn | ⟨_, x, deadline, hx, _⟩
  · rwa [Endless, hn]
  · -- to be taken, its time would have to be up
    obtain ⟨hd, _⟩ := Process.acquire?_waiting he.1 hx
    rw [he.2] at hd
    exact absurd hclock (Nat.not_lt.2 hd)

/-- Whoever waits without a deadline when its operation has answered does so when the call ends,
unless the clock has come to its end. -/
theorem handleCall_endless (hp : m.Holds p) (ha : m.Awake p)
    (hs : (((respond h p).exec m).2.processes.get p).status = ⟨true, false, some c⟩)
    (hd : (((respond h p).exec m).2.processes.get p).deadline = never)
    (hclock : ((handleCall h p).exec m).2.board.time < never) :
    ((handleCall h p).exec m).2.Endless p c := by
  have hended := respond_ended h p m
  rw [handleCall_exec] at hclock ⊢
  generalize (respond h p).exec m = e at hs hd hended hclock ⊢
  obtain ⟨r, m₁⟩ := e
  have hreleased : ((release p).exec m₁).2.Endless p c := by
    have hget : ((release p).exec m₁).2.processes.get p = (m₁.processes.get p).release := by
      simp [release]
    rw [Endless, hget, Process.deadline_release, Process.release, hs]
    exact ⟨rfl, hd⟩
  -- the caller waits, so that it is told nothing and the hart does not go on with it
  rcases wait_of_ended hended hp ha with hw | rfl | ⟨q, rfl⟩
  · rw [hs] at hw
    cases hw
  · exact hreleased.nextProcess hclock
  · cases q with
    | none => exact hreleased.nextProcess hclock
    | some q =>
      have hqp : q ≠ p := by
        rintro rfl
        exact Hands.fresh hended q rfl hp
      have hexec : (finish h p ((m.processes.get p).register .t0)
          (.ok (.next (.blocked (some q))))).exec m₁ = (some q, ((release p).exec m₁).2) := by
        simp [finish, conclude, hqp]
      rwa [hexec]

end Machine

/-! ## The end of the wait -/

namespace System

variable {s s' : System} {e : Ending}

def Resumes (s s' : System) (q : Pid) : Prop :=
  ∃ h p x, s.Calls h p (.monResume x q) s'

/-- Whoever calls for an operation at the end of which it waits without a deadline does so. -/
theorem Calls.endless {x : Slot} (hcalls : s.Calls h p op s') (hs : s.Reachable roots)
    (hop : op.Endless s.machine x c) (hclock : s'.machine.board.time < never) :
    s'.machine.Endless p c := by
  have ha := hs.accounted
  obtain ⟨hp, ho, rfl⟩ := hcalls
  obtain ⟨m₁, _, hc, _⟩ := ho.carries
  obtain rfl := hc.for.of_waitsAt hop.1
  have hheld := (ha.held _).2 ⟨h, hp⟩
  obtain ⟨hstatus, hd⟩ := ho.endless hop hs.machine.lineal.strung hheld (ha.awake _)
  exact Machine.handleCall_endless hheld (ha.awake _) hstatus hd hclock

/-- The time of a process that waits without a deadline is never up. -/
theorem Ends.ne_timeout (he : s.Ends p c e s')
    (hd : (s.machine.processes.get p).deadline = never) (hclock : s.machine.board.time < never)
    (hclock' : s'.machine.board.time < never) : e ≠ .timeout := by
  rintro rfl
  cases he with
  | lent _ htime =>
    rw [hd] at htime
    exact absurd hclock (Nat.not_lt.2 htime)
  | taken _ _ _ htime =>
    rw [hd] at htime
    exact absurd hclock' (Nat.not_lt.2 htime)

/-- A wait without a deadline ends in a step, with a message or because the process is stopped, and
the process is told so. -/
def Leaves (s s' : System) (p : Pid) (c : ChannelWord) : Prop :=
  s.Ends p c .message s' ∧ (s'.machine.processes.get p).register .t0 = 0 ∨
    s.Ends p c .suspension s' ∧
      (s'.machine.processes.get p).register .t0 = Error.suspended.word

/-- A process that waits without a deadline goes on waiting, or its wait ends, unless it is let go
on. -/
theorem Step.endless (hstep : s.Step s') (hs : s.Reachable roots) (he : s.machine.Endless p c)
    (hclock : s.machine.board.time < never) (hclock' : s'.machine.board.time < never)
    (hno : ¬ s.Resumes s' p) : s'.machine.Endless p c ∨ s.Leaves s' p c := by
  cases hstep.fares hs he.1 with
  | waits hget =>
    left
    rwa [Machine.Endless, hget]
  | resumed hcalls => exact absurd ⟨_, _, _, hcalls⟩ hno
  | @ends e hends =>
    right
    have htold := (hends.tells hs he.1).2
    -- a wait without a deadline does not run out
    cases e with
    | message => exact .inl ⟨hends, htold⟩
    | timeout => exact absurd rfl (hends.ne_timeout he.2 hclock hclock')
    | suspension => exact .inr ⟨hends, htold⟩

variable {run : ℕ → System} {i n : ℕ}

/-- In a run in which nobody lets it go on, a process that waits without a deadline waits until the
end, or until its wait ends with a message or because it is stopped. -/
theorem Run.endless (hr : Run roots run n) (hi : i ≤ n) (he : (run i).machine.Endless p c)
    (hclock : ∀ k, i ≤ k → k ≤ n → (run k).machine.board.time < never)
    (hno : ∀ k, i ≤ k → k < n → (run k).machine.Endless p c → ¬ (run k).Resumes (run (k + 1)) p) :
    (∀ j, i ≤ j → j ≤ n → (run j).machine.Endless p c) ∨
      ∃ k, i ≤ k ∧ k < n ∧ (∀ j, i ≤ j → j ≤ k → (run j).machine.Endless p c) ∧
        (run k).Leaves (run (k + 1)) p c := by
  -- by induction on the length: the last step goes on from a wait that has not ended
  induction n with
  | zero =>
    left
    intro j hij hj
    rwa [show j = i by omega]
  | succ n ih =>
    rcases Nat.le_succ_iff.1 hi with hi | rfl
    · rcases ih hr.init hi (fun k hik hk => hclock k hik (Nat.le_succ_of_le hk))
        (fun k hik hk => hno k hik (Nat.lt_succ_of_lt hk)) with hall | ⟨k, hik, hk, hleaves⟩
      · have hn := hall n hi le_rfl
        rcases (hr.step n n.lt_succ_self).endless hr.init.reachable hn
          (hclock n hi n.le_succ) (hclock (n + 1) (Nat.le_succ_of_le hi) le_rfl)
          (hno n hi n.lt_succ_self hn) with hstays | hleaves
        · left
          intro j hij hj
          rcases Nat.le_succ_iff.1 hj with hj | rfl
          · exact hall j hij hj
          · exact hstays
        · exact .inr ⟨n, hi, n.lt_succ_self, hall, hleaves⟩
      · exact .inr ⟨k, hik, Nat.lt_succ_of_lt hk, hleaves⟩
    · left
      intro j hij hj
      rwa [show j = n + 1 by omega]

end System

/-- A process that has called for an operation at the end of which it waits without a deadline waits
for a message. As long as the clock does not come to its end, and nobody lets the process go on
while it waits, the wait ends only with a message on the channel, or because the process is
stopped, and the process is told so. -/
theorem endless_until_message_or_suspension {run : ℕ → System} {i n : ℕ}
    (hr : System.Run roots run n) (hi : i < n)
    (hcalls : (run i).Calls h p op (run (i + 1))) (hop : op.Endless (run i).machine s c)
    (hclock : ∀ k, i < k → k ≤ n → (run k).machine.board.time < never)
    (hno : ∀ k, i < k → k < n → (run k).machine.Endless p c →
      ¬ (run k).Resumes (run (k + 1)) p) :
    (∀ j, i < j → j ≤ n → (run j).machine.Endless p c) ∨
      ∃ k, i < k ∧ k < n ∧ (∀ j, i < j → j ≤ k → (run j).machine.Endless p c) ∧
        (run k).Leaves (run (k + 1)) p c := by
  have hbefore : System.Run roots run i :=
    ⟨hr.boot, fun k hk => hr.step k (Nat.lt_trans hk hi)⟩
  have hbegun := hcalls.endless hbefore.reachable hop (hclock (i + 1) i.lt_succ_self hi)
  exact hr.endless hi hbegun hclock hno

/-- A server waits for a client, and is sent a message. -/
theorem endless_until_message_sent : ∃ run : ℕ → System,
    System.Run [.wholeTime 0 0 32, .wholeTime 0 32 64, .wholeMonitor 0 8,
      .socket ⟨3, .keep, .ofBits 15, 0⟩, .socket ⟨3, .keep, .ofBits 15, 5⟩] run 13 ∧
    (run 10).Calls 0 1 (.receive ⟨1, 1⟩ 2) (run 11) ∧ (run 11).machine.Endless 1 3 ∧
    (run 12).Ends 1 3 .message (run 13) ∧
    ((run 13).machine.processes.get 1).register .t0 = 0 := by
  let roots : List Capability := [.wholeTime 0 0 32, .wholeTime 0 32 64, .wholeMonitor 0 8,
    .socket ⟨3, .keep, .ofBits 15, 0⟩, .socket ⟨3, .keep, .ofBits 15, 5⟩]
  obtain ⟨run, he⟩ : ∃ run, run = System.script ((Machine.boot roots).exec .initial).2 0
    (System.serving 0 1 ++ [(0, [(.t0, 22), (.a0, 4), (.a1, 5)])]) := ⟨_, rfl⟩
  have hr : System.Run roots run 13 := he ▸ System.Run.of_script rfl (by decide +kernel)
  -- process 1 serves channel 3, and process 0 sends it a message
  have hcalls : (run 10).Calls 0 1 (.receive ⟨1, 1⟩ 2) (run 11) := by
    rw [he]
    exact ⟨by decide +kernel, ⟨by decide +kernel, .next (.blocked none), by decide +kernel⟩, rfl⟩
  have hop : (Operation.receive ⟨1, 1⟩ 2).Endless (run 10).machine ⟨1, 1⟩ 3 :=
    ⟨rfl, ⟨3, .keep, .ofBits 15, 0⟩, by rw [he]; decide +kernel, by rintro ⟨⟩, rfl⟩
  have hclock : ∀ k, k ≤ 13 → (run k).machine.board.time < never := by
    rw [he]; decide +kernel
  have hasked : ∀ h p, ((run 11).running h = some p → (run 11).machine.requested? p = none) ∧
      ((run 12).running h = some p → (run 12).machine.requested? p =
        some (.send ⟨0, 4⟩ ⟨5, false, .replicate 4 0⟩)) := by
    rw [he]; decide +kernel
  have hno : ∀ k, 10 < k → k < 13 → (run k).machine.Endless 1 3 →
      ¬ (run k).Resumes (run (k + 1)) 1 := by
    rintro k h₁ h₂ _ ⟨h, p, x, hresumes⟩
    have hop := hresumes.obtains.1
    obtain rfl | rfl : k = 11 ∨ k = 12 := by omega
    · rw [(hasked h p).1 hresumes.runs] at hop
      cases hop
    · rw [(hasked h p).2 hresumes.runs] at hop
      cases hop
  have htold : ((run 12).machine.processes.get 1).register .t0 = Error.timeout.word ∧
      ((run 13).machine.processes.get 1).register .t0 = 0 ∧
      ((run 13).machine.processes.get 1).status = .ready := by rw [he]; decide +kernel
  have hwaits := hcalls.endless (hr.init.init.init).reachable hop (hclock 11 (by decide))
  rcases endless_until_message_or_suspension hr (by decide) hcalls hop (fun k _ => hclock k) hno
    with hall | ⟨k, h₁, h₂, _, hleaves⟩
  · have hready := (hall 13 (by decide) le_rfl).1
    rw [htold.2.2] at hready
    cases hready
  · refine ⟨run, hr, hcalls, hwaits, ?_, htold.2.1⟩
    obtain rfl | rfl : k = 11 ∨ k = 12 := by omega
    · rcases hleaves with ⟨_, ht⟩ | ⟨_, ht⟩ <;> rw [htold.1] at ht <;> exact absurd ht (by decide)
    · rcases hleaves with ⟨hends, _⟩ | ⟨_, ht⟩
      · exact hends
      · rw [htold.2.1] at ht
        exact absurd ht (by decide)

/-- A server waits for a client, without a deadline. Its monitor lets it go on, although it is not
stopped, and lends it the hart: the server is told that its time is up. -/
theorem endless_timed_out : ∃ run : ℕ → System,
    System.Run [.wholeTime 0 0 32, .wholeTime 0 32 64, .wholeMonitor 0 8,
      .socket ⟨3, .keep, .ofBits 15, 0⟩] run 15 ∧
    (∀ k ≤ 15, (run k).machine.board.time < never) ∧
    (run 10).Calls 0 1 (.receive ⟨1, 1⟩ 2) (run 11) ∧
    (Operation.receive ⟨1, 1⟩ 2).Endless (run 10).machine ⟨1, 1⟩ 3 ∧
    (run 11).machine.Endless 1 3 ∧ (run 12).Calls 0 0 (.monResume ⟨0, 2⟩ 1) (run 13) ∧
    (run 14).Ends 1 3 .timeout (run 15) ∧ (run 15).running 0 = some 1 ∧
    ((run 15).machine.processes.get 1).register .t0 = Error.timeout.word := by
  let roots : List Capability := [.wholeTime 0 0 32, .wholeTime 0 32 64, .wholeMonitor 0 8,
    .socket ⟨3, .keep, .ofBits 15, 0⟩]
  let wake : List (Pid × List (Register × Word)) :=
    [(0, [(.t0, 13), (.a0, 2), (.a1, 1)]), (0, [(.t0, 15), (.a0, 2), (.a1, 1)])]
  obtain ⟨run, he⟩ : ∃ run, run = System.script ((Machine.boot roots).exec .initial).2 0
    (System.serving 0 1 ++ wake) := ⟨_, rfl⟩
  have hr : System.Run roots run 15 := he ▸ System.Run.of_script rfl (by decide +kernel)
  -- process 1 serves channel 3
  have hcalls : (run 10).Calls 0 1 (.receive ⟨1, 1⟩ 2) (run 11) := by
    rw [he]
    exact ⟨by decide +kernel, ⟨by decide +kernel, .next (.blocked none), by decide +kernel⟩, rfl⟩
  have hop : (Operation.receive ⟨1, 1⟩ 2).Endless (run 10).machine ⟨1, 1⟩ 3 :=
    ⟨rfl, ⟨3, .keep, .ofBits 15, 0⟩, by rw [he]; decide +kernel, by rintro ⟨⟩, rfl⟩
  have hclock : ∀ k ≤ 15, (run k).machine.board.time < never := by
    rw [he]; decide +kernel
  have hresumes : (run 12).Calls 0 0 (.monResume ⟨0, 2⟩ 1) (run 13) := by
    rw [he]
    exact ⟨by decide +kernel, ⟨by decide +kernel, .done, by decide +kernel⟩, rfl⟩
  have hlends : (run 14).Calls 0 0 (.monYield ⟨0, 2⟩ 1) (run 15) := by
    rw [he]
    exact ⟨by decide +kernel, ⟨by decide +kernel, .next (.yield 1), by decide +kernel⟩, rfl⟩
  refine ⟨run, hr, hclock, hcalls, hop, ?_, hresumes, .lent hlends ?_, ?_, ?_⟩
  · rw [he]
    exact ⟨by decide +kernel, by decide +kernel⟩
  all_goals rw [he]; decide +kernel

end SepKernel
