import Mathlib.Data.List.GetD
import SepKernel.Proofs.Channel.Listing
import SepKernel.Proofs.Harts.Running
import SepKernel.Proofs.Machine.Authority

/-!
# Whoever waits is in the registry

A process that waits for a message is in the registry, where the one that sends it looks for a
receiver. Whatever the harts do meanwhile, and in whatever order, it stays there, unless somebody
gives up a server of its channel, or the process itself a socket of its end, or another process
takes its place. The last is not ruled out: if a server receives again before it has answered, the
next call is registered over the client that still waits (`blocked_replaced`).

The main result is about whole runs, for what a process has been struck out for cannot be told from
the system in the end: who gave the socket up may have another one by then.
-/

namespace SepKernel

variable {m m' m₁ : Machine} {roots : List Capability} {h : Hart} {p q : Pid} {x : Slot}
  {c : ChannelWord}

/-! ## Channels that exist -/

/-- A root makes no sockets of channels that do not exist. -/
theorem Capability.Grants.chan_lt {root : Capability} {k : Socket} (hg : root.Grants (.socket k))
    (hr : root.isRoot = true) : k.chan.toNat < 16 := by
  cases hg with
  | @socket s _ hs =>
    simp only [isRoot, decide_eq_true_eq] at hr
    exact Nat.lt_of_lt_of_le hs.2 hr.2
  | itself => exact of_decide_eq_true hr
  | client _ _ hc =>
    rw [← hc]
    exact of_decide_eq_true hr

/-- A machine is booted from roots. -/
theorem Reachable.isRoot (hm : Reachable roots m) : ∀ c ∈ roots, c.isRoot = true := by
  induction hm with
  | boot hb => exact (Machine.boot_ok hb).2.1
  | step _ _ ih => exact ih

/-- There are sixteen channels, so that the number of a channel is its own remainder. -/
theorem Reachable.chan_lt (hm : Reachable roots m) {k : Socket} (hk : m.table.get x = .socket k) :
    k.chan.toNat < 16 := by
  have hx : m.table.get x ≠ .null := by
    rw [hk]
    rintro ⟨⟩
  obtain ⟨i, hi⟩ := hm.reflects.exists_holder hx
  obtain ⟨_, root, _, hroot, hg⟩ := hm.granted hi
  rw [hk] at hg
  exact hg.chan_lt (hm.isRoot root (List.mem_of_getElem? hroot))

/-! ## What has nothing to do with channels -/

theorem sleepChannel_or (c : ChannelWord) : sleepChannel ||| c = sleepChannel :=
  BitVec.allOnes_or

namespace Machine

open Action.Keeps

/-- Stepping over the instruction of a call has nothing to do with the waiters. -/
theorem stepped_aloof (hk : m₁.toKernel = (m.stepped p).toKernel) : Aloof m m₁ := by
  have hs : Aloof m (m.stepped p) :=
    modifyProcess_still p (f := fun x => x.setRegister .pc (x.register .pc + 4)) (fun _ => rfl) m
  refine ⟨by rw [hk, hs.table], by rw [hk, hs.registry], fun q c hb => hs.blocked q c ?_⟩
  rwa [Blocked, hk] at hb

theorem modifyBoard_aloof (f : Board → Board) : (modifyBoard f).Keeps Aloof :=
  modify fun _ => ⟨rfl, rfl, fun _ _ hb => hb⟩

theorem lock_aloof (h : Hart) : (lock h).Keeps Aloof :=
  lock_keeps (modifyBoard_aloof _)

theorem expect_aloof (f : Fault) (b : Bool) : (expect f b).Keeps Aloof :=
  expect_keeps (fun _ _ => ⟨rfl, rfl, fun _ _ hb => hb⟩) f b

theorem release_aloof (p : Pid) : (release p).Keeps Aloof :=
  release_keeps Aside.aloof expect_aloof
    (modifyProcess_aloof p fun _ _ hw => .inr (Process.wait_of_release hw))

theorem conclude_aloof (p : Pid) (number : Word) (r : Except Error Outcome) :
    (conclude p number r).Keeps Aloof :=
  conclude_keeps Aside.aloof (fun hf => modifyProcess_still p fun x => by rw [hf]) number r

/-- Whoever is taken for a hart does not wait. -/
theorem nextProcess_aloof (h : Hart) : (nextProcess h).Keeps Aloof := by
  apply nextProcess_keeps Aside.aloof expect_aloof modifyBoard_aloof
  intro m p x now hx deadline
  apply aloof_put
  intro c hw
  rw [(Process.acquire?_status hx).2] at hw
  cases hw

theorem handleTrap_aloof (p : Pid) (t : Trap) : (handleTrap p t).Keeps Aloof :=
  bind (note_aloof _) fun _ => bind (modifyProcess_still p fun _ => rfl) fun _ => pure _

theorem finish_aloof (h : Hart) (p : Pid) (number : Word) (r : Except Error Outcome) :
    (finish h p number r).Keeps Aloof :=
  finish_keeps (conclude_aloof p) (release_aloof p) (nextProcess_aloof h) number r

/-- A process that sleeps does not wait for a message. -/
theorem sleep_aloof (p : Pid) (time : Nat) : (modifyProcess p (·.sleep time)).Keeps Aloof := by
  apply modifyProcess_aloof
  intro x c hw
  left
  simpa [Process.sleep, Process.await, sleepChannel_or, eq_comm] using hw

/-- What a process does to itself has nothing to do with the waiters. -/
theorem performOwn_aloof (h : Hart) (p : Pid) (c : OwnCall) : (performOwn h p c).Keeps Aloof :=
  performOwn_keeps Aside.aloof expect_aloof
    (fun hf => modifyProcess_still p fun x => by rw [hf])
    (modifyProcess_still p fun _ => rfl) (sleep_aloof p) h c

end Machine

/-! ## Steps -/

/-- Work in which whoever waits in the end is in the registry, unless it waited before, and was
struck out if it is not in the registry any more. -/
def Heeds (p : Pid) (m m' : Machine) : Prop :=
  ∀ c, m'.Blocked p c → m'.Listed p c ∨ m.Blocked p c ∧ Machine.Retains p m m'

theorem Abides.heeds (h : Abides p m m') : Heeds p m m' :=
  fun c hb => .inr (h c hb)

theorem Aloof.heeds (h : Aloof m m') : Heeds p m m' :=
  h.abides.heeds

/-- Work that has nothing to do with the waiters may follow. -/
theorem Heeds.followed (h : Heeds p m m₁) (ha : Aloof m₁ m') : Heeds p m m' := by
  intro c hb
  rcases h c (ha.blocked p c hb) with hlisted | ⟨hb, hr⟩
  · exact .inl (ha.listed hlisted)
  · exact .inr ⟨hb, hr.around (refl_of Aloof m) ha⟩

namespace Machine

/-- An operation heeds the waiters, whoever asks for it. -/
theorem respond_heeds (h : Hart) (hm : Reachable roots m)
    (hq : (m.processes.get q).status.wait = none) : Heeds p m ((respond h q).exec m).2 := by
  have hresponds := respond_responds h q m
  generalize (respond h q).exec m = r at hresponds ⊢
  obtain ⟨_, _⟩ := r
  cases hresponds with
  | unread => exact (stepped_aloof rfl).heeds
  | own hk => exact (trans_of Aloof (stepped_aloof hk) (performOwn_aloof h q _ _)).heeds
  | locked hk => exact (trans_of Aloof (stepped_aloof hk) (lock_aloof h _)).heeds
  | @carried op m₁ hc =>
    have hstepped : Aloof m m₁ := stepped_aloof hc.kernel
    have hl : m₁.table.Lineal := by
      rw [hc.table]
      exact hm.lineal
    rw [hc.machine]
    rcases op.aside_or_effect h m₁ with ha | ⟨he, _⟩
    · exact (trans_of Aloof hstepped ha.aloof).heeds
    -- the process begins to wait itself, or it is somebody else's operation
    by_cases hw : ∃ s, op.WaitsAt s ∧ p = s.owner
    · obtain ⟨s, hs, rfl⟩ := hw
      obtain rfl := hc.for.of_waitsAt hs
      have hchan : ∀ x k, m₁.table.get x = .socket k → k.chan.toNat < 16 := by
        intro x k hk
        rw [hc.table] at hk
        exact hm.chan_lt hk
      have hidle : (m₁.processes.get s.owner).status.wait = none := by
        rw [hc.kernel, stepped, Processes.get_put_self]
        exact hq
      exact fun c hb => .inl (he.listed hl.strung hchan hs hidle hb)
    · have habides := he.abides hl fun s hs hp => hw ⟨s, hs, hp⟩
      exact (habides.after hstepped).heeds

/-- A whole call does. -/
theorem handleCall_heeds (h : Hart) (hm : Reachable roots m)
    (hq : (m.processes.get q).status.wait = none) : Heeds p m ((handleCall h q).exec m).2 := by
  rw [handleCall_exec]
  exact (respond_heeds h hm hq).followed (finish_aloof h q _ _ _)

end Machine

namespace System

variable {s s' : System}

/-- Whatever happens to a system, whoever waits then is in the registry, or it waited before and was
struck out. -/
theorem Step.heeds (hstep : s.Step s') (hs : s.Reachable roots) :
    Heeds p s.machine s'.machine := by
  cases hstep with
  | dispatch h => exact (Machine.nextProcess_aloof h _).heeds
  | call h q hq =>
    have ha := hs.accounted
    exact Machine.handleCall_heeds h hs.machine (ha.awake q ((ha.held q).2 ⟨h, hq⟩))
  | trap h q t => exact (Action.Keeps.map some (Machine.handleTrap_aloof q t) _).heeds
  | timer h q =>
    have htimer : (Machine.handleTimer h q).Keeps Aloof :=
      .bind (Machine.release_aloof q) fun _ => Machine.nextProcess_aloof h
    exact (htimer _).heeds
  | compute h q rs =>
    have hcompute : (Machine.modifyProcess q fun x => { x with registers := rs }).Keeps Aloof :=
      Machine.modifyProcess_still q fun _ => rfl
    exact (hcompute _).heeds
  | board => exact Aloof.heeds ⟨rfl, rfl, fun _ _ hb => hb⟩

/-! ## Runs -/

/-- The first systems of a run that begins with booting. -/
structure Run (roots : List Capability) (run : ℕ → System) (n : ℕ) : Prop where
  boot : ∃ m, (Machine.boot roots).exec .initial = (.ok (), m) ∧ run 0 = ⟨m, fun _ => none⟩
  step : ∀ k < n, (run k).Step (run (k + 1))

variable {run : ℕ → System} {n : ℕ}

theorem Run.init (hr : Run roots run (n + 1)) : Run roots run n :=
  ⟨hr.boot, fun k hk => hr.step k (Nat.lt_succ_of_lt hk)⟩

/-- Every system in a run is reachable. -/
theorem Run.reachable (hr : Run roots run n) : (run n).Reachable roots := by
  induction n with
  | zero =>
    obtain ⟨m, hb, he⟩ := hr.boot
    rw [he]
    exact .boot hb
  | succ n ih => exact (ih hr.init).step (hr.step n n.lt_succ_self)

/-! ### Scripts -/

/-- The systems that a hart passes through while processes put values into their registers and make
the calls that they ask for. -/
def trail (h : Hart) : System → List (Pid × List (Register × Word)) → List System
  | s, [] => [s]
  | s, (p, values) :: calls =>
    s :: s.compute p (Registers.zero.setAll values) :: trail h (s.called h p values) calls

def traces (h : Hart) : System → List (Pid × List (Register × Word)) → Bool
  | _, [] => true
  | s, (p, values) :: calls => s.running h == some p && traces h (s.called h p values) calls

/-- The systems that a list of calls goes through follow one another by steps. -/
theorem isChain_trail {calls : List (Pid × List (Register × Word))} (hs : s.traces h calls = true) :
    (s.trail h calls).IsChain Step := by
  induction calls generalizing s with
  | nil => exact .singleton s
  | cons call calls ih =>
    obtain ⟨p, values⟩ := call
    rw [traces, Bool.and_eq_true, beq_iff_eq] at hs
    have hchain := ih hs.2
    have hcall : (s.compute p (Registers.zero.setAll values)).Step (s.called h p values) :=
      .call h p hs.1
    -- each call is two steps, that of the process and that of the kernel
    rw [trail]
    refine .cons_cons (.compute h p _ hs.1) ?_
    cases calls <;> exact .cons_cons hcall hchain

/-- Each call is a step of the process, which fills in its registers, and one of the kernel. -/
theorem length_trail (s : System) (h : Hart) (calls : List (Pid × List (Register × Word))) :
    (s.trail h calls).length = 2 * calls.length + 1 := by
  induction calls generalizing s with
  | nil => rfl
  | cons call calls ih =>
    rw [trail, List.length_cons, List.length_cons, ih, List.length_cons]
    omega

/-- After booting a hart looks for a process, and then they make some calls. -/
def script (m : Machine) (h : Hart) (calls : List (Pid × List (Register × Word))) (k : ℕ) :
    System :=
  let s : System := ⟨m, fun _ => none⟩
  (s :: (s.after h (Machine.nextProcess h)).trail h calls).getD k s

/-- A list of calls that can be made is a run. -/
theorem Run.of_script {calls : List (Pid × List (Register × Word))}
    (hb : (Machine.boot roots).exec .initial = (.ok (), m))
    (hs : ((⟨m, fun _ => none⟩ : System).after h (Machine.nextProcess h)).traces h calls = true) :
    Run roots (script m h calls) (2 * calls.length + 1) := by
  obtain ⟨s, he⟩ : ∃ s : System, s = ⟨m, fun _ => none⟩ := ⟨_, rfl⟩
  have hscript : script m h calls = fun k =>
      (s :: (s.after h (Machine.nextProcess h)).trail h calls).getD k s := by rw [he]; rfl
  have hdispatch : s.Step (s.after h (Machine.nextProcess h)) := .dispatch h (by rw [he])
  rw [← he] at hs
  -- booting, the first decision, and the calls
  have hchain : (s :: (s.after h (Machine.nextProcess h)).trail h calls).IsChain Step := by
    have htrail := isChain_trail hs
    cases calls <;> exact .cons_cons hdispatch htrail
  rw [hscript]
  refine ⟨⟨m, hb, he⟩, fun k hk => ?_⟩
  have hlength := length_trail (s.after h (Machine.nextProcess h)) h calls
  have hstep := List.isChain_iff_getElem.1 hchain k (by rw [List.length_cons, hlength]; omega)
  rwa [List.getD_eq_getElem _ _ (by rw [List.length_cons, hlength]; omega),
    List.getD_eq_getElem _ _ (by rw [List.length_cons, hlength]; omega)]

end System

/-- Whoever waits for a message is in the registry at an end of its channel; or it was, and has been
waiting since, when somebody gave up a server of the channel, or the process itself a socket of its
end, or another process took its place. -/
theorem listed_of_blocked {run : ℕ → System} {n : ℕ} (hr : System.Run roots run n)
    (hb : (run n).machine.Blocked p c) : ∃ (i : Fin 16) (r : Role), c.toNat = i.val ∧
      ((run n).machine.Lists p i r ∨ ∃ k < n, (run k).machine.Lists p i r ∧
        Machine.Strikes p i r (run k).machine (run (k + 1)).machine ∧
        ∀ j, k ≤ j → j ≤ n → (run j).machine.Blocked p c) := by
  induction n with
  | zero =>
    obtain ⟨m, hboot, he⟩ := hr.boot
    rw [he, Machine.Blocked, boot_awake hboot] at hb
    cases hb.1
  | succ n ih =>
    rcases (hr.step n n.lt_succ_self).heeds hr.init.reachable c hb with
      ⟨i, r, hi, hlists⟩ | ⟨hbefore, hretains⟩
    · exact ⟨i, r, hi, .inl hlists⟩
    have hstill : ∀ {k}, (∀ j, k ≤ j → j ≤ n → (run j).machine.Blocked p c) →
        ∀ j, k ≤ j → j ≤ n + 1 → (run j).machine.Blocked p c := by
      intro k hall j hkj hjn
      rcases Nat.le_succ_iff.1 hjn with hj | rfl
      · exact hall j hkj hj
      · exact hb
    -- whoever is in the registry may be struck out now, or was struck out before
    obtain ⟨i, r, hi, hlists | ⟨k, hk, hlists, hstrikes, hall⟩⟩ := ih hr.init hbefore
    · refine ⟨i, r, hi, (hretains i r hlists).imp_right fun hstrikes => ?_⟩
      refine ⟨n, n.lt_succ_self, hlists, hstrikes, hstill fun j hnj hjn => ?_⟩
      rwa [Nat.le_antisymm hjn hnj]
    · exact ⟨i, r, hi, .inr ⟨k, Nat.lt_succ_of_lt hk, hlists, hstrikes, hstill hall⟩⟩

/-- A server that has begun to wait for a client. -/
theorem listed_of_blocked_server : ∃ run : ℕ → System,
    System.Run [.wholeTime 0 0 64, .socket ⟨3, .keep, .ofBits 15, 0⟩] run 3 ∧
      (run 3).machine.Blocked 0 3 ∧ ∃ (i : Fin 16) (r : Role), (3 : ChannelWord).toNat = i.val ∧
        ((run 3).machine.Lists 0 i r ∨ ∃ k < 3, (run k).machine.Lists 0 i r ∧
          Machine.Strikes 0 i r (run k).machine (run (k + 1)).machine ∧
          ∀ j, k ≤ j → j ≤ 3 → (run j).machine.Blocked 0 3) := by
  let roots : List Capability := [.wholeTime 0 0 64, .socket ⟨3, .keep, .ofBits 15, 0⟩]
  let ask : Registers := Registers.zero.setAll [(.t0, 23), (.a0, 1), (.a1, 2)]
  obtain ⟨s₀, h₀⟩ : ∃ s₀ : System, s₀ =
    ⟨((Machine.boot roots).exec .initial).2, fun _ => none⟩ := ⟨_, rfl⟩
  obtain ⟨s₁, h₁⟩ : ∃ s₁, s₁ = s₀.after 0 (Machine.nextProcess 0) := ⟨_, rfl⟩
  obtain ⟨s₂, h₂⟩ : ∃ s₂, s₂ = s₁.compute 0 ask := ⟨_, rfl⟩
  obtain ⟨s₃, h₃⟩ : ∃ s₃, s₃ = s₂.after 0 (Machine.handleCall 0 0) := ⟨_, rfl⟩
  -- the process serves channel 3, and nobody comes
  have hrun₁ : s₁.running 0 = some 0 := by rw [h₁, h₀]; decide +kernel
  have hrun₂ : s₂.running 0 = some 0 := by rw [h₂]; exact hrun₁
  have hstep₀ : s₀.Step s₁ := h₁ ▸ .dispatch 0 (by rw [h₀])
  have hstep₁ : s₁.Step s₂ := h₂ ▸ .compute 0 0 ask hrun₁
  have hstep₂ : s₂.Step s₃ := h₃ ▸ .call 0 0 hrun₂
  have hb : s₃.machine.Blocked 0 3 := by
    rw [h₃, h₂, h₁, h₀]
    exact ⟨by decide +kernel, by decide⟩
  let run (k : ℕ) : System := [s₀, s₁, s₂].getD k s₃
  have hr : System.Run roots run 3 := by
    refine ⟨⟨_, rfl, h₀⟩, fun k hk => ?_⟩
    obtain rfl | rfl | rfl : k = 0 ∨ k = 1 ∨ k = 2 := by omega
    · exact hstep₀
    · exact hstep₁
    · exact hstep₂
  exact ⟨run, hr, hb, listed_of_blocked hr hb⟩

/-- The system after whoever runs on a hart has made some calls, one after the other. -/
def System.follow (s : System) (h : Hart) (calls : List (List (Register × Word))) : System :=
  calls.foldl (fun s values => (s.running h).elim s fun p => s.called h p values) s

/-- Following calls leads to a reachable system. -/
theorem System.Reachable.follow {s : System} (hs : s.Reachable roots)
    (calls : List (List (Register × Word))) : (s.follow h calls).Reachable roots := by
  induction calls generalizing s with
  | nil => exact hs
  | cons values calls ih =>
    apply ih
    show Reachable roots ((s.running h).elim s fun p => s.called h p values)
    cases hp : s.running h with
    | none => exact hs
    | some p => exact hs.called hp values

/-- A client waits for the answer of a server, without a deadline. The server deletes its socket,
and nobody on the channel knows about the client any more. -/
theorem blocked_not_listed : ∃ s : System,
    s.Reachable [.wholeTime 0 0 32, .wholeTime 0 32 64, .wholeMonitor 0 8,
      .socket ⟨3, .keep, .ofBits 15, 0⟩, .socket ⟨3, .keep, .ofBits 15, 5⟩] ∧
      (s.machine.processes.get 0).status = .waiting 3 ∧
      (s.machine.processes.get 0).deadline = never ∧ ¬ s.machine.Listed 0 3 := by
  let roots : List Capability := [.wholeTime 0 0 32, .wholeTime 0 32 64, .wholeMonitor 0 8,
    .socket ⟨3, .keep, .ofBits 15, 0⟩, .socket ⟨3, .keep, .ofBits 15, 5⟩]
  -- process 0 gives some time and the server to process 1, which it lends the hart
  let lend : List (List (Register × Word)) :=
    [[(.t0, 19), (.a0, 2), (.a2, 1), (.a3, 1)], [(.t0, 19), (.a0, 2), (.a2, 3), (.a3, 1), (.a4, 1)],
      [(.t0, 13), (.a0, 2), (.a1, 1)], [(.t0, 15), (.a0, 2), (.a1, 1)]]
  -- that one waits for a client, process 0 calls it, and the server is deleted
  let strand : List (List (Register × Word)) :=
    [[(.t0, 23), (.a0, 1), (.a1, 2)], [(.t0, 24), (.a0, 4), (.a1, 5)], [(.t0, 7), (.a0, 1)]]
  obtain ⟨s₀, h₀⟩ : ∃ s₀ : System, s₀ =
    ⟨((Machine.boot roots).exec .initial).2, fun _ => none⟩ := ⟨_, rfl⟩
  obtain ⟨s, he⟩ : ∃ s, s = (s₀.after 0 (Machine.nextProcess 0)).follow 0 (lend ++ strand) :=
    ⟨_, rfl⟩
  have hs₀ : s₀.Reachable roots := h₀ ▸ .boot rfl
  have hs : s.Reachable roots := he ▸ (hs₀.step (.dispatch 0 (by rw [h₀]))).follow _
  have hquiet : ∀ i, s.machine.registry.get i = .quiet := by rw [he, h₀]; decide +kernel
  refine ⟨s, hs, by rw [he, h₀]; decide +kernel, by rw [he, h₀]; decide +kernel, ?_⟩
  rintro ⟨i, r, _, w, hw, _⟩
  rw [hquiet] at hw
  cases r <;> cases hw

/-- A client waits for the answer of a server, which receives again before it answers. A second
client calls and takes the place of the first, and then both wait without a deadline. -/
theorem blocked_replaced : ∃ s s' : System,
    s.Reachable [.wholeTime 0 0 22, .wholeTime 0 22 44, .wholeTime 0 44 64, .wholeMonitor 0 8,
      .socket ⟨3, .keep, .ofBits 15, 0⟩, .socket ⟨3, .keep, .ofBits 15, 5⟩,
      .socket ⟨3, .keep, .ofBits 15, 6⟩] ∧
      s.Step s' ∧ s.machine.Lists 1 3 .client ∧
      Machine.Strikes 1 3 .client s.machine s'.machine ∧ ¬ s'.machine.Listed 1 3 ∧
      ∀ p : Pid, p = 1 ∨ p = 2 → (s'.machine.processes.get p).status = .waiting 3 ∧
        (s'.machine.processes.get p).deadline = never := by
  let roots : List Capability := [.wholeTime 0 0 22, .wholeTime 0 22 44, .wholeTime 0 44 64,
    .wholeMonitor 0 8, .socket ⟨3, .keep, .ofBits 15, 0⟩, .socket ⟨3, .keep, .ofBits 15, 5⟩,
    .socket ⟨3, .keep, .ofBits 15, 6⟩]
  -- process 0 keeps the server, and gives some time and a client to each of the processes 1 and 2
  let share : List (List (Register × Word)) :=
    [[(.t0, 19), (.a0, 3), (.a2, 1), (.a3, 1)], [(.t0, 19), (.a0, 3), (.a2, 5), (.a3, 1), (.a4, 1)],
      [(.t0, 19), (.a0, 3), (.a2, 2), (.a3, 2)],
      [(.t0, 19), (.a0, 3), (.a2, 6), (.a3, 2), (.a4, 1)]]
  -- it lets process 1 run, receives its call, lets process 2 run, and receives again
  let serve : List (List (Register × Word)) :=
    [[(.t0, 13), (.a0, 3), (.a1, 1)], [(.t0, 23), (.a0, 4), (.a1, 7)],
      [(.t0, 24), (.a0, 1), (.a1, 2)],
      [(.t0, 13), (.a0, 3), (.a1, 2)], [(.t0, 23), (.a0, 4), (.a1, 7)]]
  let ask : Registers := Registers.zero.setAll [(.t0, 24), (.a0, 1), (.a1, 2)]
  obtain ⟨s₀, h₀⟩ : ∃ s₀ : System, s₀ =
    ⟨((Machine.boot roots).exec .initial).2, fun _ => none⟩ := ⟨_, rfl⟩
  obtain ⟨s₁, h₁⟩ : ∃ s₁, s₁ = (s₀.after 0 (Machine.nextProcess 0)).follow 0 (share ++ serve) :=
    ⟨_, rfl⟩
  obtain ⟨s, hs⟩ : ∃ s, s = s₁.compute 2 ask := ⟨_, rfl⟩
  obtain ⟨s', hs'⟩ : ∃ s', s' = s.after 0 (Machine.handleCall 0 2) := ⟨_, rfl⟩
  have hboots : ((Machine.boot roots).exec .initial).1 = .ok () := by decide +kernel
  have hboot : s₀.Reachable roots := h₀ ▸ .boot (Prod.ext hboots rfl)
  have hreachable : s₁.Reachable roots :=
    h₁ ▸ (hboot.step (.dispatch 0 (by rw [h₀]))).follow _
  have hrun : s₁.running 0 = some 2 := by rw [h₁, h₀]; decide +kernel
  have hcompute : s₁.Step s := hs ▸ .compute 0 2 ask hrun
  have hcall : s.Step s' := hs' ▸ .call 0 2 (by rw [hs]; exact hrun)
  have hbefore : s.machine.registry.get 3 = ⟨some ⟨0, ⟨0, 7⟩⟩, some ⟨1, ⟨1, 2⟩⟩⟩ := by
    rw [hs, h₁, h₀]
    decide +kernel
  obtain ⟨hchannel, hwaits⟩ : s'.machine.registry.get 3 = ⟨none, some ⟨2, ⟨2, 2⟩⟩⟩ ∧
      ∀ p : Pid, p = 1 ∨ p = 2 → (s'.machine.processes.get p).status = .waiting 3 ∧
        (s'.machine.processes.get p).deadline = never := by
    rw [hs', hs, h₁, h₀]
    decide +kernel
  have hwaiter : (s'.machine.registry.get 3).waiter .client = some ⟨2, ⟨2, 2⟩⟩ := by
    rw [hchannel]
    rfl
  have hlists : s.machine.Lists 1 3 .client := ⟨⟨1, ⟨1, 2⟩⟩, by rw [hbefore]; rfl, rfl⟩
  refine ⟨s, s', hreachable.step hcompute, hcall, hlists, .replaced hwaiter (by decide), ?_, hwaits⟩
  rintro ⟨i, r, hi, w, hw, hp⟩
  obtain rfl : i = 3 := Fin.ext hi.symm
  rw [hchannel] at hw
  cases r <;> cases hw
  cases hp

end SepKernel
