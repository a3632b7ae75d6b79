import SepKernel.Proofs.Harts.Deadline
import SepKernel.Proofs.Schedule.Arbitration

/-!
# The search for the next process

A hart without a process looks for one a slot at a time, and waits for the slots to begin a tick at
a time. What it finds is the first slot of the schedule, counted from the one in which the decision
is over, for which a process can be fetched when the slot begins, or at once if it has begun. So the
decision as the kernel makes it, by a look at the slots to come, is the search: `Finds` is the
search tick by tick, `First` says what it finds, and they are the same.

Whoever is found in slot `k` with `n` slots left runs until slot `k + n` begins. Since the first
slot that is tried ends later than the decision, the timer of the hart is set to a time that is
still to come.
-/

namespace SepKernel

variable {m m' : Machine} {h : Hart} {p : Pid} {q : Process}

namespace Schedule

variable {s : Schedule} {ps : Processes} {slot time now patience : Nat} {c : Choice}

/-- The search for the next process, from a slot and a time on: a hart idles until the slot begins,
and goes on to the next slot if nobody is fetched for it. -/
inductive Finds (s : Schedule) (ps : Processes) (h : Hart) : Nat → Nat → Choice → Prop
  | idle {slot time : Nat} {c : Choice} : time < slot * slotTicks →
      Finds s ps h slot (time + 1) c → Finds s ps h slot time c
  | pass {slot time : Nat} {c : Choice} : slot * slotTicks ≤ time →
      s.fetch? ps h slot time = none → Finds s ps h (slot + 1) time c → Finds s ps h slot time c
  | take {slot time : Nat} {p : Pid} {q : Process} : slot * slotTicks ≤ time →
      s.fetch? ps h slot time = some (p, q) → Finds s ps h slot time ⟨slot, time, p, q⟩

/-- The first slot from some slot on for which a process is fetched, if the slots that have not
begun at some time are tried when they begin. -/
structure First (s : Schedule) (ps : Processes) (h : Hart) (slot time : Nat) (c : Choice) :
    Prop where
  le : slot ≤ c.slot
  missed : ∀ j, slot ≤ j → j < c.slot → s.fetch? ps h j (max time (j * slotTicks)) = none
  time : c.time = max time (c.slot * slotTicks)
  fetched : s.fetch? ps h c.slot c.time = some (c.pid, c.process)

/-- A tick before a slot begins makes no difference to that slot, nor to those after it. -/
theorem max_succ_of_lt {j : Nat} (hlt : time < slot * slotTicks) (hj : slot ≤ j) :
    max (time + 1) (j * slotTicks) = max time (j * slotTicks) := by
  have hle : slot * slotTicks ≤ j * slotTicks := Nat.mul_le_mul_right _ hj
  rw [Nat.max_eq_right (by omega), Nat.max_eq_right (by omega)]

/-- Before the slot begins, waiting for a tick makes no difference. -/
theorem first_succ_iff (hlt : time < slot * slotTicks) :
    s.First ps h slot (time + 1) c ↔ s.First ps h slot time c := by
  -- before the slot begins, a tick changes no start
  constructor
  · intro hf
    refine ⟨hf.le, fun j hj hlast => ?_, ?_, hf.fetched⟩
    · rw [← max_succ_of_lt hlt hj]
      exact hf.missed j hj hlast
    · rw [← max_succ_of_lt hlt hf.le]
      exact hf.time
  · intro hf
    refine ⟨hf.le, fun j hj hlast => ?_, ?_, hf.fetched⟩
    · rw [max_succ_of_lt hlt hj]
      exact hf.missed j hj hlast
    · rw [max_succ_of_lt hlt hf.le]
      exact hf.time

/-- What the loop finds is the first slot in which anybody can be fetched. -/
theorem Finds.first (hf : s.Finds ps h slot time c) : s.First ps h slot time c := by
  induction hf with
  | idle hlt _ ih => exact (first_succ_iff hlt).1 ih
  | @pass slot time c hle hnone _ ih =>
    refine ⟨Nat.le_of_succ_le ih.le, fun j hj hlast => ?_, ih.time, ih.fetched⟩
    -- the slot that is passed over, or a later one
    obtain rfl | hlt := Nat.eq_or_lt_of_le hj
    · rw [Nat.max_eq_left hle]
      exact hnone
    · exact ih.missed j hlt hlast
  | @take slot time p q hle hsome =>
    exact ⟨Nat.le_refl _, fun j hj hlast => absurd hj (Nat.not_le_of_lt hlast),
      (Nat.max_eq_left hle).symm, hsome⟩

/-- The search ends at the first slot: each of its steps brings the slot or the time closer to
it. -/
theorem First.finds (hf : s.First ps h slot time c) : s.Finds ps h slot time c := by
  -- by induction on the slots and ticks that are left until the slot
  obtain ⟨n, hn⟩ : ∃ n, (c.slot - slot) + (c.slot * slotTicks - time) ≤ n := ⟨_, Nat.le_refl _⟩
  induction n generalizing slot time with
  | zero => exact done hf (Nat.le_antisymm hf.le (by omega)) (by omega)
  | succ n ih =>
    have hle : slot * slotTicks ≤ c.slot * slotTicks := Nat.mul_le_mul_right _ hf.le
    obtain hlt | hbegun := Nat.lt_or_ge time (slot * slotTicks)
    · exact .idle hlt (ih ((first_succ_iff hlt).2 hf) (by omega))
    · obtain heq | hnext := Nat.eq_or_lt_of_le hf.le
      · exact done hf heq (heq ▸ hbegun)
      · have hnone := hf.missed slot (Nat.le_refl _) hnext
        rw [Nat.max_eq_left hbegun] at hnone
        have hrest : s.First ps h (slot + 1) time c :=
          ⟨hnext, fun j hj => hf.missed j (Nat.le_of_succ_le hj), hf.time, hf.fetched⟩
        exact .pass hbegun hnone (ih hrest (by omega))
where
  done {slot time : Nat} (hf : s.First ps h slot time c) (hslot : slot = c.slot)
      (hbegun : c.slot * slotTicks ≤ time) : s.Finds ps h slot time c := by
    subst hslot
    have htime : c.time = time := hf.time.trans (Nat.max_eq_left hbegun)
    subst htime
    exact .take hbegun hf.fetched

theorem finds_iff_first : s.Finds ps h slot time c ↔ s.First ps h slot time c :=
  ⟨Finds.first, First.finds⟩

/-! ## The decision -/

/-- The first of the successive numbers from `a` on for which there is an answer. -/
theorem findSome?_range' {α : Type} {f : Nat → Option α} {x : α} (a n : Nat) :
    (List.range' a n).findSome? f = some x ↔
      ∃ k, a ≤ k ∧ k < a + n ∧ (∀ j, a ≤ j → j < k → f j = none) ∧ f k = some x := by
  induction n generalizing a with
  | zero =>
    simp only [List.range'_zero, List.findSome?_nil, Nat.add_zero, reduceCtorEq, false_iff]
    rintro ⟨k, hle, hlt, _⟩
    omega
  | succ n ih =>
    rw [List.range'_succ, List.findSome?_cons]
    cases ha : f a with
    | some y =>
      dsimp only
      constructor
      · intro hy
        exact ⟨a, Nat.le_refl a, by omega, fun j hj hlt => by omega, by rw [ha, hy]⟩
      · rintro ⟨k, hle, _, hnone, hk⟩
        obtain rfl | hlt := Nat.eq_or_lt_of_le hle
        · rw [← ha, hk]
        · rw [hnone a (Nat.le_refl a) hlt] at ha
          cases ha
    | none => -- the first number gives nothing, so that it is one of the others
      dsimp only
      rw [ih]
      constructor
      · rintro ⟨k, hle, hlt, hnone, hk⟩
        refine ⟨k, by omega, by omega, fun j hj hjk => ?_, hk⟩
        obtain rfl | haj := Nat.eq_or_lt_of_le hj
        · exact ha
        · exact hnone j haj hjk
      · rintro ⟨k, hle, hlt, hnone, hk⟩
        have hne : a ≠ k := by
          rintro rfl
          rw [ha] at hk
          cases hk
        exact ⟨k, by omega, by omega, fun j hj => hnone j (by omega), hk⟩

/-- A slot is among the candidates if it begins while the hart is patient. -/
theorem lt_candidates_iff {first k : Nat} (hk : first ≤ k) :
    k < first + ((now + patience) / slotTicks + 1 - first) ↔ k * slotTicks ≤ now + patience := by
  rw [← Nat.le_div_iff_mul_le (by decide)]
  omega

/-- What is chosen is what the search finds, if the hart is patient enough. -/
theorem choose?_eq_some_iff :
    s.choose? ps h now patience = some c ↔
      s.Finds ps h ((now + overheadTicks) / slotTicks) now c ∧ c.time ≤ now + patience := by
  rw [finds_iff_first, choose?, candidates, findSome?_range']
  simp only [Option.map_eq_none_iff, Option.map_eq_some_iff]
  constructor
  · rintro ⟨k, hle, hlt, hnone, r, hr, rfl⟩
    refine ⟨⟨hle, hnone, rfl, hr⟩, ?_⟩
    -- a slot is a candidate if it begins within the patience
    have hk := (lt_candidates_iff hle).1 hlt
    exact Nat.max_le.2 ⟨Nat.le_add_right _ _, hk⟩
  · rintro ⟨hf, hpatient⟩
    have hk : c.slot * slotTicks ≤ now + patience := by
      rw [hf.time] at hpatient
      exact (Nat.max_le.1 hpatient).2
    refine ⟨c.slot, hf.le, (lt_candidates_iff hf.le).2 hk, hf.missed, (c.pid, c.process), ?_, ?_⟩
    · rw [← hf.time]
      exact hf.fetched
    · rw [← hf.time]

end Schedule

namespace Machine

/-- The first slot that a hart tries: the one in which the decision is over. -/
def firstSlot (m : Machine) : Nat := (m.board.time + overheadTicks) / slotTicks

def trialTime (m : Machine) (slot : Nat) : Nat := max m.board.time (slot * slotTicks)

/-- A process runs next on a hart: it was found in slot `k` with `n` slots left, and taken as
`q`. -/
structure Dispatches (h : Hart) (p : Pid) (k n : Nat) (q : Process) (m m' : Machine) : Prop where
  found : m.schedule.Finds m.processes h m.firstSlot m.board.time
    ⟨k, m.trialTime k, p, { q with deadline := (k + n) * slotTicks }⟩
  first : m.firstSlot ≤ k
  missed : ∀ j, m.firstSlot ≤ j → j < k → ((fetch h j (m.trialTime j)).exec m).1 = none
  owns : m.schedule.Owns h (Schedule.column k) p n
  acquired : (m.processes.get p).acquire? (m.trialTime k) = some q
  time : m'.board.time = m.trialTime k
  process : m'.processes.get p = { q with deadline := (k + n) * slotTicks }
  timer : m'.board.deadline h = (k + n) * slotTicks - overheadTicks
  later : m'.board.time < m'.board.deadline h
  processes : ∀ r, r ≠ p → m'.processes.get r = m.processes.get r
  timers : ∀ i, i ≠ h → m'.board.timer i = m.board.timer i
  schedule : m'.schedule = m.schedule

/-- A hart gets a process if the search finds one in time. -/
theorem nextProcess_eq_some_iff :
    ((nextProcess h).exec m).1 = some p ↔
      ∃ c, m.schedule.Finds m.processes h m.firstSlot m.board.time c ∧
        c.time ≤ m.board.time + m.board.patience ∧ c.pid = p := by
  -- the decision is the only one the search can make
  cases hc : m.schedule.choose? m.processes h m.board.time m.board.patience with
  | some c =>
    obtain ⟨hf, htime⟩ := Schedule.choose?_eq_some_iff.1 hc
    obtain ⟨_, _, he⟩ := nextProcess_of_choose? hc
    rw [he]
    constructor
    · rintro ⟨⟩
      exact ⟨c, hf, htime, rfl⟩
    · rintro ⟨d, hd, hdtime, rfl⟩
      have hdc := Schedule.choose?_eq_some_iff.2 ⟨hd, hdtime⟩
      rw [firstSlot] at hd
      rw [hc] at hdc
      cases hdc
      rfl
  | none =>
    rw [nextProcess_of_choose?_eq_none hc]
    constructor
    · rintro ⟨⟩
    · rintro ⟨d, hd, hdtime, _⟩
      have hdc := Schedule.choose?_eq_some_iff.2 ⟨hd, hdtime⟩
      rw [hc] at hdc
      cases hdc

/-- A hart that finds nobody in a slot fetches nobody. -/
theorem fetch_eq_none_of_fetch? {slot now : Nat}
    (hf : m.schedule.fetch? m.processes h slot now = none) :
    ((fetch h slot now).exec m).1 = none := by
  unfold fetch
  rw [Action.exec_bind]
  dsimp only [Action.exec_get]
  rw [hf]
  rfl

/-- A slot that is tried ends later than the decision about it. -/
theorem trialTime_lt {k n : Nat} (hk : m.firstSlot ≤ k) (hn : 0 < n) :
    m.trialTime k < (k + n) * slotTicks - overheadTicks := by
  -- the first slot is chosen so that there is time for the next decision in it
  have hover : m.board.time + overheadTicks < (k + 1) * slotTicks := by
    have hlt : (m.board.time + overheadTicks) / slotTicks < k + 1 := Nat.lt_succ_of_le hk
    exact (Nat.div_lt_iff_lt_mul (by decide)).1 hlt
  have hstart : k * slotTicks + overheadTicks < (k + 1) * slotTicks := by
    rw [Nat.succ_mul]
    exact Nat.add_lt_add_left (by decide) _
  have hend : (k + 1) * slotTicks ≤ (k + n) * slotTicks :=
    Nat.mul_le_mul_right _ (Nat.add_le_add_left hn k)
  rw [trialTime]
  omega

end Machine

/-- The process that a hart gets is the first that it can have, from the slot in which the decision
is over, each slot tried when it begins. The hart idles until then, runs the process until its turn
ends, and has its timer set to a time that is still to come, ahead of that end by the overhead of
the next decision. Everything else stays. -/
theorem nextProcess_first_on_time (hn : (Machine.nextProcess h).exec m = (some p, m')) :
    ∃ k n q, Machine.Dispatches h p k n q m m' := by
  obtain ⟨c, hfinds, hpatient, rfl⟩ := Machine.nextProcess_eq_some_iff.1 (congrArg Prod.fst hn)
  obtain ⟨journal, faults, he⟩ :=
    Machine.nextProcess_of_choose? (Schedule.choose?_eq_some_iff.2 ⟨hfinds, hpatient⟩)
  obtain rfl : _ = m' := congrArg Prod.snd (he.symm.trans hn)
  have hfirst := hfinds.first
  -- the decision is the first choice, at the time that it is made for
  have htime : c.time = m.trialTime c.slot := hfirst.time
  obtain ⟨_, n, q, ho, hq, hprocess⟩ := Schedule.fetch?_eq_some_iff.1 hfirst.fetched
  have hdeadline : c.process.deadline = (c.slot + n) * slotTicks := by rw [hprocess]
  refine ⟨c.slot, n, q, ?_⟩
  constructor
  case found =>
    rw [← htime, ← hprocess]
    exact hfinds
  case first => exact hfirst.le
  case missed =>
    intro j hj hlast
    exact Machine.fetch_eq_none_of_fetch? (hfirst.missed j hj hlast)
  case owns => exact ho
  case acquired => rwa [← htime]
  case time => exact htime
  case process =>
    show (m.processes.put c.pid c.process).get c.pid = _
    rw [Processes.get_put_self, hprocess]
  case timer =>
    show (Board.setDeadline _ h _).deadline h = _
    rw [Board.deadline_setDeadline, if_pos rfl, hdeadline]
  case later =>
    show c.time < (Board.setDeadline _ h _).deadline h
    rw [Board.deadline_setDeadline, if_pos rfl, hdeadline, htime]
    exact Machine.trialTime_lt hfirst.le ho.2
  case processes =>
    intro r hr
    exact Processes.get_put_of_ne _ _ hr.symm
  case timers =>
    intro i hi
    show (Board.setTimer _ h _).timer i = _
    rw [Board.timer_setTimer, if_neg hi.symm]
    rfl
  case schedule => rfl

/-- A hart that owns nothing before slot 10 idles until then. -/
theorem nextProcess_first_on_time_idle : ∃ m m' k n q,
    m = Machine.withReady (Schedule.blank.assign 1 4 10 12 12) 4 ∧
      (Machine.nextProcess 1).exec m = (some 4, m') ∧ Machine.Dispatches 1 4 k n q m m' := by
  obtain ⟨m, hm⟩ : ∃ m, m = Machine.withReady (Schedule.blank.assign 1 4 10 12 12) 4 := ⟨_, rfl⟩
  have hn : (Machine.nextProcess 1).exec m = (some 4, ((Machine.nextProcess 1).exec m).2) := by
    apply Prod.ext
    · rw [hm]
      decide +kernel
    · rfl
  obtain ⟨k, n, q, hd⟩ := nextProcess_first_on_time hn
  exact ⟨m, _, k, n, q, hm, hn, hd⟩

end SepKernel
