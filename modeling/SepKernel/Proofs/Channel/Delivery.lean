import SepKernel.Proofs.Machine.Calm

/-!
# Deliveries

What handing a prepared message over makes of the machine. The receiver gets the message into its
registers and does not wait any more, and the registry forgets it. A capability that goes along
leaves its slot and lands in the slot that the receiver has kept for it. Nobody else's registers or
status are touched.
-/

namespace SepKernel

/-! ## Registers -/

def Register.filled : List Register := [.t0, .a0, .a1, .a2, .a3, .a4, .a5]

section SetAll
variable {values : List (Register × Word)} {r : Register}

/-- A register that is not in the list keeps its content. -/
theorem Registers.get_setAll_of_ne (hr : r ∉ values.map Prod.fst) (rs : Registers) :
    (rs.setAll values).get r = rs.get r := by
  induction values generalizing rs with
  | nil => rfl
  | cons v values ih =>
    rw [List.map_cons, List.mem_cons, not_or] at hr
    rw [setAll, List.foldl_cons, ← setAll, ih hr.2, get_set_of_ne _ _ (Ne.symm hr.1)]

/-- If no register is written twice, each has its value in the end. -/
theorem Registers.get_setAll_of_mem {w : Word} (hn : (values.map Prod.fst).Nodup)
    (hr : (r, w) ∈ values) (rs : Registers) : (rs.setAll values).get r = w := by
  induction values generalizing rs with
  | nil => cases hr
  | cons v values ih =>
    rw [List.map_cons, List.nodup_cons] at hn
    rw [setAll, List.foldl_cons, ← setAll]
    rcases List.mem_cons.1 hr with rfl | hr
    · rw [get_setAll_of_ne hn.1, get_set_self]
    · exact ih hn.2 hr _

end SetAll

/-! ## Channels -/

/-- Who waits on a channel once it is set who waits at one end. -/
theorem Registry.waiter_setWaiter (g : Registry) (chan : BitVec 16) (r r' : Role)
    (w : Option Waiter) : (g.setWaiter chan r w).waiter chan r' =
      if r = r' then (index? 16 chan.toNat).bind fun _ => w else g.waiter chan r' := by
  rw [waiter, waiter]
  cases hi : index? 16 chan.toNat with
  | none => simp
  | some i =>
    show ((g.setWaiter chan r w).get i).waiter r' = _
    rw [get_setWaiter, if_pos (index?_eq_some_iff.1 hi).symm, Channel.waiter_setWaiter]
    rfl

namespace Machine

variable {m m' : Machine} {h : Hart} {d : Delivery} {c : Capability}

/-! ## The two parts of a delivery -/

def ship (d : Delivery) : Action Capability :=
  if d.message.sendCap then relocate d.buffer d.receiver.buffer d.freight else pure .null

/-- The capability that went along, and the machine with the receiver taken. -/
def shipped (m : Machine) (d : Delivery) : Capability × Machine :=
  (ship d).exec ((setProcess d.receiver.pid d.taken).exec m).2

/-- A delivery ships what goes along, and then hands over. -/
theorem deliver_exec (d : Delivery) (m : Machine) :
    (deliver d).exec m = (hand d (m.shipped d).1).exec (m.shipped d).2 := by
  unfold deliver
  rw [Action.exec_bind, Action.exec_branch]
  rfl

/-! ## The receiver -/

/-- The receiver of a message that has it, where the deadline is that of the sender. -/
def Delivery.received (d : Delivery) (q : Process) (deadline : Nat) (c : Capability) : Process :=
  let registers := q.registers.setAll (d.contents c)
  match d.socket.mode with
  | .yield => { q with status := .running, deadline, registers }
  | .keep => { q with status := .ready, registers }

def Delivery.answer (d : Delivery) : Next :=
  match d.socket.mode with
  | .yield => .yield d.receiver.pid
  | .keep => .caller

/-- The capability that went along, as it is in the slot of the receiver; none if none did. -/
def Delivery.landed (d : Delivery) (m : Machine) : Capability :=
  if d.message.sendCap then m.table.get d.receiver.buffer else .null

theorem release_running {q : Process} (hq : q.status = .running) :
    q.release = { q with status := .ready } := by
  simp [Process.release, hq, Status.running, Status.ready]

/-- What handing over does, with the receiver held: it writes its registers, strikes it out, and
decides about the hart. No capability changes. -/
theorem hand_exec (hrun : (m.processes.get d.receiver.pid).status = .running) :
    ((hand d c).exec m).1 = d.answer ∧ ((hand d c).exec m).2.table = m.table ∧
      ((hand d c).exec m).2.registry =
        m.registry.setWaiter d.socket.chan d.socket.role.peer none ∧
      ((hand d c).exec m).2.processes =
        m.processes.put d.receiver.pid (d.received (m.processes.get d.receiver.pid)
          (m.processes.get d.sender).deadline c) := by
  -- the sender may be the receiver, whose deadline stays
  have hdeadline : ∀ q : Process, q.deadline = (m.processes.get d.receiver.pid).deadline →
      ((m.processes.put d.receiver.pid q).get d.sender).deadline =
        (m.processes.get d.sender).deadline := by
    intro q hq
    rw [Processes.get_put]
    split
    · next he => rw [hq, he]
    · rfl
  unfold hand Delivery.answer Delivery.received
  cases d.socket.mode with
  | yield => simp [hdeadline, Processes.put_put, hrun]
  | keep => simp [release, Processes.put_put, release_running, hrun]

/-! ## The registers of the receiver -/

theorem Delivery.registers_received (d : Delivery) (q : Process) (deadline : Nat) (c : Capability) :
    (d.received q deadline c).registers = q.registers.setAll (d.contents c) := by
  unfold received
  split <;> rfl

/-- Every delivery fills the same registers. -/
theorem Delivery.filled_contents (d : Delivery) (c : Capability) :
    (d.contents c).map Prod.fst = Register.filled := by
  simp only [contents, List.map_append, Vector.toList_zip]
  rw [List.map_fst_zip (by simp [Register.payload])]
  rfl

/-- A message fills seven registers. -/
theorem Delivery.register_of_received (d : Delivery) {q : Process} {deadline : Nat}
    {c : Capability} {r : Register}
    (hr : (d.received q deadline c).register r ≠ q.register r) : r ∈ Register.filled := by
  by_contra hne
  rw [← d.filled_contents c] at hne
  rw [Process.register, registers_received, Registers.get_setAll_of_ne hne] at hr
  exact hr rfl

/-- It fills them with what it has for them. -/
theorem Delivery.register_received (d : Delivery) (q : Process) (deadline : Nat) {c : Capability}
    {r : Register} {w : Word} (hr : (r, w) ∈ d.contents c) :
    (d.received q deadline c).register r = w := by
  rw [Process.register, registers_received]
  exact Registers.get_setAll_of_mem (by rw [filled_contents]; decide) hr q.registers

/-- The data goes to its four registers, or zeros do if the socket may not carry data. -/
theorem Delivery.data_mem_contents (d : Delivery) (c : Capability) (i : Fin 4) :
    (Register.payload[i], if d.socket.permission.data d.socket.role then d.message.data[i] else 0) ∈
      d.contents c := by
  unfold Delivery.contents
  apply List.mem_append_right
  rw [Vector.mem_toList_iff, Vector.mem_iff_getElem]
  refine ⟨i, i.2, ?_⟩
  split <;> simp

/-! ## All of it -/

structure Delivered (d : Delivery) (m m' : Machine) : Prop where
  others : ∀ q, q ≠ d.receiver.pid → ∃ b, m'.processes.get q = { m.processes.get q with bank := b }
  receiver : ∃ b, m'.processes.get d.receiver.pid =
    { d.received (m.processes.get d.receiver.pid) (m.processes.get d.sender).deadline
        (d.landed m') with bank := b }
  waiter : m'.registry.waiter d.socket.chan d.socket.role.peer = none
  table : m'.table = if d.message.sendCap then m.table.relink d.buffer d.receiver.buffer
    (arriving d.buffer d.receiver.buffer (m.table.get d.buffer)) else m.table

/-- A move answers with the capability as it arrives. -/
theorem relocate_answer (source target : Slot) (c : Capability) :
    ((relocate source target c).exec m).1 = arriving source target c := by
  unfold relocate arriving
  split
  · simp
  · simp [handOver_answer]

theorem ship_clerical (d : Delivery) : (ship d).Keeps Clerical := by
  unfold ship
  split
  · exact relocate_clerical _ _ _
  · exact .pure _

/-- The capability goes along before anything else; what it looks like at the other end depends on
whose slot that is. -/
theorem shipped_table (hd : Prepared h d m) :
    (m.shipped d).2.table = if d.message.sendCap then m.table.relink d.buffer d.receiver.buffer
      (arriving d.buffer d.receiver.buffer (m.table.get d.buffer)) else m.table := by
  unfold shipped ship
  split
  · next hc => rw [relocate_table, (hd.freight hc).1]; rfl
  · rfl

/-- What goes along is what lands. -/
theorem shipped_landed (hd : Prepared h d m) (hl : m.table.Strung) :
    (m.shipped d).1 = d.landed (m.shipped d).2 := by
  rw [Delivery.landed, shipped_table hd]
  unfold shipped ship
  split
  · next hc =>
    obtain ⟨hf, hn, hv⟩ := hd.freight hc
    rw [hf] at hn
    rw [relocate_answer, hl.get_relink hv, if_neg (Table.ne_of_vacant hn hv), if_pos rfl, hf]
  · rfl

/-- Besides the banks, the receiver alone has changed: it was taken for the hart. -/
theorem shipped_processes (hd : Prepared h d m) (q : Pid) : ∃ b,
    (m.shipped d).2.processes.get q = { m.processes.get q with
      status := if q = d.receiver.pid then .running else (m.processes.get q).status
      bank := b } := by
  obtain ⟨_, _, htaken⟩ := Process.receive?_eq hd.taken
  obtain ⟨b, hb⟩ := (ship_clerical d ((setProcess d.receiver.pid d.taken).exec m).2).settled q
  refine ⟨b, hb.trans ?_⟩
  show { (m.processes.put d.receiver.pid d.taken).get q with bank := b } = _
  rw [Processes.get_put]
  by_cases hq : q = d.receiver.pid
  · rw [if_pos hq.symm, if_pos hq, htaken, hq]
  · rw [if_neg (Ne.symm hq), if_neg hq]

/-- A message that was prepared is delivered. -/
theorem deliver_delivered (hd : Prepared h d m) (hl : m.table.Strung) :
    ((deliver d).exec m).1 = d.answer ∧ Delivered d m ((deliver d).exec m).2 := by
  have hprocesses := shipped_processes hd
  obtain ⟨b, hb⟩ := hprocesses d.receiver.pid
  rw [if_pos rfl] at hb
  obtain ⟨hanswer, htable, hregistry, hhanded⟩ :=
    hand_exec (m := (m.shipped d).2) (d := d) (c := (m.shipped d).1) (by rw [hb])
  rw [deliver_exec]
  refine ⟨hanswer, ?_⟩
  constructor
  case others =>
    intro q hq
    obtain ⟨b, hb⟩ := hprocesses q
    rw [if_neg hq] at hb
    exact ⟨b, by rw [hhanded, Processes.get_put_of_ne _ _ (Ne.symm hq), hb]⟩
  -- its registers are written after the capability has landed, so that they tell where
  case receiver =>
    have hlanded : d.landed ((hand d (m.shipped d).1).exec (m.shipped d).2).2 =
        (m.shipped d).1 := by
      rw [Delivery.landed, htable]
      exact (shipped_landed hd hl).symm
    have hdeadline : ((m.shipped d).2.processes.get d.sender).deadline =
        (m.processes.get d.sender).deadline := by
      obtain ⟨b, hb⟩ := hprocesses d.sender
      rw [hb]
    refine ⟨b, ?_⟩
    rw [hlanded, hhanded, Processes.get_put_self, hdeadline, hb]
    unfold Delivery.received
    split <;> rfl
  case waiter => simp [hregistry, Registry.waiter_setWaiter]
  case table => rw [htable, shipped_table hd]

end Machine
end SepKernel
