import SepKernel.Proofs.Channel.Delivery
import SepKernel.Proofs.Machine.Effects
import SepKernel.Proofs.Machine.Revoked

/-!
# What becomes of others

An operation touches at most one process apart from its caller: the receiver of a message, or the
process that a monitor stops, lets go on, lends the hart or edits. Nothing else becomes of others,
except that their protection registers may be freed or loaded together with their capabilities.

These come and go in three ways: with a message, under a monitor, and by a revocation.
-/

namespace SepKernel

variable {m m' m₁ : Machine} {p q : Pid} {h : Hart} {op : Operation} {s x : Slot} {msg : Message}

/-! ## Work for one process -/

def Solo (p : Pid) (m m' : Machine) : Prop :=
  ∀ q, q ≠ p → m'.processes.get q = m.processes.get q

instance : IsPreorder Machine (Solo p) where
  refl _ _ _ := rfl
  trans _ _ _ h h' q hq := (h' q hq).trans (h q hq)

theorem Solo.of_processes (h : m'.processes = m.processes) : Solo p m m' :=
  fun _ _ => by rw [h]

theorem Aside.solo (h : Aside m m') : Solo p m m' := .of_processes (by rw [h.kernel])

namespace Machine

open Action.Keeps

theorem solo_put (m : Machine) (p : Pid) (x : Process) :
    Solo p m { m with processes := m.processes.put p x } :=
  fun _ hq => Processes.get_put_of_ne _ _ hq.symm

theorem modifyProcess_solo (p : Pid) (f : Process → Process) : (modifyProcess p f).Keeps (Solo p) :=
  modify fun m => solo_put m p (f (m.processes.get p))

theorem note_solo (e : Event) : (note e).Keeps (Solo p) :=
  modify fun _ => .of_processes rfl

theorem expect_solo (f : Fault) (b : Bool) : (expect f b).Keeps (Solo p) :=
  expect_keeps (fun _ _ => .of_processes rfl) f b

theorem process_solo (q : Pid) : (process q).Keeps (Solo p) :=
  (process_aside q).mono Aside.solo

theorem release_solo (p : Pid) : (release p).Keeps (Solo p) :=
  release_keeps Aside.solo expect_solo (modifyProcess_solo p _)

theorem await_solo (k : Socket) (p : Pid) (b : Slot) : (await k p b).Keeps (Solo p) :=
  bind (expect_solo _ _) fun _ => bind (modify fun _ => .of_processes rfl) fun _ =>
    bind (process_solo p) fun _ => bind (expect_solo _ _) fun _ => modifyProcess_solo p _

theorem await_process (k : Socket) (p : Pid) (b : Slot) (m : Machine) :
    ((await k p b).exec m).2.processes.get p =
      ((m.processes.get p).await (k.chan.setWidth 32)).report .timeout := by
  simp [await, process]

theorem awaitForever_solo (p : Pid) : (awaitForever p).Keeps (Solo p) :=
  modifyProcess_solo p _

theorem awaitClient_solo (k : Socket) (p : Pid) (b : Slot) : (awaitClient k p b).Keeps (Solo p) :=
  bind (await_solo k p b) fun _ => bind (awaitForever_solo p) fun _ => note_solo _

/-- A client that waits changes nobody else. -/
theorem awaitAnswer_solo (k : Socket) (p : Pid) (b : Slot) (lent : Option Pid) :
    (awaitAnswer k p b lent).Keeps (Solo p) := by
  apply bind (await_solo k p b)
  intro _
  split
  · exact awaitForever_solo p
  · exact .pure _

end Machine

/-! ## Operations -/

namespace Operation

def sending? : Operation → Option (Slot × Message)
  | send s m | reply s m | call s m | replyReceive s m | sendReceive s m => some (s, m)
  | _ => none

/-- The process that an operation is carried out for: the owner of the slot that it names first. -/
def caller : Operation → Pid
  | capRead s | capMove s _ | capDelete s | capDerive s _ _ | capRevoke s | pmpLoad s _
  | pmpUnload s | monSuspend s _ | monResume s _ | monState s _ | monYield s _
  | monReadRegister s _ _ | monWriteRegister s _ _ _ | monCapRead s _ _ | monCapMove s _ _
  | monPmpLoad s _ _ _ | monPmpUnload s _ _ | send s _ | reply s _ | receive s _ | call s _
  | replyReceive s _ | sendReceive s _ => s.owner

theorem caller_of_sending (hs : op.sending? = some (s, msg)) : op.caller = s.owner := by
  cases op <;> cases hs <;> rfl

/-- Only the caller of an operation may wait at its end. -/
theorem caller_of_waitsAt (hs : op.WaitsAt s) : op.caller = s.owner := by
  cases op <;> cases hs <;> rfl

/-- What an operation can make of a process that is not its caller. -/
inductive Touches (h : Hart) (m : Machine) (q : Pid) : Operation → Process → Prop
  | message {op : Operation} {s : Slot} {msg : Message} {d : Machine.Delivery} {m₁ : Machine}
      {deadline : Nat} {c : Capability} : op.sending? = some (s, msg) →
      Machine.Sends h s msg m d m₁ → d.receiver.pid = q →
      Touches h m q op (d.received (m.processes.get q) deadline c)
  | suspend {s : Slot} : Machine.controls (m.table.get s) q = true →
      Touches h m q (.monSuspend s q) (m.processes.get q).suspend
  | resume {s : Slot} : Machine.controls (m.table.get s) q = true →
      Touches h m q (.monResume s q) (m.processes.get q).resume
  | lend {s : Slot} {x : Process} {deadline : Nat} : Machine.controls (m.table.get s) q = true →
      (m.processes.get q).acquire? m.board.time = some x →
      Touches h m q (.monYield s q) { x with deadline }
  | write {s : Slot} {r : Register} {w : Word} : m.Edits s q →
      Touches h m q (.monWriteRegister s q r w) ((m.processes.get q).setRegister r w)

/-- A process is left alone by an operation, or touched; its protection registers aside. -/
def Meets (h : Hart) (op : Operation) (q : Pid) (m m' : Machine) : Prop :=
  ∃ x b, (x = m.processes.get q ∨ op.Touches h m q x) ∧ m'.processes.get q = { x with bank := b }

theorem Meets.of_settled (hs : Settled m m') : op.Meets h q m m' := by
  obtain ⟨b, hb⟩ := hs q
  exact ⟨_, b, .inl rfl, hb⟩

theorem Meets.of_ne {x : Process} (hp : p ≠ q)
    (hm : m'.processes = m.processes.put p x) : op.Meets h q m m' := by
  refine ⟨_, (m.processes.get q).bank, .inl rfl, ?_⟩
  rw [hm, Processes.get_put_of_ne _ _ hp]

theorem Meets.touched {x : Process} (ht : op.Touches h m q x)
    (hm : m'.processes = m.processes.put q x) : op.Meets h q m m' :=
  ⟨x, x.bank, .inr ht, by rw [hm, Processes.get_put_self]⟩

theorem Meets.solo (hm : op.Meets h q m m₁) (hs : Solo p m₁ m') (hq : q ≠ p) :
    op.Meets h q m m' := by
  obtain ⟨x, b, hx, hb⟩ := hm
  exact ⟨x, b, hx, by rw [hs q hq, hb]⟩

/-- Operations that send the same message over the same socket touch the same processes. -/
theorem Meets.relay {op' : Operation} (hm : op.Meets h q m m') (hs : op.sending? = some (s, msg))
    (hs' : op'.sending? = some (s, msg)) : op'.Meets h q m m' := by
  obtain ⟨x, b, hx | hx, hb⟩ := hm
  · exact ⟨x, b, .inl hx, hb⟩
  · refine ⟨x, b, .inr ?_, hb⟩
    cases hx with
    | message hsending hsends hq =>
      rw [hs] at hsending
      cases hsending
      exact .message hs' hsends hq
    | _ => cases hs

/-- A message changes its receiver, and the bank of its sender. -/
theorem Meets.deliver {d : Machine.Delivery} (hop : op.sending? = some (s, msg))
    (hs : Machine.Sends h s msg m d m₁) (hl : m.table.Strung) :
    op.Meets h q m ((Machine.deliver d).exec m₁).2 := by
  have hkernel := hs.aside.kernel
  have hl₁ : m₁.table.Strung := by rwa [hkernel]
  obtain ⟨_, hd⟩ := Machine.deliver_delivered hs.prepared hl₁
  -- somebody else is only met by the move of what goes along
  by_cases hq : q = d.receiver.pid
  · obtain ⟨b, hb⟩ := hd.receiver
    rw [← hq, hkernel] at hb
    exact ⟨_, b, .inr (.message hop hs hq.symm), hb⟩
  · obtain ⟨b, hb⟩ := hd.others q hq
    rw [hkernel] at hb
    exact ⟨_, b, .inl rfl, hb⟩

/-- An answer changes the client, unless it is dropped. -/
theorem Meets.answer {n : Next} (hop : op.sending? = some (s, msg))
    (ha : Machine.Answers h s msg m n m') (hl : m.table.Strung) : op.Meets h q m m' := by
  cases ha with
  | deliver hs => exact .deliver hop hs hl
  | drop h₁ =>
    exact .of_settled (trans_of Settled h₁.settled (Machine.dropAnswer_clerical msg _ _).settled)

/-- Whoever does not wait at the end of an operation is left alone by it, or touched. -/
theorem Effect.meets (he : op.Effect h m m') (hl : m.table.Strung)
    (hq : ∀ s, op.WaitsAt s → q ≠ s.owner) : op.Meets h q m m' := by
  -- most operations leave all processes alone; those of a monitor name the one that they change
  induction he with
  | move => exact .of_settled (Machine.relocate_clerical _ _ _ m).settled
  | delete => exact .of_settled (Machine.discardCapability_clerical _ _ m).settled
  | derive => exact .of_settled (.of_processes (Machine.bear_processes ..))
  | revoke => exact .of_settled (Machine.revokeCapability_settled h _ m)
  | load => exact .of_settled (Machine.install_clerical _ _ _ m).settled
  | unload => exact .of_settled (Machine.uninstall_clerical _ _ m).settled
  | @suspend s p hc =>
    by_cases hp : p = q
    · subst hp
      exact .touched (.suspend hc) rfl
    · exact .of_ne hp rfl
  | @resume s p hc =>
    by_cases hp : p = q
    · subst hp
      exact .touched (.resume hc) rfl
    · exact .of_ne hp rfl
  | @yield s p x hc hx =>
    by_cases hp : p = q
    · subst hp
      exact .touched (.lend hc hx) (Processes.put_put ..)
    · exact .of_ne hp (Processes.put_put ..)
  | @write s p r w hs =>
    by_cases hp : p = q
    · subst hp
      exact .touched (.write hs) rfl
    · exact .of_ne hp rfl
  | moveOf _ _ he =>
    cases he
    exact .of_settled (Machine.relocate_clerical _ _ _ m).settled
  | loadOf _ he =>
    cases he
    exact .of_settled (Machine.install_clerical _ _ _ m).settled
  | unloadOf _ he =>
    cases he
    exact .of_settled (Machine.uninstall_clerical _ _ m).settled
  | send hs => exact .deliver rfl hs hl
  | reply _ ih => exact (ih hq).relay rfl rfl
  | receive h₁ =>
    exact (Meets.of_settled h₁.settled).solo (Machine.awaitClient_solo _ _ _ _) (hq _ rfl)
  | call hs _ =>
    exact (Meets.deliver rfl hs hl).solo (Machine.awaitAnswer_solo _ _ _ _ _) (hq _ rfl)
  | replyReceive _ _ _ _ ha =>
    exact (Meets.answer rfl ha hl).solo (Machine.awaitClient_solo _ _ _ _) (hq _ rfl)
  | exchange _ ih => exact (ih hq).relay rfl rfl
  | exchangeBack _ ih => exact (ih hq).relay rfl rfl

end Operation

/-! ## Slots -/

namespace Machine

theorem awaitClient_quiet (k : Socket) (p : Pid) (b : Slot) : (awaitClient k p b).Keeps Quiet :=
  .bind (await_quiet k p b) fun _ => .bind ((awaitForever_hushed p).mono Hushed.toQuiet) fun _ =>
    (note_aside fun _ => rfl).mono fun ha => ha.hushed.toQuiet

/-- Waiting changes no capability. -/
theorem awaitAnswer_quiet (k : Socket) (p : Pid) (b : Slot) (lent : Option Pid) :
    (awaitAnswer k p b lent).Keeps Quiet := by
  apply Action.Keeps.bind (await_quiet k p b)
  intro _
  split
  · exact (awaitForever_hushed p).mono Hushed.toQuiet
  · exact .pure _

end Machine

namespace Operation

def target? : Operation → Option Slot
  | capMove _ t | capDerive _ t _ => some t
  | _ => none

/-- Is a process the caller of an operation, that is, are the slots its own that the operation
names, apart from those that a monitor gives access to? -/
def For (op : Operation) (p : Pid) : Prop :=
  op.caller = p ∧ ∀ t, op.target? = some t → t.owner = p

theorem For.of_sending (hp : op.For p) (hs : op.sending? = some (s, msg)) : s.owner = p :=
  (caller_of_sending hs).symm.trans hp.1

theorem For.of_waitsAt (hp : op.For p) (hs : op.WaitsAt s) : s.owner = p :=
  (caller_of_waitsAt hs).symm.trans hp.1

/-- How an operation can change the capability in a slot that is not its caller's. -/
inductive Alters (h : Hart) (m : Machine) (x : Slot) (m' : Machine) : Operation → Prop
  | message {op : Operation} {s : Slot} {msg : Message} {d : Machine.Delivery} {m₁ : Machine} :
      op.sending? = some (s, msg) → Machine.Sends h s msg m d m₁ → d.message.sendCap = true →
      d.receiver.buffer = x →
      m'.table.get x = Machine.arriving d.buffer x (m.table.get d.buffer) → Alters h m x m' op
  | move {s source target : Slot} : x = source ∨ x = target → m.Edits s x.owner →
      Alters h m x m' (.monCapMove s source target)
  | load {s : Slot} {register : Nat} : m.Edits s x.owner →
      Alters h m x m' (.monPmpLoad s x.owner x.index register)
  | unload {s : Slot} : m.Edits s x.owner → Alters h m x m' (.monPmpUnload s x.owner x.index)
  | revoke {s : Slot} : m.table.Before s x →
      (m.table.get s).mayRevoke (m.table.get x) = true → m'.table.get x = .null →
      Alters h m x m' (.capRevoke s)

def Spares (h : Hart) (op : Operation) (x : Slot) (m m' : Machine) : Prop :=
  m'.table.get x = m.table.get x ∨ op.Alters h m x m'

theorem Spares.of_table (ht : m'.table = m.table) : op.Spares h x m m' :=
  .inl (by rw [ht])

/-- Work that changes no capability may follow. -/
theorem Spares.quiet (hs : op.Spares h x m m₁) (hq : Quiet m₁ m') : op.Spares h x m m' := by
  rw [Spares, hq.table]
  rcases hs with hs | hs
  · exact .inl hs
  · right
    cases hs with
    | message hop hs hc hb hx => exact .message hop hs hc hb (by rw [hq.table, hx])
    | move hx he => exact .move hx he
    | load he => exact .load he
    | unload he => exact .unload he
    | revoke hb hr hx => exact .revoke hb hr (by rw [hq.table, hx])

/-- Exchanges are messages, for this purpose. -/
theorem Spares.relay {op' : Operation} (hx : op.Spares h x m m') (hs : op.sending? = some (s, msg))
    (hs' : op'.sending? = some (s, msg)) : op'.Spares h x m m' := by
  rcases hx with hx | hx
  · exact .inl hx
  · right
    cases hx with
    | message hsending hsends hc hb hx =>
      rw [hs] at hsending
      cases hsending
      exact .message hs' hsends hc hb hx
    | _ => cases hs

/-- A capability that goes along comes to the slot that the receiver has named. -/
theorem Spares.deliver {d : Machine.Delivery} (hop : op.sending? = some (s, msg))
    (hs : Machine.Sends h s msg m d m₁) (hl : m.table.Strung) (hx : x.owner ≠ s.owner) :
    op.Spares h x m ((Machine.deliver d).exec m₁).2 := by
  have hkernel := hs.aside.kernel
  have hl₁ : m₁.table.Strung := by rwa [hkernel]
  obtain ⟨_, hd⟩ := Machine.deliver_delivered hs.prepared hl₁
  have htable := hd.table
  split at htable
  · next hc =>
    obtain ⟨_, _, hv⟩ := hs.prepared.freight hc
    -- the slot is not the one that the capability comes from
    have hbuffer : d.buffer ≠ x := by
      rintro rfl
      exact hx hs.buffer.1
    have hget : ((Machine.deliver d).exec m₁).2.table.get x = if d.receiver.buffer = x then
        Machine.arriving d.buffer d.receiver.buffer (m.table.get d.buffer) else m.table.get x := by
      rw [htable, hl₁.get_relink hv, if_neg hbuffer, hkernel]
    split at hget
    · next hr =>
      rw [hr] at hget
      exact .inr (.message hop hs hc hr hget)
    · exact .inl hget
  · exact .of_table (by rw [htable, hkernel])

/-- Whether the answer is delivered or dropped, the slot is at most one of the sender or of the
client. -/
theorem Spares.answer {n : Next} (hop : op.sending? = some (s, msg))
    (ha : Machine.Answers h s msg m n m') (hl : m.table.Strung) (hx : x.owner ≠ s.owner) :
    op.Spares h x m m' := by
  cases ha with
  | deliver hs => exact .deliver hop hs hl hx
  | @drop b m₁ _ h₁ hb =>
    -- what is dropped was in a slot of the caller
    have hdropped : ((Machine.dropAnswer msg b).exec m₁).2.table.get x = m₁.table.get x := by
      apply Machine.dropAnswer_at (R := fun m₁ m' => m'.table.get x = m₁.table.get x)
      intro _ _
      rw [Machine.discard_table, Table.get_unlink, if_neg]
      rintro rfl
      exact hx hb
    exact .inl (by rw [hdropped, h₁.kernel])

/-- A revocation empties slots, and only of those that are reached. -/
theorem Spares.revoke (hl : m.table.Lineal) (hx : x ≠ s) :
    (capRevoke s).Spares h x m ((Machine.revokeCapability h s).exec m).2 := by
  -- how far the revocation came makes no difference
  have taken : ∀ {ds rest : List Slot} {m₁ m' : Machine}, m.table.descendants s = ds ++ rest →
      Takes s ds m m₁ → m'.table.get x = m₁.table.get x → (capRevoke s).Spares h x m m' := by
    intro ds rest m₁ m' hd ht hm'
    have hget := ht.get hx
    rw [← hm'] at hget
    split at hget
    · next hmem =>
      obtain ⟨hb, hr⟩ := hl.mem_descendants.1 (by rw [hd]; exact List.mem_append_left _ hmem)
      exact .inr (.revoke hb hr hget)
    · exact .inl hget
  rcases Machine.revokeCapability_cases hl h s with
    ⟨_, he⟩ | ⟨_, ds, rest, m₁, hd, ht, ⟨_, he⟩ | he⟩
  · exact .of_table (by rw [he])
  · rw [he]
    apply taken hd ht
    rw [(Machine.restore_restored s m₁).table, Table.restore, Table.get_set_of_ne _ _ hx.symm]
  · rw [he]
    exact taken hd ht rfl

/-- A slot that is not the caller's is left alone by an operation, or altered. -/
theorem Effect.spares (he : op.Effect h m m') (hl : m.table.Lineal) (hop : op.For p)
    (hx : x.owner ≠ p) : op.Spares h x m m' := by
  -- the slots of the caller are not the one in question
  have other : ∀ {y : Slot}, y.owner = p → y ≠ x := by
    rintro y hy rfl
    exact hx hy
  induction he with
  | move hs hv =>
    left
    rw [Machine.relocate_table, hl.strung.get_relink hv, if_neg (other hop.1),
      if_neg (other (hop.2 _ rfl))]
  | delete =>
    left
    rw [Machine.discard_table, Table.get_unlink, if_neg (other hop.1)]
  | derive hd hv =>
    left
    rw [Machine.bear_table, hl.get_derive hv hd, if_neg (other (hop.2 _ rfl)), if_neg (other hop.1)]
  | revoke => exact .revoke hl (other hop.1).symm
  | @load s r k =>
    obtain ⟨_, he⟩ := Machine.install_exec m s r k
    exact .inl (by rw [he]; exact Table.get_set_of_ne _ _ (other hop.1))
  | @unload s r =>
    obtain ⟨_, he⟩ := Machine.uninstall_exec m s r
    exact .inl (by rw [he]; exact Table.get_set_of_ne _ _ (other hop.1))
  | suspend | resume | yield | write => exact .of_table rfl
  | @moveOf s source target _ hs ht he =>
    cases he with
    | move _ hv =>
      have hcaller : s.owner = p := hop.1
      rw [← hcaller] at hx
      by_cases hxs : x = source
      · subst hxs
        exact .inr (.move (.inl rfl) (hs hx))
      by_cases hxt : x = target
      · subst hxt
        exact .inr (.move (.inr rfl) (ht hx))
      left
      rw [Machine.relocate_table, hl.strung.get_relink hv, if_neg (Ne.symm hxs),
        if_neg (Ne.symm hxt)]
  | @loadOf s y k _ hs he =>
    cases he with
    | @load _ r k =>
      by_cases hxy : x = y
      · subst hxy
        exact .inr (.load hs)
      · obtain ⟨_, he⟩ := Machine.install_exec m y r k
        exact .inl (by rw [he]; exact Table.get_set_of_ne _ _ (Ne.symm hxy))
  | @unloadOf s y _ hs he =>
    cases he with
    | @unload _ r =>
      by_cases hxy : x = y
      · subst hxy
        exact .inr (.unload hs)
      · obtain ⟨_, he⟩ := Machine.uninstall_exec m y r
        exact .inl (by rw [he]; exact Table.get_set_of_ne _ _ (Ne.symm hxy))
  | send hs => exact .deliver rfl hs hl.strung (by rwa [hop.of_sending rfl])
  | reply _ ih => exact (ih hop).relay rfl rfl
  | receive h₁ =>
    exact (Spares.of_table (by rw [h₁.kernel])).quiet (Machine.awaitClient_quiet _ _ _ _)
  | call hs =>
    exact (Spares.deliver rfl hs hl.strung (by rwa [hop.of_sending rfl])).quiet
      (Machine.awaitAnswer_quiet _ _ _ _ _)
  | replyReceive _ _ _ _ ha =>
    exact (Spares.answer rfl ha hl.strung (by rwa [hop.of_sending rfl])).quiet
      (Machine.awaitClient_quiet _ _ _ _)
  | exchange _ ih => exact (ih hop).relay rfl rfl
  | exchangeBack _ ih => exact (ih hop).relay rfl rfl

end Operation
end SepKernel
