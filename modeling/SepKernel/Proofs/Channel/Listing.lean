import SepKernel.Proofs.Machine.Separation

/-!
# Who is in the registry

A process that begins to wait on a channel enters itself in the registry, at its end of the channel.
It is struck out when a message is delivered to it, and then it does not wait any more. Besides, the
registry forgets about it if somebody gives up a server of the channel, or the process itself a
socket of its end; and another process that begins to wait at the same end takes its place.
-/

namespace SepKernel

variable {m m' m₁ m₂ : Machine} {p q : Pid} {i : Fin 16} {r : Role} {x s source target : Slot}
  {h : Hart} {op : Operation} {msg : Message} {ds : List Slot} {c : ChannelWord}

namespace Machine

/-- Is a process in the registry as the one that waits at an end of a channel? -/
def Lists (m : Machine) (p : Pid) (i : Fin 16) (r : Role) : Prop :=
  ∃ w, (m.registry.get i).waiter r = some w ∧ w.pid = p

/-- Does a process wait for a message on a channel? A process that sleeps does not. -/
def Blocked (m : Machine) (p : Pid) (c : ChannelWord) : Prop :=
  (m.processes.get p).status.wait = some c ∧ c ≠ sleepChannel

def GivesUp (q : Pid) (k : Socket) (m m' : Machine) : Prop :=
  ∃ x, x.owner = q ∧ m.table.get x = .socket k ∧ m'.table.get x = .null ∧
    ∀ y, y.owner = q → m'.table.get y = .socket k → m.table.get y = .socket k

/-- Why a process at an end of a channel is not in the registry any more. -/
inductive Strikes (p : Pid) (i : Fin 16) (r : Role) (m m' : Machine) : Prop
  /-- Somebody gives up a server of the channel, or the process itself a socket of its end. -/
  | gaveUp {q : Pid} {k : Socket} : k.chan.toNat = i.val → k.role = .server ∨ k.role = r ∧ q = p →
      GivesUp q k m m' → Strikes p i r m m'
  /-- Another process waits there. -/
  | replaced {w : Waiter} : (m'.registry.get i).waiter r = some w → w.pid ≠ p → Strikes p i r m m'

/-- A process that is in the registry stays there, or it is struck out. -/
def Retains (p : Pid) (m m' : Machine) : Prop :=
  ∀ i r, m.Lists p i r → m'.Lists p i r ∨ Strikes p i r m m'

theorem Lists.congr (h : m.Lists p i r)
    (hr : (m'.registry.get i).waiter r = (m.registry.get i).waiter r) : m'.Lists p i r := by
  rwa [Lists, hr]

/-- Whether a waiter is struck out is seen from the tables before and after, and from who is
registered after. -/
theorem Strikes.congr (h : Strikes p i r m₁ m₂) (ht : m₁.table = m.table)
    (ht' : m'.table = m₂.table)
    (hr : (m'.registry.get i).waiter r = (m₂.registry.get i).waiter r) : Strikes p i r m m' := by
  cases h with
  | gaveUp hi hk hgave =>
    rw [GivesUp, ht, ← ht'] at hgave
    exact .gaveUp hi hk hgave
  | replaced hw hne => exact .replaced (by rw [hr, hw]) hne

theorem Retains.of_registry (hr : m'.registry = m.registry) : Retains p m m' :=
  fun _ _ hp => .inl (hp.congr (by rw [hr]))

end Machine

/-! ## Work that has nothing to do with channels -/

namespace Process

variable {a : Process}

/-- A process that waits after it was suspended has waited before. -/
theorem wait_of_suspend (hw : a.suspend.status.wait = some c) : a.status.wait = some c := by
  simp only [suspend] at hw
  split at hw
  · cases hw
  · exact hw

/-- A process that waits after it was released has waited before. -/
theorem wait_of_release (hw : a.release.status.wait = some c) : a.status.wait = some c := by
  simp only [release] at hw
  split at hw
  · cases hw
  · exact hw

end Process

/-- The registry and the capabilities stay as they are, and nobody begins to wait for a message. -/
structure Aloof (m m' : Machine) : Prop where
  table : m'.table = m.table
  registry : m'.registry = m.registry
  blocked : ∀ p c, m'.Blocked p c → m.Blocked p c

instance : IsPreorder Machine Aloof where
  refl _ := ⟨rfl, rfl, fun _ _ h => h⟩
  trans _ _ _ h h' := ⟨h'.table.trans h.table, h'.registry.trans h.registry,
    fun p c hb => h.blocked p c (h'.blocked p c hb)⟩

theorem Calm.blocked (hc : Calm m m') (hb : m'.Blocked p c) : m.Blocked p c := by
  rwa [Machine.Blocked, hc p] at hb

theorem Calm.aloof (hc : Calm m m') (ht : m'.table = m.table) (hr : m'.registry = m.registry) :
    Aloof m m' :=
  ⟨ht, hr, fun _ _ => hc.blocked⟩

theorem Aside.aloof (h : Aside m m') : Aloof m m' :=
  h.calm.aloof (by rw [h.kernel]) (by rw [h.kernel])

/-- Work in which whoever waits in the end waited before, and was struck out if it is not in the
registry any more. -/
def Abides (p : Pid) (m m' : Machine) : Prop :=
  ∀ c, m'.Blocked p c → m.Blocked p c ∧ Machine.Retains p m m'

theorem Aloof.abides (h : Aloof m m') : Abides p m m' :=
  fun c hb => ⟨h.blocked p c hb, .of_registry h.registry⟩

theorem Calm.abides (hc : Calm m m') (hr : Machine.Retains p m m') : Abides p m m' :=
  fun _ hb => ⟨hc.blocked hb, hr⟩

/-- Some process gets another status, in which it does not begin to wait for a message. -/
theorem aloof_put {a : Process}
    (ha : ∀ c, a.status.wait = some c →
      c = sleepChannel ∨ (m.processes.get p).status.wait = some c) :
    Aloof m { m with processes := m.processes.put p a } := by
  refine ⟨rfl, rfl, ?_⟩
  rintro q c ⟨hw, hc⟩
  refine ⟨?_, hc⟩
  by_cases hpq : p = q
  · subst hpq
    rw [Processes.get_put_self] at hw
    exact (ha c hw).resolve_left hc
  · rwa [Processes.get_put_of_ne _ _ hpq] at hw

/-- What comes before and after has nothing to do with channels. -/
theorem Machine.Retains.around (h : Retains p m₁ m₂) (h₁ : Aloof m m₁) (h₂ : Aloof m₂ m') :
    Retains p m m' := by
  intro i r hp
  have hreg : (m'.registry.get i).waiter r = (m₂.registry.get i).waiter r := by rw [h₂.registry]
  rcases h i r (hp.congr (by rw [h₁.registry])) with hp | hs
  · exact .inl (hp.congr hreg)
  · exact .inr (hs.congr h₁.table h₂.table hreg)

/-- Work that has nothing to do with the waiters may come before. -/
theorem Abides.after (h : Abides p m₁ m') (h₁ : Aloof m m₁) : Abides p m m' := by
  intro c hb
  obtain ⟨hb, hr⟩ := h c hb
  exact ⟨h₁.blocked p c hb, hr.around h₁ (refl_of Aloof m')⟩

namespace Machine

open Action.Keeps

theorem modifyProcess_aloof (p : Pid) {f : Process → Process}
    (hf : ∀ x c, (f x).status.wait = some c → c = sleepChannel ∨ x.status.wait = some c) :
    (modifyProcess p f).Keeps Aloof :=
  modify fun _ => aloof_put (hf _)

/-- The status of a process stays. -/
theorem modifyProcess_still (p : Pid) {f : Process → Process} (hf : ∀ x, (f x).status = x.status) :
    (modifyProcess p f).Keeps Aloof :=
  modifyProcess_aloof p fun x c hw => .inr (by rwa [hf] at hw)

theorem note_aloof (e : Event) : (note e).Keeps Aloof :=
  modify fun _ => ⟨rfl, rfl, fun _ _ hb => hb⟩

end Machine

/-! ## Giving up -/

/-- Whoever waits on a channel is not forgotten, or a server is given up, or the process gives up a
socket of its own end. -/
theorem Channel.waiter_forget {k : Channel} {w : Waiter} (hw : k.waiter r = some w) (role : Role)
    (q : Pid) : (k.forget role q).waiter r = some w ∨ role = .server ∨ role = r ∧ q = w.pid := by
  cases role with
  | server => exact .inr (.inl rfl)
  | client =>
    -- only if the client that waits is the one to be forgotten
    rw [forget]
    split
    · next hany =>
      cases r with
      | server => exact .inl hw
      | client =>
        rw [show k.client = some w from hw, Option.any_some, beq_iff_eq] at hany
        exact .inr (.inr ⟨rfl, hany.symm⟩)
    · exact .inl hw

/-- Whoever waits is in the registry after a slot has given up what is in it, or that is a socket
for which it is struck out. -/
theorem Forgoes.lists (hf : Forgoes x m m') (hp : m.Lists p i r) :
    m'.Lists p i r ∨ ∃ k, m.table.get x = .socket k ∧ k.chan.toNat = i.val ∧
      (k.role = .server ∨ k.role = r ∧ x.owner = p) := by
  obtain ⟨w, hw, rfl⟩ := hp
  rw [Machine.Lists, hf.registry]
  -- only the channel of the socket that is given up is touched
  by_cases hx : ∃ k, m.table.get x = .socket k ∧ k.chan.toNat = i.val
  · obtain ⟨k, hk, hi⟩ := hx
    rw [hk, Capability.get_silence_socket k _ _ hi]
    rcases Channel.waiter_forget hw k.role x.owner with hw | hrole
    · exact .inl ⟨w, hw, rfl⟩
    · exact .inr ⟨k, rfl, hi, hrole⟩
  · rw [Capability.get_silence_of_ne fun k hk hi => hx ⟨k, hk, hi⟩]
    exact .inl ⟨w, hw, rfl⟩

/-- What is given up leaves its slot, and the owner of the slot does not get it back. -/
theorem Forgoes.retains (hf : Forgoes x m m') (hx : m'.table.get x = .null)
    (hy : ∀ y k, y.owner = x.owner → m'.table.get y = .socket k → m.table.get y = .socket k) :
    Machine.Retains p m m' := by
  intro i r hp
  rcases hf.lists hp with hlists | ⟨k, hk, hi, hrole⟩
  · exact .inl hlists
  · exact .inr (.gaveUp hi hrole ⟨x, rfl, hk, hx, fun y => hy y k⟩)

namespace Machine

/-- A move strikes out who waits over the socket only if that goes to another process. -/
theorem relocate_retains (hl : m.table.Strung) (hv : m.table.get target = .null) :
    Retains p m ((relocate source target (m.table.get source)).exec m).2 := by
  -- within one process nobody is struck out
  by_cases ho : source.owner = target.owner
  · exact .of_registry (by rw [relocate_registry, if_pos ho])
  · apply (relocate_forgoes hl hv ho).retains
    · rw [relocate_table, hl.get_relink hv, if_pos rfl]
    · intro y k hy hk
      have hyt : target ≠ y := by
        rintro rfl
        exact ho hy.symm
      rw [relocate_table, hl.get_relink hv, if_neg hyt] at hk
      split at hk
      · cases hk
      · exact hk

/-- A deletion strikes out who waits over the socket that is deleted. -/
theorem discard_retains (s : Slot) (m : Machine) :
    Retains p m ((discardCapability s (m.table.get s)).exec m).2 := by
  apply (discard_forgoes s m).retains
  · rw [discard_table, Table.get_unlink, if_pos rfl]
  · intro y k _ hk
    rw [discard_table, Table.get_unlink] at hk
    split at hk
    · cases hk
    · exact hk

end Machine

/-- A run that takes capabilities back leaves whoever waits in the registry, or takes back a socket
for which it is struck out. -/
theorem Takes.lists (ht : Takes s ds m m') (hl : m.table.Lineal) (hp : m.Lists p i r) :
    m'.Lists p i r ∨ ∃ d ∈ ds, ∃ k, m.table.get d = .socket k ∧ k.chan.toNat = i.val ∧
      (k.role = .server ∨ k.role = r ∧ d.owner = p) := by
  induction ht with
  | nil => exact .inl hp
  | @cons d ds m m' b hn hr hrest ih =>
    have hback := Machine.takeBack_tookBack s d m
    -- the first one that is taken back, then the others
    rcases hback.forgoes.lists hp with hp | hd
    · rcases ih (lineal_step hl hn hr b) hp with hp | ⟨x, hx, k, hk, hrole⟩
      · exact .inl hp
      · refine .inr ⟨x, List.mem_cons_of_mem _ hx, k, ?_, hrole⟩
        have hxs : s ≠ x := by
          rintro rfl
          exact hrest.not_mem_self (lineal_step hl hn hr b) hx
        rw [table_step, Table.get_takeBack, if_neg hxs] at hk
        split at hk
        · cases hk
        · exact hk
    · exact .inr ⟨d, List.mem_cons_self, hd⟩

/-- So it is if the capability that takes back is restored then, for it keeps its outline. -/
theorem Takes.retains (ht : Takes s ds m m₁) (hl : m.table.Lineal)
    (hr : m'.registry = m₁.registry)
    (ho : ∀ x, (m'.table.get x).outline = (m₁.table.get x).outline) :
    Machine.Retains p m m' := by
  have hget : ∀ x k, m'.table.get x = .socket k → m.table.get x = .socket k := by
    intro x k hk
    have hk₁ : m₁.table.get x = .socket k := Capability.outline_eq_socket (by rw [← ho, hk])
    by_cases hx : x = s
    · subst hx
      exact Capability.outline_eq_socket (by rw [← ht.outline_self hl, hk₁])
    · rw [ht.get hx] at hk₁
      split at hk₁
      · cases hk₁
      · exact hk₁
  intro i r hp
  rcases ht.lists hl hp with ⟨w, hw, hp⟩ | ⟨d, hd, k, hk, hi, hrole⟩
  · exact .inl ⟨w, by rw [hr, hw], hp⟩
  · refine .inr (.gaveUp hi hrole ⟨d, rfl, hk, ?_, fun y _ => hget y k⟩)
    -- what was struck out is not the range itself
    have hds : d ≠ s := by
      rintro rfl
      exact ht.not_mem_self hl hd
    rw [← Capability.outline_eq_null, ho, ht.get hds, if_pos hd]
    rfl

namespace Machine

/-- A revocation takes sockets back, one after the other, and each may strike somebody out. -/
theorem revokeCapability_retains (h : Hart) (hl : m.table.Lineal) (s : Slot) :
    Retains p m ((revokeCapability h s).exec m).2 := by
  rcases revokeCapability_cases hl h s with ⟨_, he⟩ | ⟨_, ds, rest, m₁, _, ht, ⟨_, he⟩ | he⟩
  · rw [he]
    exact .of_registry rfl
  · -- it came to an end, and the range was restored
    rw [he]
    have hrestored := restore_restored s m₁
    apply ht.retains hl hrestored.registry
    intro x
    rw [hrestored.table, Table.restore, Table.get_set]
    split
    · next hx => rw [← hx, Capability.outline_restored]
    · rfl
  · -- an interrupt came
    rw [he]
    exact ht.retains hl rfl fun _ => rfl

/-! ## Messages -/

/-- So may a socket that goes along with a message. -/
theorem shipped_retains {d : Delivery} (hd : Prepared h d m) (hl : m.table.Strung) :
    Retains p m (m.shipped d).2 := by
  let taken := ((setProcess d.receiver.pid d.taken).exec m).2
  -- taking the receiver touches neither the registry nor the table
  have hship : Retains p taken ((ship d).exec taken).2 := by
    unfold ship
    split
    · next hc =>
      obtain ⟨hf, _, hv⟩ := hd.freight hc
      rw [hf]
      exact relocate_retains (m := taken) hl hv
    · exact .of_registry rfl
  exact fun i r hp => (hship i r hp).imp_right fun hs => hs.congr rfl rfl rfl

/-- Whoever waits after a message was handed over is not the receiver, and waited before. -/
theorem wait_of_deliver {d : Delivery} (hd : Prepared h d m) (hl : m.table.Strung)
    (hw : (((deliver d).exec m).2.processes.get p).status.wait = some c) :
    p ≠ d.receiver.pid ∧ (m.processes.get p).status.wait = some c := by
  obtain ⟨_, hdelivered⟩ := deliver_delivered hd hl
  -- the receiver does not wait any more
  have hp : p ≠ d.receiver.pid := by
    rintro rfl
    obtain ⟨_, hr⟩ := hdelivered.receiver
    rw [hr] at hw
    unfold Delivery.received at hw
    split at hw <;> cases hw
  obtain ⟨_, ho⟩ := hdelivered.others p hp
  rw [ho] at hw
  exact ⟨hp, hw⟩

/-- So it keeps its place, unless a socket goes along with the message. -/
theorem deliver_abides {d : Delivery} (hd : Prepared h d m) (hl : m.table.Strung) :
    Abides p m ((deliver d).exec m).2 := by
  obtain ⟨b, hb⟩ := shipped_processes hd d.receiver.pid
  rw [if_pos rfl] at hb
  obtain ⟨_, htable, hregistry, _⟩ :=
    hand_exec (m := (m.shipped d).2) (d := d) (c := (m.shipped d).1) (by rw [hb])
  rw [← deliver_exec] at htable hregistry
  rintro c ⟨hw, hc⟩
  obtain ⟨hp, hw⟩ := wait_of_deliver hd hl hw
  refine ⟨⟨hw, hc⟩, fun i r hlists => ?_⟩
  -- the end that the message is handed over at is that of the receiver
  have hend : ¬ (d.socket.chan.toNat = i.val ∧ d.socket.role.peer = r) := by
    rintro ⟨hi, rfl⟩
    obtain ⟨w, hlisted, rfl⟩ := hlists
    have hwaiter := hd.waiter
    rw [Registry.waiter, index?_eq_some_iff.2 hi.symm, Option.bind_some, hlisted] at hwaiter
    exact hp (by rw [Option.some.inj hwaiter])
  have hkept : (((deliver d).exec m).2.registry.get i).waiter r =
      ((m.shipped d).2.registry.get i).waiter r := by
    rw [hregistry, Registry.get_setWaiter]
    split
    · next hi => rw [Channel.waiter_setWaiter, if_neg fun hr => hend ⟨hi, hr⟩]
    · rfl
  rcases shipped_retains hd hl i r hlists with hlists | hstrikes
  · exact .inl (hlists.congr hkept)
  · exact .inr (hstrikes.congr rfl htable hkept)

theorem Sends.abides {d : Delivery} (hs : Sends h s msg m d m₁) (hl : m.table.Strung) :
    Abides p m ((deliver d).exec m₁).2 := by
  have hl₁ : m₁.table.Strung := by rwa [hs.aside.kernel]
  exact (deliver_abides hs.prepared hl₁).after hs.aside.aloof

/-- Whoever does not wait does not wait either after a message was handed over. -/
theorem Sends.idle {d : Delivery} (hs : Sends h s msg m d m₁) (hl : m.table.Strung)
    (hp : (m.processes.get p).status.wait = none) :
    (((deliver d).exec m₁).2.processes.get p).status.wait = none := by
  have hl₁ : m₁.table.Strung := by rwa [hs.aside.kernel]
  rw [Option.eq_none_iff_forall_ne_some]
  intro c hw
  obtain ⟨_, hw⟩ := wait_of_deliver hs.prepared hl₁ hw
  rw [hs.aside.kernel, hp] at hw
  cases hw

/-- An answer that is dropped is a deletion. -/
theorem dropAnswer_abides (msg : Message) (b : Slot) (m : Machine) :
    Abides p m ((dropAnswer msg b).exec m).2 := by
  apply (dropAnswer_clerical msg b m).settled.calm.abides
  rw [dropAnswer_eq]
  split
  · exact discard_retains b m
  · exact .of_registry rfl

/-- An answer abides, be it delivered or dropped. -/
theorem Answers.abides {n : Next} (ha : Answers h s msg m n m') (hl : m.table.Strung) :
    Abides p m m' := by
  cases ha with
  | deliver hs => exact hs.abides hl
  | drop h₁ => exact (dropAnswer_abides _ _ _).after h₁.aloof

/-- Nobody begins to wait by an answer. -/
theorem Answers.idle {n : Next} (ha : Answers h s msg m n m') (hl : m.table.Strung)
    (hp : (m.processes.get p).status.wait = none) : (m'.processes.get p).status.wait = none := by
  cases ha with
  | deliver hs => exact hs.idle hl hp
  | drop h₁ => rw [(dropAnswer_clerical _ _ _).settled.calm p, h₁.calm p, hp]

/-! ## Waiting -/

structure Enters (k : Socket) (p : Pid) (m m' : Machine) : Prop where
  table : m'.table = m.table
  registry : ∃ b, m'.registry = m.registry.setWaiter k.chan k.role (some ⟨p, b⟩)
  solo : Solo p m m'
  status : (m'.processes.get p).status =
    ((m.processes.get p).await (k.chan.setWidth 32)).status

theorem await_enters (k : Socket) (p : Pid) (b : Slot) : (await k p b).Keeps (Enters k p) :=
  fun m => ⟨(await_quiet k p b m).table, ⟨b, await_registry k p b m⟩, await_solo k p b m,
    by rw [await_process]; rfl⟩

/-- The process may do without a deadline. -/
theorem Enters.forever {k : Socket} (he : Enters k p m m₁) :
    Enters k p m ((awaitForever p).exec m₁).2 where
  table := he.table
  registry := he.registry
  solo := trans_of (Solo p) he.solo (awaitForever_solo p m₁)
  status := by rw [awaitForever_calm p m₁ p, he.status]

theorem awaitClient_enters (k : Socket) (p : Pid) (b : Slot) :
    (awaitClient k p b).Keeps (Enters k p) := by
  intro m
  have he := (await_enters k p b m).forever
  exact ⟨he.table, he.registry, he.solo, he.status⟩

/-- A client enters itself, with or without a deadline. -/
theorem awaitAnswer_enters (k : Socket) (p : Pid) (b : Slot) (lent : Option Pid) :
    (awaitAnswer k p b lent).Keeps (Enters k p) := by
  intro m
  have he := await_enters k p b m
  unfold awaitAnswer
  split
  · exact he.forever
  · exact he

/-- Others that wait keep their places, or are replaced. -/
theorem Enters.abides {k : Socket} (he : Enters k q m₁ m') (ha : Abides p m m₁) (hp : p ≠ q) :
    Abides p m m' := by
  rintro c ⟨hw, hc⟩
  rw [he.solo p hp] at hw
  obtain ⟨hb, hr⟩ := ha c ⟨hw, hc⟩
  refine ⟨hb, fun i r hlists => ?_⟩
  obtain ⟨b, hregistry⟩ := he.registry
  have hwaiter : (m'.registry.get i).waiter r = if k.chan.toNat = i.val ∧ k.role = r then
      some ⟨q, b⟩ else (m₁.registry.get i).waiter r := by
    rw [hregistry, Registry.get_setWaiter, ite_and]
    split
    · rw [Channel.waiter_setWaiter]
    · rfl
  -- the new one may have come to where the other waited
  split at hwaiter
  · exact .inr (.replaced hwaiter hp.symm)
  · rcases hr i r hlists with hlists | hstrikes
    · exact .inl (hlists.congr hwaiter)
    · exact .inr (hstrikes.congr rfl he.table hwaiter)

/-- Is a process in the registry as one of the two that wait on a channel? -/
def Listed (m : Machine) (p : Pid) (c : ChannelWord) : Prop :=
  ∃ (i : Fin 16) (r : Role), c.toNat = i.val ∧ m.Lists p i r

/-- Whoever begins to wait is in the registry, under the channel that it waits on. It did not wait
before, or its channel would be mixed with the old one. -/
theorem Enters.listed {k : Socket} (he : Enters k p m m') (hk : k.chan.toNat < 16)
    (hp : (m.processes.get p).status.wait = none) (hw : m'.Blocked p c) : m'.Listed p c := by
  obtain ⟨b, hregistry⟩ := he.registry
  have hc : k.chan.setWidth 32 = c := by
    obtain ⟨hw, _⟩ := hw
    rw [he.status] at hw
    simpa [Process.await, hp] using hw
  refine ⟨⟨k.chan.toNat, hk⟩, k.role, ?_, ⟨p, b⟩, ?_, rfl⟩
  · rw [← hc, BitVec.toNat_setWidth]
    exact Nat.mod_eq_of_lt (by omega)
  · rw [hregistry, Registry.get_setWaiter, if_pos rfl, Channel.waiter_setWaiter, if_pos rfl]

end Machine

theorem Aloof.listed (ha : Aloof m m') (h : m.Listed p c) : m'.Listed p c := by
  obtain ⟨i, r, hi, hp⟩ := h
  exact ⟨i, r, hi, hp.congr (by rw [ha.registry])⟩

/-! ## Operations -/

namespace Operation

/-- Whoever waits after an operation waited before, unless the operation ends so. -/
theorem Effect.abides (he : op.Effect h m m') (hl : m.table.Lineal)
    (hp : ∀ s, op.WaitsAt s → p ≠ s.owner) : Abides p m m' := by
  induction he with
  | move _ hv =>
    exact (Machine.relocate_clerical _ _ _ m).settled.calm.abides
      (Machine.relocate_retains hl.strung hv)
  | delete =>
    exact (Machine.discardCapability_clerical _ _ m).settled.calm.abides
      (Machine.discard_retains _ m)
  | derive =>
    exact (Machine.bear_clerical _ _ _ _ m).settled.calm.abides
      (.of_registry (Machine.bear_registry ..))
  | @revoke s =>
    exact (Machine.revokeCapability_settled h s m).calm.abides
      (Machine.revokeCapability_retains h hl s)
  | @load s r k =>
    obtain ⟨_, he⟩ := Machine.install_exec m s r k
    exact (Machine.install_clerical s r k m).settled.calm.abides (.of_registry (by rw [he]))
  | @unload s r =>
    obtain ⟨_, he⟩ := Machine.uninstall_exec m s r
    exact (Machine.uninstall_clerical s r m).settled.calm.abides (.of_registry (by rw [he]))
  | suspend =>
    apply Aloof.abides
    refine Action.Keeps.bind (Machine.modifyProcess_aloof _ ?_) (fun _ => Machine.note_aloof _) m
    exact fun _ _ hw => .inr (Process.wait_of_suspend hw)
  | resume =>
    apply Aloof.abides
    refine Action.Keeps.bind (Machine.modifyProcess_aloof _ ?_) (fun _ => Machine.note_aloof _) m
    exact fun _ _ => .inr
  | yield _ hx =>
    apply Aloof.abides
    rw [Processes.put_put]
    apply aloof_put
    intro c hw
    rw [(Process.acquire?_status hx).2] at hw
    cases hw
  | write =>
    apply Aloof.abides
    apply aloof_put
    exact fun _ => .inr
  -- the monitor makes operations of the same kinds for others
  | moveOf _ _ _ ih => exact ih (by rintro _ ⟨⟩)
  | loadOf _ _ ih => exact ih (by rintro _ ⟨⟩)
  | unloadOf _ _ ih => exact ih (by rintro _ ⟨⟩)
  | send hs => exact hs.abides hl.strung
  | reply _ ih => exact ih hp
  | receive h₁ => exact (Machine.awaitClient_enters ..).abides h₁.aloof.abides (hp _ rfl)
  | call hs => exact (Machine.awaitAnswer_enters ..).abides (hs.abides hl.strung) (hp _ rfl)
  | replyReceive _ _ _ _ ha =>
    exact (Machine.awaitClient_enters ..).abides (ha.abides hl.strung) (hp _ rfl)
  | exchange _ ih => exact ih hp
  | exchangeBack _ ih => exact ih hp

/-- Whoever makes an operation that ends so, and waits then, is in the registry. -/
theorem Effect.listed (he : op.Effect h m m') (hl : m.table.Strung)
    (hk : ∀ x k, m.table.get x = .socket k → k.chan.toNat < 16) (hs : op.WaitsAt s)
    (hidle : (m.processes.get s.owner).status.wait = none) (hw : m'.Blocked s.owner c) :
    m'.Listed s.owner c := by
  -- only three operations make their caller wait, and each of them registers it last
  induction he with
  | receive h₁ hsocket =>
    obtain rfl := hs
    refine (Machine.awaitClient_enters ..).listed (hk _ _ hsocket) ?_ hw
    rw [h₁.calm, hidle]
  | call hsends =>
    obtain rfl := hs
    exact (Machine.awaitAnswer_enters ..).listed (hk _ _ hsends.socket) (hsends.idle hl hidle) hw
  | replyReceive hsocket _ _ _ ha =>
    obtain rfl := hs
    exact (Machine.awaitClient_enters ..).listed (hk _ _ hsocket) (ha.idle hl hidle) hw
  | exchange _ ih => exact ih hs hw
  | exchangeBack _ ih => exact ih hs hw
  | _ => cases hs

end Operation

end SepKernel
