import SepKernel.Proofs.Machine.Revoked

/-!
# The mark of a range of channels

A range of channels hands out servers from its free part, and a server is to be the only one of its
channel. So no channel in the free part of a range may have a socket left, be it a server or one of
the clients of an earlier server.

This holds as long as every revocation of a range of channels goes through to its end. A revocation
takes back a server before the clients of the server, and lowers the mark with it. One that is
stopped in between leaves the clients of a channel that is free again, from which another server can
then be derived. That is all that can go wrong: such a channel stands at the mark of its range, and
all sockets left of it are clients.
-/

namespace SepKernel

open Relation (ReflTransGen)

variable {m m' : Machine} {roots : List Capability} {t t' : Table} {s x y source target : Slot}
  {ds : List Slot} {c d p : Capability} {n : BitVec 16}

/-! ## Sockets and ranges in one line -/

namespace Capability

def Ranges : Capability → BitVec 16 → Prop
  | channel s, n => s.Contains n
  | _, _ => False

def Concerns : Capability → BitVec 16 → Prop
  | channel s, n => s.Contains n
  | socket k, n => k.chan = n
  | _, _ => False

/-- A child is a range with a channel only if its parent is one. -/
theorem heritable_ranges (n : BitVec 16) : Heritable (·.Ranges n) where
  ne_null := by rintro _ h rfl; exact h
  outline := by intro c; cases c <;> rfl
  parent := by
    intro p c hd hp h
    cases hd with
    | channel hc => exact hc.contains (hp _ rfl) h
    | _ => exact h.elim

/-- Whatever concerns a channel was derived from something that concerns it. -/
theorem heritable_concerns (n : BitVec 16) : Heritable (·.Concerns n) where
  ne_null := by rintro _ h rfl; exact h
  outline := by intro c; cases c <;> rfl
  parent := by
    intro p c hd hp h
    -- a part of a range has only channels of the range
    cases hd with
    | channel hc => exact hc.contains (hp _ rfl) h
    | server _ hf =>
      have hn : _ = n := h
      exact hn ▸ (hp _ rfl).contains hf
    | client _ _ hk =>
      have hn : _ = n := h
      exact hk.trans hn
    | _ => exact h.elim

end Capability

/-- Booted ranges of channels are disjoint, and booted sockets belong to none of them. -/
structure ChannelsApart (roots : List Capability) : Prop where
  ranges : roots.Pairwise fun c d =>
    ∀ s t, c = .channel s → d = .channel t → ∀ n, s.Contains n → ¬ t.Contains n
  sockets : ∀ s k, .channel s ∈ roots → .socket k ∈ roots → ¬ s.Contains k.chan

/-- In a list of roots, the range of a channel has it for itself. -/
theorem ChannelsApart.pairwise (h : ChannelsApart roots) (n : BitVec 16) :
    roots.Pairwise fun c d =>
      (c.Ranges n → ¬ d.Concerns n) ∧ (d.Ranges n → ¬ c.Concerns n) := by
  refine h.ranges.imp_of_mem ?_
  -- a server among the roots lies in no range of them
  have hsocket : ∀ s k, .channel s ∈ roots → .socket k ∈ roots → s.Contains n → k.chan ≠ n := by
    rintro s k hs hk hn rfl
    exact h.sockets s k hs hk hn
  intro c d hc hd hcd
  constructor
  · intro hcn hdn
    cases c with
    | channel s =>
      cases d with
      | channel t => exact hcd s t rfl rfl n hcn hdn
      | socket k => exact hsocket s k hc hd hcn hdn
      | _ => exact hdn
    | _ => exact hcn
  · intro hdn hcn
    cases d with
    | channel t =>
      cases c with
      | channel s => exact hcd s t rfl rfl n hcn hdn
      | socket k => exact hsocket t k hd hc hdn hcn
      | _ => exact hcn
    | _ => exact hdn

/-- What is left of a channel that is free in some range are clients, and the channel stands at the
mark of the range. -/
theorem Reachable.client_at_mark (h : Reachable roots m) (hroots : ChannelsApart roots) {r : Span}
    {k : Socket} (hx : m.table.get x = .channel r) (hy : m.table.get y = .socket k)
    (hf : r.Free k.chan) : m.table.Before x y ∧ k.isServer = false ∧ k.chan = r.mark := by
  have hl := h.lineal
  have hg := h.gathered (Capability.heritable_ranges k.chan)
    (Capability.heritable_concerns k.chan) (hroots.pairwise k.chan)
  have hxr : (m.table.get x).Ranges k.chan := by
    rw [hx]
    exact Span.Ordered.contains (hl.sound x r (by rw [hx]; rfl)) hf
  have hyc : (m.table.get y).Concerns k.chan := by rw [hy]; rfl
  -- the two stand in one line, where the range comes first
  rcases hg x y hxr hyc with he | hb | hb
  · rw [he, hy] at hx
    cases hx
  · have hp := hl.precedes x y hb
    rw [hx, hy] at hp
    refine ⟨hb, ?_⟩
    cases hp with
    | ends _ hle hlt =>
      have hmark : k.chan = r.mark := BitVec.le_antisymm hle hf.1
      refine ⟨?_, hmark⟩
      rw [Bool.eq_false_iff]
      intro hserver
      exact absurd (hlt hserver) (by rw [hmark]; exact BitVec.lt_irrefl _)
  · have hp := hl.precedes y x hb
    rw [hx, hy] at hp
    cases hp with
    | range hle => exact absurd (Nat.lt_of_lt_of_le hf.2 hle) (Nat.lt_irrefl _)

/-! ## Marks that bound sockets -/

/-- Is the mark of a range above the channel of a socket? -/
def Capability.Bounds (c d : Capability) : Prop :=
  ∀ s k, c = .channel s → d = .socket k → k.chan < s.mark

namespace Capability

/-- Only the outline of the second capability matters. -/
theorem Bounds.congr_right (h : c.Bounds d) (ho : d.outline = p.outline) : c.Bounds p := by
  rintro s k hs rfl
  cases d <;> cases ho
  exact h s k hs rfl

/-- What has the outline of a range of channels is a range of channels. -/
theorem channel_of_outline {s : Span} (h : c.outline = (channel s).outline) :
    ∃ r, c = channel r := by
  cases c with
  | channel r => exact ⟨r, rfl⟩
  | _ => cases h

/-- Where the first does not reach the second, the order of the line puts the mark above. -/
theorem Precedes.bounds (h : c.Precedes d) (hc : c.Sound) (hr : c.mayRevoke d = false) :
    c.Bounds d := by
  rintro s k rfl rfl
  have hs := hc s rfl
  cases h with
  | ends hlt =>
    -- it would be revoked if it were within the range
    have hn : ¬ s.Contains k.chan := by
      intro hk
      rw [Capability.mayRevoke_end.2 hk] at hr
      cases hr
    simp only [Span.Contains, Span.Ordered] at hn hs
    bv_omega

/-- A parent raises its mark above the child. -/
theorem Derivation.bounds (hd : Derivation p c) : (p.afterDeriving c).Bounds c := by
  rintro s k hs rfl
  cases hd with
  | server _ hf =>
    cases hs
    have := hf.2
    show k.chan < k.chan + 1
    bv_omega
  | _ => cases hs

/-- A parent keeps its mark above what it was above. -/
theorem Derivation.bounds_of_bounds (hd : Derivation p c) (h : p.Bounds d) :
    (p.afterDeriving c).Bounds d := by
  rintro s k hs rfl
  cases hd with
  | channel hc hf =>
    cases hs
    have := h _ k rfl rfl
    have := hc.1
    have := hf.2
    show k.chan < _
    bv_omega
  | server _ hf =>
    cases hs
    have := h _ k rfl rfl
    have := hf.1
    have := hf.2
    -- a server raises the mark by one
    show k.chan < _ + 1
    bv_omega
  | _ => cases hs

/-- What is above a parent is above its child. -/
theorem Bounds.derive (h : d.Bounds p) (hd : Derivation p c) (hp : d.Precedes c) :
    d.Bounds c := by
  rintro s k rfl rfl
  cases hd with
  | server hk _ => cases hp with | ends _ _ hlt => exact hlt hk
  | client _ _ hk => exact hk ▸ h s _ rfl rfl

/-- A child has its mark above what its parent had it above. -/
theorem Derivation.child_bounds (hd : Derivation p c) (h : p.Bounds d) : c.Bounds d := by
  rintro s k rfl rfl
  cases hd with
  | channel hc hf =>
    have := h _ k rfl rfl
    have := hc.1
    have := hf.1
    bv_omega

end Capability

namespace Table

/-- Does every range have its mark above the sockets that stand after it in its line? -/
def Bounded (t : Table) : Prop :=
  ∀ x y, t.Before x y → (t.get x).Bounds (t.get y)

/-- A capability may be replaced if the new one still bounds all that comes after it. -/
theorem Bounded.set (h : t.Bounded) (ho : (t.get s).outline = c.outline)
    (hc : ∀ y, t.Before s y → c.Bounds (t.get y)) : (t.set s c).Bounded := by
  intro x y hb
  rw [before_set] at hb
  refine Capability.Bounds.congr_right ?_ (outline_set ho y).symm
  rw [get_set]
  split
  · next hsx => exact hc y (hsx ▸ hb)
  · exact h x y hb

/-- Fewer pairs need to be bounded. -/
theorem Bounded.unlink (h : t.Bounded) (hs : t.Strung) (s : Slot) : (t.unlink s).Bounded := by
  intro x y hb
  obtain ⟨hb, hx, hy⟩ := hs.before_unlink.1 hb
  rw [get_unlink, get_unlink, if_neg hx.symm, if_neg hy.symm]
  exact h x y hb

/-- The pairs after a move are the exchanged pairs of before. -/
theorem Bounded.relink (h : t.Bounded) (hl : t.Strung) (hs : t.get source ≠ .null)
    (ht : t.get target = .null) (hc : (t.get source).Reseats c) :
    (t.relink source target c).Bounded := by
  intro x y hb
  have hbounds := h _ _ ((hl.before_relink hs ht c).1 hb)
  refine Capability.Bounds.congr_right ?_ (hl.reseats_relink ht hc y).outline_eq
  rintro r k hr hk
  have hx := hl.reseats_relink ht hc x -- a range is never reseated
  rw [hr] at hx
  generalize t.get (Equiv.swap source target x) = c₀ at hx hbounds
  cases hx with
  | same => exact hbounds r k rfl hk

/-- A derivation keeps the sockets below the mark: a new server is at the mark, which rises past it,
and what was below stays so. -/
theorem Bounded.derive (h : t.Bounded) (hl : t.Lineal) (ht : t.get target = .null)
    (hd : (t.get source).Derivation c) : (t.derive source target c).Bounded := by
  intro x y hb
  have hget := hl.get_derive ht hd
  have hts : target ≠ source := (ne_of_vacant hd.ne_null.1 ht).symm
  have hprec := hl.precedes_derive ht hd hb
  rcases (hl.before_derive ht hd).1 hb with hxy | ⟨rfl, hxs⟩ | ⟨rfl, hsy⟩
  · -- an old pair, of which the first may be the parent
    have hx : target ≠ x := (ne_of_vacant (hl.strung.occupied_left hxy) ht).symm
    have hy : y ≠ target := ne_of_vacant (hl.strung.occupied_right hxy) ht
    refine Capability.Bounds.congr_right ?_ (hl.outline_derive ht hd hy).symm
    rw [hget x, if_neg hx]
    split
    · next hsx => exact hd.bounds_of_bounds (hsx ▸ h x y hxy)
    · exact h x y hxy
  · -- the child after its parent, or after something before that
    rw [hget y, if_pos rfl] at hprec ⊢
    rcases hxs with rfl | hxs
    · rw [hget x, if_neg hts, if_pos rfl]
      exact hd.bounds
    · have hx : y ≠ x := (ne_of_vacant (hl.strung.occupied_left hxs) ht).symm
      have hsx : source ≠ x := fun he => hl.strung.not_before_self x (he ▸ hxs)
      rw [hget x, if_neg hx, if_neg hsx] at hprec ⊢
      exact (h x source hxs).derive hd hprec
  · -- the child before something after its parent
    have hy : y ≠ x := ne_of_vacant (hl.strung.occupied_right hsy) ht
    refine Capability.Bounds.congr_right ?_ (hl.outline_derive ht hd hy).symm
    rw [hget x, if_pos rfl]
    exact hd.child_bounds (h source y hsy)

/-- Once nothing that could be revoked is left, no socket is in the range, so that the mark may fall
to its base. -/
theorem Bounded.restore (h : t.Bounded) (hl : t.Lineal)
    (hr : ∀ y, t.Before s y → (t.get s).mayRevoke (t.get y) = false) : (t.restore s).Bounded := by
  refine h.set (Capability.outline_restored _).symm ?_
  intro y hy
  have hp := (hl.precedes s y hy).restore (hr y hy) (hl.sound s)
  refine hp.bounds (hl.sound s).restored ?_
  rw [Capability.mayRevoke_congr (Capability.outline_restored _) rfl, hr y hy]

end Table

/-! ## Changes -/

/-- Deeds keep the sockets below the mark. Only deriving changes a mark of a channel. -/
theorem Deed.bounded (hd : Deed m m') (hl : m.table.Lineal) (h : m.table.Bounded) :
    m'.table.Bounded := by
  -- only a derivation adds a pair or changes a mark
  cases hd with
  | move hs hv =>
    rw [Machine.relocate_table]
    exact h.relink hl.strung hs hv (Machine.reseats_arriving ..)
  | delete =>
    rw [Machine.discard_table]
    exact h.unlink hl.strung _
  | derive hd hv =>
    rw [Machine.bear_table]
    exact h.derive hl hv hd
  | @load s r k hs =>
    obtain ⟨_, he⟩ := Machine.install_exec m s r k
    rw [he]
    refine h.set (by rw [hs]; rfl) ?_
    rintro _ _ _ _ ⟨⟩
  | @unload s r hs =>
    obtain ⟨_, he⟩ := Machine.uninstall_exec m s r
    rw [he]
    refine h.set (by rw [hs]; rfl) ?_
    rintro _ _ _ _ ⟨⟩

/-- A run of a revocation leaves the marks above the sockets, if a range that is revoked reaches
nothing more in the end. -/
theorem Takes.bounded (ht : Takes s ds m m') (hl : m.table.Lineal) (h : m.table.Bounded)
    (hd : ∀ r, m.table.get s = .channel r → m'.table.descendants s = []) : m'.table.Bounded := by
  have hl' := ht.lineal hl
  have hself := ht.outline_self hl
  intro x y hb
  by_cases hxs : x = s
  · subst hxs
    rintro r k hr hk
    -- a range that was revoked has lost what it reached
    rw [hr] at hself
    obtain ⟨r₀, hr₀⟩ := Capability.channel_of_outline hself.symm
    have hnot : (m'.table.get x).mayRevoke (m'.table.get y) = false := by
      rw [Bool.eq_false_iff]
      intro hrev
      have hmem := hl'.mem_descendants.2 ⟨hb, hrev⟩
      rw [hd r₀ hr₀] at hmem
      cases hmem
    exact (hl'.precedes x y hb).bounds (hl'.sound x) hnot r k hr hk
  · have hx := hl'.strung.occupied_left hb
    have hxd : x ∉ ds := by
      intro hmem
      rw [ht.get hxs, if_pos hmem] at hx
      exact hx rfl
    have hbefore : m.table.Before x y := by
      rw [Table.Before, ht.following hl hxd] at hb
      exact (List.mem_filter.1 hb).1
    rw [ht.get hxs, if_neg hxd]
    refine Capability.Bounds.congr_right (h x y hbefore) ?_
    by_cases hys : y = s
    · rw [hys, hself]
    · have hy := hl'.strung.occupied_right hb
      rw [ht.get hys] at hy ⊢
      split at hy
      · exact absurd rfl hy
      · next hyd => rw [if_neg hyd]

/-! ## Runs without a revocation that stops halfway -/

/-- A revocation of a range of channels does not stop halfway, with something taken back and
something left. -/
def Thorough (m : Machine) (op : Operation) (m' : Machine) : Prop :=
  ∀ s r, op = .capRevoke s → m.table.get s = .channel r →
    m'.table = m.table ∨ m'.table.descendants s = []

theorem acrossWork_bounded :
    AcrossWork (Preserves fun m => m.table.Lineal ∧ m.table.Bounded) where
  hushed hh := hh.toQuiet.preserves (P := fun t => t.Lineal ∧ t.Bounded)
  deed hd hP := ⟨(Change.deed hd).lineal hP.1, hd.bounded hP.1 hP.2⟩

/-- A revocation leaves the marks above the sockets, unless it revokes a range and stops halfway. -/
theorem Machine.revokeCapability_bounded (h : Hart) (hl : m.table.Lineal) (hb : m.table.Bounded)
    (hthorough : ∀ r, m.table.get s = .channel r →
      ((revokeCapability h s).exec m).2.table = m.table ∨
        ((revokeCapability h s).exec m).2.table.descendants s = []) :
    ((revokeCapability h s).exec m).2.table.Bounded := by
  rcases revokeCapability_cases hl h s with ⟨_, he⟩ | ⟨hs, taken, rest, m₁, hd, ht, ⟨rfl, he⟩ | he⟩
  · rw [he]
    exact hb
  · rw [he, (restore_restored s m₁).table]
    -- it came to an end: nothing is left behind
    rw [List.append_nil] at hd
    have hall : m₁.table.descendants s = [] := ht.descendants hl (by rw [hd, List.append_nil])
    exact (ht.bounded hl hb fun _ _ => hall).restore (ht.lineal hl) (ht.ready_restore hl hs hd).2
  · have htable : ((revokeCapability h s).exec m).2.table = m₁.table := by rw [he]; rfl
    rw [htable] at hthorough ⊢
    -- it was interrupted, before it changed anything or with nothing left
    by_cases hsame : m₁.table = m.table
    · rwa [hsame]
    · exact ht.bounded hl hb fun r hr => (hthorough r hr).resolve_left hsame

/-- In runs without a revocation that stopped with something left, all sockets of a range are below
its mark. -/
theorem ReachableBy.bounded (h : ReachableBy Thorough roots m) : m.table.Bounded := by
  refine h.invariant (P := fun m => m.table.Bounded) ?_ ?_ ?_
  · intro m hb x y hxy
    -- after booting there is nothing in a line
    rw [Table.Before, Table.following_of_next_none ((boot_unlinked hb).1 x).1] at hxy
    cases hxy
  · intro m m' hh hP
    rwa [hh.table]
  · intro m m₁ m' h op hl hb h₁ h₂ hk
    by_cases hop : ∃ s, op = .capRevoke s
    · obtain ⟨s, rfl⟩ := hop
      have hexec : ((Operation.perform h (.capRevoke s)).exec m₁).2 =
          ((Machine.revokeCapability h s).exec m₁).2 := by
        rw [Operation.perform, bind_pure_comp, Attempt.exec_map]
      rw [hexec] at h₂ ⊢
      refine Machine.revokeCapability_bounded h hl hb ?_
      intro r hr
      rw [← h₂.table, h₁.table]
      exact hk s r rfl (by rwa [← h₁.table])
    · have hkeeps := op.perform_keeps acrossWork_bounded h (fun s hs => absurd ⟨s, hs⟩ hop) <| by
        intro s hs m
        refine hs.perform_at (Machine.acrossWait_of_shifts acrossWork_bounded.shifts ?_ _ _ _) h
        intro k p b m
        exact (Machine.await_quiet k p b m).preserves (P := fun t => t.Lineal ∧ t.Bounded)
      exact (hkeeps m₁ ⟨hl, hb⟩).2

/-- As long as no revocation of a range of channels stops halfway, no channel in the free part of a
range has a socket left, and no second server of a channel can be derived while it has one. -/
theorem not_free_of_socket (hroots : ChannelsApart roots) (h : ReachableBy Thorough roots m) :
    (∀ x y r k, m.table.get x = .channel r → m.table.get y = .socket k → ¬ r.Free k.chan) ∧
      ∀ x y k k', m.table.get y = .socket k → k'.isServer = true → k'.chan = k.chan →
        (m.table.get x).mayDerive (.socket k') = false := by
  have hfree : ∀ x y r k, m.table.get x = .channel r → m.table.get y = .socket k →
      ¬ r.Free k.chan := by
    intro x y r k hx hy hf
    obtain ⟨hb, _, _⟩ := h.reachable.client_at_mark hroots hx hy hf
    have hlt : k.chan < r.mark := h.bounded x y hb r k hx hy
    exact absurd (Nat.lt_of_lt_of_le hlt hf.1) (Nat.lt_irrefl _)
  refine ⟨hfree, ?_⟩
  intro x y k k' hy hserver hch
  rw [Bool.eq_false_iff]
  intro hd
  -- only the range of its channel gives a server
  generalize hx : m.table.get x = p at hd
  cases Capability.mayDerive_iff.1 hd with
  | server _ hf => exact hfree x y _ k hx hy (hch ▸ hf)
  | client _ hclient =>
    rw [hserver] at hclient
    cases hclient

/-- A server that was deleted leaves a client behind, and no other server can be had. -/
theorem not_free_of_socket_orphaned : ∃ m,
    ChannelsApart [.wholeTime 0 0 64, .wholeChannel 0 16] ∧
      ReachableBy Thorough [.wholeTime 0 0 64, .wholeChannel 0 16] m ∧
      m.table.get ⟨0, 2⟩ = .null ∧ m.table.get ⟨1, 0⟩ = .socket ⟨3, .yield, .ofBits 15, 5⟩ ∧
      ∀ x, (m.table.get x).mayDerive (.socket ⟨3, .yield, .ofBits 15, 0⟩) = false := by
  have hroots : ChannelsApart [.wholeTime 0 0 64, .wholeChannel 0 16] := by
    refine ⟨List.pairwise_pair.2 ?_, ?_⟩
    · rintro s t ⟨⟩
    · rintro s k _ hk
      simp [Capability.wholeTime, Capability.wholeChannel] at hk
  obtain ⟨m, he⟩ : ∃ m, m = Machine.afterAll [.wholeTime 0 0 64, .wholeChannel 0 16]
    [(0, .capDerive ⟨0, 1⟩ ⟨0, 2⟩ (.socket ⟨3, .yield, .ofBits 15, 0⟩)),
      (0, .capDerive ⟨0, 2⟩ ⟨1, 0⟩ (.socket ⟨3, .yield, .ofBits 15, 5⟩)),
      (0, .capDelete ⟨0, 2⟩)] := ⟨_, rfl⟩
  -- the server is deleted, and its client stays
  have hm : ReachableBy Thorough [.wholeTime 0 0 64, .wholeChannel 0 16] m := by
    rw [he]
    refine .afterAll rfl _ ?_
    intro op hop m m' s r hs
    simp only [List.mem_cons, List.not_mem_nil, or_false] at hop
    rcases hop with rfl | rfl | rfl <;> cases hs
  have hget : m.table.get ⟨1, 0⟩ = .socket ⟨3, .yield, .ofBits 15, 5⟩ := by rw [he]; decide +kernel
  refine ⟨m, hroots, hm, by rw [he]; decide +kernel, hget, ?_⟩
  intro x
  exact (not_free_of_socket hroots hm).2 x _ _ _ hget rfl rfl

/-- A revocation that stops right after it took a server back leaves a client of the channel, which
is free again, and another server can be derived. -/
theorem free_beside_client : ∃ m r k,
    ChannelsApart [.wholeTime 0 0 64, .wholeChannel 0 16] ∧
      Reachable [.wholeTime 0 0 64, .wholeChannel 0 16] m ∧
      m.table.get ⟨0, 1⟩ = .channel r ∧ m.table.get ⟨1, 0⟩ = .socket k ∧ r.Free k.chan ∧
      (m.table.get ⟨0, 1⟩).mayDerive (.socket { k with tag := 0 }) = true := by
  have hroots : ChannelsApart [.wholeTime 0 0 64, .wholeChannel 0 16] := by
    refine ⟨List.pairwise_pair.2 ?_, ?_⟩
    · rintro s t ⟨⟩
    · rintro s k _ hk
      simp [Capability.wholeTime, Capability.wholeChannel] at hk
  obtain ⟨m₀, h₀⟩ : ∃ m₀, m₀ = Machine.afterAll [.wholeTime 0 0 64, .wholeChannel 0 16]
    [(0, .capDerive ⟨0, 1⟩ ⟨0, 2⟩ (.socket ⟨3, .yield, .ofBits 15, 0⟩)),
      (0, .capDerive ⟨0, 2⟩ ⟨1, 0⟩ (.socket ⟨3, .yield, .ofBits 15, 5⟩))] := ⟨_, rfl⟩
  have hm₀ : Reachable [.wholeTime 0 0 64, .wholeChannel 0 16] m₀ := h₀ ▸ .afterAll rfl _
  -- the deadline of the hart is reached when it asks for the first time
  obtain ⟨m, he⟩ : ∃ m, m = ((Operation.run 0 (.capRevoke ⟨0, 1⟩)).exec
    { m₀ with board := m₀.board.setDeadline 0 0, lockHolder := none }).2 := ⟨_, rfl⟩
  have hm : Reachable [.wholeTime 0 0 64, .wholeChannel 0 16] m :=
    he ▸ (hm₀.step (.board _ none)).step (.operation 0 _)
  refine ⟨m, ⟨0, 3, 16⟩, ⟨3, .yield, .ofBits 15, 5⟩, hroots, hm, ?_, ?_, by decide, ?_⟩
  · rw [he, h₀]; decide +kernel
  · rw [he, h₀]; decide +kernel
  · rw [he, h₀]; decide +kernel

end SepKernel
