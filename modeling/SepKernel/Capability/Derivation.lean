import SepKernel.Capability.Basic

/-!
# Derivation

Which capability may be made from which, what making one does to its parent, and what a revocation
takes back. Range capabilities hand out their range from the mark upwards; memory gives either
subranges or protection regions, never both at a time; a channel range gives server sockets, and a
server socket gives clients. Regions and client sockets give nothing.

Deriving looks at the mark of the parent. Revoking does not: a capability covers whatever lies in
its whole range, since every part of it may have been handed out.
-/

namespace SepKernel

def Area.Within (a : Area) (base limit : Nat) : Prop :=
  base ≤ a.base ∧ a.limit ≤ limit

instance (a : Area) (base limit : Nat) : Decidable (a.Within base limit) :=
  inferInstanceAs (Decidable (_ ∧ _))

namespace Capability

/-! ## Making children -/

/-- Is this the form that a capability has when it is made? -/
def isFresh : Capability → Bool
  | null => false
  | time _ s | monitor s | channel s => decide s.Fresh
  | memory m => !m.locked && decide m.span.Fresh
  | pmp r => !r.loaded && r.slot == 0
  | socket _ => true

/-- May `child`, given that it is fresh, be carved out of `parent` as it stands? -/
def carves (parent child : Capability) : Bool :=
  match parent, child with
  | time h s, time h' s' => h == h' && decide (s.Carves s')
  | memory m, memory m' =>
    !m.locked && m.tag == m'.tag && decide (m.span.Carves m'.span) && m'.access.within m.access
  | memory m, pmp r =>
    decide (r.area.base < r.area.limit) && decide (r.area.Within m.markAddress m.limitAddress)
      && r.access.within m.access
  | monitor s, monitor s' => decide (s.Carves s')
  | channel s, channel s' => decide (s.Carves s')
  | channel s, socket c => c.isServer && decide (s.Free c.chan)
  | socket c, socket c' =>
    c.isServer && !c'.isServer && c.chan == c'.chan && c.mode == c'.mode
      && c.permission == c'.permission
  | _, _ => false

/-- May `child` be derived from `parent` as it stands? -/
def mayDerive (parent child : Capability) : Bool :=
  child.isFresh && parent.carves child

/-- What is left to `parent` once `child` has been derived from it. -/
def afterDeriving (parent child : Capability) : Capability :=
  match parent, child with
  | time h s, time _ s' => time h { s with mark := s'.limit }
  | memory m, memory m' => memory { m with span := { m.span with mark := m'.span.limit } }
  | memory m, pmp _ => memory { m with locked := true }
  | monitor s, monitor s' => monitor { s with mark := s'.limit }
  | channel s, channel s' => channel { s with mark := s'.limit }
  | channel s, socket c => channel { s with mark := c.chan + 1 }
  | _, _ => parent

/-! ## Taking children back -/

/-- Does a revocation of `parent` reach `child`? -/
def mayRevoke (parent child : Capability) : Bool :=
  match parent, child with
  | time h s, time h' s' => h == h' && decide (s.Covers s')
  | memory m, memory m' => m.tag == m'.tag && decide (m.span.Covers m'.span)
  | memory m, pmp r => decide (r.area.Within m.baseAddress m.limitAddress)
  | monitor s, monitor s' => decide (s.Covers s')
  | channel s, channel s' => decide (s.Covers s')
  | channel s, socket c => decide (s.Contains c.chan)
  | socket c, socket c' => c.isServer && !c'.isServer && c.chan == c'.chan
  | _, _ => false

/-- What `parent` has again once `child` has been taken back. A range is lowered to the mark of the
child, below which grandchildren may remain; a channel range is lowered only by servers. -/
def afterReclaiming (parent child : Capability) : Capability :=
  match parent, child with
  | time h s, time _ s' => time h (s.lower s'.mark)
  | memory m, memory m' => memory { m with span := m.span.lower m'.span.mark, locked := m'.locked }
  | monitor s, monitor s' => monitor (s.lower s'.mark)
  | channel s, channel s' => channel (s.lower s'.mark)
  | channel s, socket c => if c.isServer then channel (s.lower c.chan) else parent
  | _, _ => parent

/-- The capability with everything taken back. -/
def restored : Capability → Capability
  | time h s => time h s.reset
  | memory m => memory { m with span := m.span.reset, locked := false }
  | monitor s => monitor s.reset
  | channel s => channel s.reset
  | c => c

theorem isFresh_of_mayDerive {parent child : Capability} (h : parent.mayDerive child = true) :
    child.isFresh = true := by
  simp only [mayDerive, Bool.and_eq_true] at h
  exact h.1

end Capability

end SepKernel
