import SepKernel.Config

/-!
# Spans with a free boundary

Time, memory, monitor and channel capabilities all name a half-open range of numbers of which a
lower part has been handed out to children. `[base, mark)` is handed out, `[mark, limit)` is still
free.
-/

namespace SepKernel

/-- A half-open range `[base, limit)` whose part below `mark` has been handed out. -/
structure Span where
  base : BitVec 16
  mark : BitVec 16
  limit : BitVec 16
  deriving DecidableEq, Repr

namespace Span

/-- A span of which nothing has been handed out. -/
def whole (base limit : BitVec 16) : Span :=
  ⟨base, base, limit⟩

def Ordered (s : Span) : Prop :=
  s.base ≤ s.mark ∧ s.mark ≤ s.limit

instance (s : Span) : Decidable s.Ordered := inferInstanceAs (Decidable (_ ∧ _))

/-- Nothing has been handed out, and there is something to hand out. -/
def Fresh (s : Span) : Prop :=
  s.base = s.mark ∧ s.base < s.limit

instance (s : Span) : Decidable s.Fresh := inferInstanceAs (Decidable (_ ∧ _))

/-- Does `t` begin where the free part of `s` begins, and end no later? -/
def Carves (s t : Span) : Prop :=
  t.base = s.mark ∧ t.limit ≤ s.limit

instance (s t : Span) : Decidable (s.Carves t) := inferInstanceAs (Decidable (_ ∧ _))

/-- Does `t` lie within `s`, whatever has been handed out of either? -/
def Covers (s t : Span) : Prop :=
  s.base ≤ t.base ∧ t.limit ≤ s.limit

instance (s t : Span) : Decidable (s.Covers t) := inferInstanceAs (Decidable (_ ∧ _))

def Contains (s : Span) (n : BitVec 16) : Prop :=
  s.base ≤ n ∧ n < s.limit

instance (s : Span) (n : BitVec 16) : Decidable (s.Contains n) :=
  inferInstanceAs (Decidable (_ ∧ _))

def Free (s : Span) (n : BitVec 16) : Prop :=
  s.mark ≤ n ∧ n < s.limit

instance (s : Span) (n : BitVec 16) : Decidable (s.Free n) :=
  inferInstanceAs (Decidable (_ ∧ _))

/-- Take everything below `n` back, if the mark stands above it. -/
def lower (s : Span) (n : BitVec 16) : Span :=
  if n < s.mark then { s with mark := n } else s

def reset (s : Span) : Span :=
  { s with mark := s.base }

theorem Fresh.ordered {s : Span} (h : s.Fresh) : s.Ordered := by
  unfold Fresh at h; unfold Ordered; bv_omega

theorem Carves.covers {s t : Span} (h : s.Carves t) (hs : s.Ordered) : s.Covers t := by
  unfold Carves at h; unfold Ordered at hs; unfold Covers; bv_omega

theorem Covers.trans {s t u : Span} (h : s.Covers t) (h' : t.Covers u) : s.Covers u := by
  unfold Covers at *; bv_omega

end Span

end SepKernel
