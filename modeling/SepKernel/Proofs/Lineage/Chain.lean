import Mathlib.Data.List.Chain
import SepKernel.Proofs.Lineage.Reach

/-!
# Chains of derivations

What a capability reaches does not depend on the use that was made of it, or of what it reaches:
which part of a range was handed out, whether memory is locked, and where a region is loaded. A
parent reaches its child, and reaching is transitive. So a capability reaches everything that a
chain of derivations leads to, whatever becomes of those in between, for as long as they are held.
-/

namespace SepKernel

/-- What changes of a capability while it is held: the part of a range that was handed out, the
lock of memory, and the protection register in which a region is loaded. -/
structure Usage where
  mark : BitVec 16
  locked : Bool
  loaded : Bool
  slot : BitVec 8

namespace Capability

variable {p c : Capability} {l : List Capability}

/-- A capability of which another use has been made. -/
def withUsage (c : Capability) (u : Usage) : Capability :=
  match c with
  | time h s => time h { s with mark := u.mark }
  | memory m => memory { m with span := { m.span with mark := u.mark }, locked := u.locked }
  | pmp r => pmp { r with loaded := u.loaded, slot := u.slot }
  | monitor s => monitor { s with mark := u.mark }
  | channel s => channel { s with mark := u.mark }
  | c => c

@[simp] theorem outline_withUsage (c : Capability) (u : Usage) :
    (c.withUsage u).outline = c.outline := by
  cases c <;> rfl

/-- How a capability is used is nothing that revoking looks at. -/
theorem mayRevoke_withUsage (p c : Capability) (u v : Usage) :
    (p.withUsage u).mayRevoke (c.withUsage v) = p.mayRevoke c :=
  mayRevoke_congr (outline_withUsage p u) (outline_withUsage c v)

/-- Could `c` be derived from `p`, at a time when some other use had been made of `p`? Another use
may have been made of `c` since then, too. -/
def Begets (p c : Capability) : Prop :=
  ∃ u v, (p.withUsage u).Sound ∧ (p.withUsage u).mayDerive (c.withUsage v) = true

theorem mayRevoke_of_mayDerive (hp : p.Sound) (hd : p.mayDerive c = true) :
    p.mayRevoke c = true :=
  (mayDerive_iff.1 hd).mayRevoke hp

/-- Whoever made it may take it back. -/
theorem Begets.mayRevoke (h : p.Begets c) : p.mayRevoke c = true := by
  obtain ⟨u, v, hp, hd⟩ := h
  rw [← mayRevoke_withUsage p c u v]
  exact mayRevoke_of_mayDerive hp hd

instance : @Trans Capability Capability Capability (fun x y => x.mayRevoke y = true)
    (fun x y => x.mayRevoke y = true) (fun x y => x.mayRevoke y = true) where
  trans := mayRevoke_trans

/-- Everyone in a chain of derivations reaches everyone that comes after. -/
theorem mayRevoke_of_isChain (hl : l.IsChain Begets) :
    l.Pairwise fun x y => x.mayRevoke y = true :=
  (hl.imp fun _ _ => Begets.mayRevoke).pairwise

/-- A revocation reaches what can be derived, and what is reached by what it reaches; it looks
neither at marks nor at locks, and not at where a region is loaded. So in a chain of derivations
everyone reaches everyone that comes after, whatever use is made of any of them. -/
theorem mayRevoke_closed :
    (∀ p c : Capability, p.Sound → p.mayDerive c = true → p.mayRevoke c = true) ∧
      (∀ x y z : Capability, x.mayRevoke y = true → y.mayRevoke z = true →
        x.mayRevoke z = true) ∧
      (∀ (p c : Capability) (u v : Usage),
        (p.withUsage u).mayRevoke (c.withUsage v) = p.mayRevoke c) ∧
      ∀ l : List Capability, l.IsChain Begets →
        l.Pairwise fun x y => ∀ u v, (x.withUsage u).mayRevoke (y.withUsage v) = true := by
  refine ⟨fun _ _ => mayRevoke_of_mayDerive, fun _ _ _ => mayRevoke_trans, mayRevoke_withUsage, ?_⟩
  intro l hl
  refine (mayRevoke_of_isChain hl).imp fun hxy u v => ?_
  rw [mayRevoke_withUsage, hxy]

/-- Some memory is handed on in part, and a region is carved out of the part. The memory reaches the
region, also once all of it was handed out and the region was loaded. -/
theorem mayRevoke_closed_region :
    let whole := Capability.memory ⟨16, ⟨true, true, true⟩, false, ⟨0, 8, 32⟩⟩
    let part := Capability.memory ⟨16, ⟨true, true, false⟩, false, ⟨8, 8, 16⟩⟩
    let region := Capability.pmp ⟨0x200021ff, ⟨true, true, false⟩, false, 0⟩
    whole.mayDerive part = true ∧ part.mayDerive region = true ∧ whole.mayRevoke part = true ∧
      whole.mayRevoke region = true ∧
      (Capability.memory ⟨16, ⟨true, true, true⟩, false, ⟨0, 32, 32⟩⟩).mayRevoke
        (.pmp ⟨0x200021ff, ⟨true, true, false⟩, true, 3⟩) = true := by
  intro whole part region
  have hwhole : whole.Sound := by rintro _ ⟨⟩; decide
  have hpart : part.Sound := by rintro _ ⟨⟩; decide
  have hd : whole.mayDerive part = true := by decide
  have hd' : part.mayDerive region = true := by decide +kernel
  have hr := mayRevoke_closed.1 whole part hwhole hd
  have hr' := mayRevoke_closed.2.1 whole part region hr (mayRevoke_closed.1 part region hpart hd')
  -- each was derived when the other had the mark that it has above
  have hchain : [whole, part, region].IsChain Begets := by
    have hb : whole.Begets part := ⟨⟨8, false, false, 0⟩, ⟨8, false, false, 0⟩, hwhole, hd⟩
    have hb' : part.Begets region := ⟨⟨8, false, false, 0⟩, ⟨8, false, false, 0⟩, hpart, hd'⟩
    exact .cons_cons hb (.cons_cons hb' (.singleton _))
  have hpair := mayRevoke_closed.2.2.2 _ hchain
  refine ⟨hd, hd', hr, hr', ?_⟩
  exact (List.pairwise_cons.1 hpair).1 region (by simp) ⟨32, false, false, 0⟩ ⟨32, false, true, 3⟩

end Capability
end SepKernel
