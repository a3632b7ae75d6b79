import Mathlib.Order.Defs.Unbundled
import SepKernel.Machine.Calls

/-!
# Running actions and attempts

What an action or an attempt makes of a machine, by equations for the ways in which they are put
together. A relation between machines is *kept* by an action if it holds between the machine before
and the machine after, whichever machine it starts on; relations that are reflexive and transitive
are kept by a sequence if its parts keep them.
-/

namespace SepKernel

variable {α β : Type} {m m' : Machine}

/-- What an action answers, and what it makes of the machine. -/
def Action.exec (a : Action α) (m : Machine) : α × Machine := a m

/-- What an attempt answers, or why it was refused, and what it makes of the machine. -/
def Attempt.exec (a : Attempt α) (m : Machine) : Except Error α × Machine := a m

/-! ## Equations -/

namespace Action

@[simp] theorem exec_pure (x : α) : (pure x : Action α).exec m = (x, m) := rfl

-- In parentheses, so that simp rewrites with the equation instead of leaving it to the kernel to
-- unfold whole actions.
@[simp] theorem exec_bind (a : Action α) (f : α → Action β) :
    (a >>= f).exec m = (f (a.exec m).1).exec (a.exec m).2 := (rfl)

@[simp] theorem exec_map (f : α → β) (a : Action α) :
    (f <$> a).exec m = (f (a.exec m).1, (a.exec m).2) := rfl

@[simp] theorem exec_get : (get : Action Machine).exec m = (m, m) := rfl

/-- An action with a first part that depends on a condition. -/
theorem exec_branch {c : Prop} [Decidable c] (a b : Action α) (f : α → Action β) :
    (if c then a >>= f else b >>= f).exec m =
      (f ((if c then a else b).exec m).1).exec ((if c then a else b).exec m).2 := by
  split <;> rfl

end Action

namespace Attempt

@[simp] theorem exec_pure (x : α) : (pure x : Attempt α).exec m = (.ok x, m) := rfl

@[simp] theorem exec_get : (get : Attempt Machine).exec m = (.ok m, m) := rfl

@[simp] theorem exec_lift (a : Action α) :
    (liftM a : Attempt α).exec m = (.ok (a.exec m).1, (a.exec m).2) := rfl

theorem exec_bind (a : Attempt α) (f : α → Attempt β) :
    (a >>= f).exec m = match (a.exec m).1 with
      | .ok x => (f x).exec (a.exec m).2
      | .error e => (.error e, (a.exec m).2) := by
  show Action.exec (ExceptT.bindCont f (a.exec m).1) (a.exec m).2 = _
  cases (a.exec m).1 <;> rfl

theorem exec_bind_ok {a : Attempt α} {f : α → Attempt β} {x : α} (h : a.exec m = (.ok x, m')) :
    (a >>= f).exec m = (f x).exec m' := by
  rw [exec_bind, h]

/-- Two attempts after one another succeed if both do. -/
theorem exec_bind_eq_ok {a : Attempt α} {f : α → Attempt β} {y : β} :
    (a >>= f).exec m = (.ok y, m') ↔
      ∃ x m₁, a.exec m = (.ok x, m₁) ∧ (f x).exec m₁ = (.ok y, m') := by
  rw [exec_bind]
  rcases a.exec m with ⟨_ | x, m₁⟩
  · simp
  · constructor
    · exact fun h => ⟨x, m₁, rfl, h⟩
    · rintro ⟨_, _, ⟨⟩, h⟩
      exact h

/-- Two attempts after one another fail if the first does, or else the second. -/
theorem exec_bind_eq_error {a : Attempt α} {f : α → Attempt β} {e : Error} :
    (a >>= f).exec m = (.error e, m') ↔
      a.exec m = (.error e, m') ∨
        ∃ x m₁, a.exec m = (.ok x, m₁) ∧ (f x).exec m₁ = (.error e, m') := by
  rw [exec_bind]
  rcases a.exec m with ⟨_ | x, m₁⟩
  · simp
  · constructor
    · exact fun h => .inr ⟨x, m₁, rfl, h⟩
    · rintro (⟨⟨⟩⟩ | ⟨_, _, ⟨⟩, h⟩)
      exact h

theorem exec_bind_error {a : Attempt α} {f : α → Attempt β} {e : Error}
    (h : a.exec m = (.error e, m')) : (a >>= f).exec m = (.error e, m') := by
  rw [exec_bind, h]

@[simp] theorem exec_map (f : α → β) (a : Attempt α) :
    (f <$> a).exec m = ((a.exec m).1.map f, (a.exec m).2) := by
  rw [map_eq_pure_bind, exec_bind]
  cases (a.exec m).1 <;> rfl

@[simp] theorem exec_observing (a : Attempt α) :
    (observing a).exec m = (.ok (a.exec m).1, (a.exec m).2) := by
  -- the attempt runs once, on `m`
  have hrun : ∀ p : Except Error α × Machine,
      Attempt.exec (observing (show Attempt α from fun _ => p)) m = (Except.ok p.1, p.2) := by
    rintro ⟨_ | _, _⟩ <;> rfl
  exact hrun (a m)

end Attempt

/-! ## Kept relations -/

/-- The relation holds between the machine before and after the action. -/
def Action.Keeps (R : Machine → Machine → Prop) (a : Action α) : Prop :=
  ∀ m, R m (a.exec m).2

/-- The relation holds between the machine before and after the attempt. -/
def Attempt.Keeps (R : Machine → Machine → Prop) (a : Attempt α) : Prop :=
  ∀ m, R m (a.exec m).2

variable {R S : Machine → Machine → Prop}

/-- What keeps a relation keeps every coarser one. -/
theorem Action.Keeps.mono {a : Action α} (ha : a.Keeps R) (h : ∀ {m m'}, R m m' → S m m') :
    a.Keeps S :=
  fun m => h (ha m)

theorem Attempt.Keeps.mono {a : Attempt α} (ha : a.Keeps R) (h : ∀ {m m'}, R m m' → S m m') :
    a.Keeps S :=
  fun m => h (ha m)

namespace Action.Keeps

theorem modify {f : Machine → Machine} (h : ∀ m, R m (f m)) : Keeps R (modify f : Action Unit) := h

theorem map {a : Action α} (f : α → β) (ha : Keeps R a) : Keeps R (f <$> a) := ha

variable [IsPreorder Machine R]

theorem pure (x : α) : Keeps R (pure x : Action α) := fun m => refl_of R m

theorem get : Keeps R (get : Action Machine) := fun m => refl_of R m

theorem bind {a : Action α} {f : α → Action β} (ha : Keeps R a) (hf : ∀ x, Keeps R (f x)) :
    Keeps R (a >>= f) :=
  fun m => trans_of R (ha m) (hf _ _)

/-- The first part need only keep the relation on the machine at hand. -/
theorem bind_at {a : Action α} {f : α → Action β} (ha : R m (a.exec m).2)
    (hf : ∀ x, Keeps R (f x)) : R m ((a >>= f).exec m).2 :=
  trans_of R ha (hf _ _)

/-- An action with a first part that depends on a condition. -/
theorem branch_at {c : Prop} [Decidable c] {a b : Action α} {f : α → Action β}
    (ha : c → R m (a.exec m).2) (hb : ¬ c → R m (b.exec m).2) (hf : ∀ x, Keeps R (f x)) :
    R m ((if c then a >>= f else b >>= f).exec m).2 := by
  split
  · next hc => exact bind_at (ha hc) hf
  · next hc => exact bind_at (hb hc) hf

end Action.Keeps

namespace Attempt.Keeps

theorem lift {a : Action α} (ha : Action.Keeps R a) : Keeps R (liftM a : Attempt α) := ha

theorem map_at {a : Attempt α} {f : α → β} (ha : R m (a.exec m).2) :
    R m ((f <$> a).exec m).2 := by
  rwa [exec_map]

theorem map {a : Attempt α} (f : α → β) (ha : Keeps R a) : Keeps R (f <$> a) :=
  fun m => map_at (ha m)

theorem observing_at {a : Attempt α} (ha : R m (a.exec m).2) :
    R m ((observing a).exec m).2 := by
  rwa [exec_observing]

variable [IsPreorder Machine R]

theorem pure (x : α) : Keeps R (pure x : Attempt α) := fun m => refl_of R m

theorem throw (e : Error) : Keeps R (throw e : Attempt α) := fun m => refl_of R m

theorem get : Keeps R (get : Attempt Machine) := fun m => refl_of R m

theorem except (x : Except Error α) : Keeps R (liftM x : Attempt α) := fun m => refl_of R m

/-- The second part of an attempt may rely on how the first part ended. -/
theorem bind_from {a : Attempt α} {f : α → Attempt β} (ha : R m (a.exec m).2)
    (hf : ∀ x m', a.exec m = (.ok x, m') → R m' ((f x).exec m').2) :
    R m ((a >>= f).exec m).2 := by
  rw [exec_bind]
  cases hx : (a.exec m).1 with
  | error => exact ha
  | ok x => exact trans_of R ha (hf x _ (Prod.ext hx rfl))

theorem bind_of {a : Attempt α} {f : α → Attempt β} (ha : Keeps R a)
    (hf : ∀ m x m', a.exec m = (.ok x, m') → R m' ((f x).exec m').2) : Keeps R (a >>= f) :=
  fun m => bind_from (ha m) (hf m)

theorem bind {a : Attempt α} {f : α → Attempt β} (ha : Keeps R a) (hf : ∀ x, Keeps R (f x)) :
    Keeps R (a >>= f) :=
  ha.bind_of fun _ x m' _ => hf x m'

/-- An attempt with a first part that is made only under a condition. -/
theorem guarded {c : Prop} [Decidable c] {a : Attempt Unit} {f : Unit → Attempt β}
    (ha : Keeps R a) (hf : ∀ x, Keeps R (f x)) : Keeps R (if c then a >>= f else f ()) := by
  split
  · exact ha.bind hf
  · exact hf ()

/-- Such an attempt passes its first part in either case. -/
theorem guarded_ok {c : Prop} [Decidable c] {a : Attempt Unit} {f : Unit → Attempt β} {y : β}
    (ha : Keeps R a) (h : (if c then a >>= f else f ()).exec m = (.ok y, m')) :
    ∃ m₁, R m m₁ ∧ (f ()).exec m₁ = (.ok y, m') := by
  split at h
  · obtain ⟨_, m₁, hx, h⟩ := exec_bind_eq_ok.1 h
    have hm := ha m
    rw [hx] at hm
    exact ⟨m₁, hm, h⟩
  · exact ⟨m, refl_of R m, h⟩

/-- If the first part is not what refuses it, the rest is. -/
theorem guarded_error {c : Prop} [Decidable c] {a : Attempt Unit} {f : Unit → Attempt β} {e : Error}
    (ha : Keeps R a) (he : ∀ m', a.exec m ≠ (.error e, m'))
    (h : (if c then a >>= f else f ()).exec m = (.error e, m')) :
    ∃ m₁, R m m₁ ∧ (f ()).exec m₁ = (.error e, m') := by
  split at h
  · rcases exec_bind_eq_error.1 h with h | ⟨_, m₁, hx, h⟩
    · exact absurd h (he m')
    · have hm := ha m
      rw [hx] at hm
      exact ⟨m₁, hm, h⟩
  · exact ⟨m, refl_of R m, h⟩

theorem bind_at {a : Attempt α} {f : α → Attempt β} (ha : R m (a.exec m).2)
    (hf : ∀ x, Keeps R (f x)) : R m ((a >>= f).exec m).2 :=
  bind_from ha fun x m' _ => hf x m'

end Attempt.Keeps
end SepKernel
