import SepKernel.Proofs.Machine.Holding

/-!
# Checks

An operation starts with a number of checks. If one of them fails, the operation is refused, after
nothing but asides; if all pass, it is known what they have looked at. So an operation can be read
as a decision: it is refused, or it ends in a way that its checks allow.
-/

namespace SepKernel

variable {α β : Type} {m m' m₁ : Machine} {c : Capability} {s source target : Slot}

/-! ## Decisions -/

/-- On a machine, the attempt is refused after nothing but asides, or it ends as `Q` says. -/
def Attempt.Decides (a : Attempt α) (m : Machine) (Q : α → Machine → Prop) : Prop :=
  match a.exec m with
  | (.ok x, m') => Q x m'
  | (.error _, m') => Aside m m'

namespace Attempt.Decides

variable {Q : β → Machine → Prop}

theorem throw (e : Error) (m : Machine) : (throw e : Attempt β).Decides m Q :=
  refl_of Aside m

theorem of_exec {a : Attempt β} {x : β} (he : a.exec m = (.ok x, m')) (hQ : Q x m') :
    a.Decides m Q := by
  rw [Decides, he]
  exact hQ

/-- What comes before is an aside. -/
theorem before {a : Attempt β} (h : Aside m m₁) (ha : a.Decides m₁ Q) {r : Attempt β}
    (hr : r.exec m = a.exec m₁) : r.Decides m Q := by
  rw [Decides] at ha ⊢
  rw [hr]
  revert ha
  split
  · exact id
  · exact trans_of Aside h

/-- A check comes first, on the machine at hand. If it passes, it is known what it answered. -/
theorem bind_at {a : Attempt α} {f : α → Attempt β} (h : Aside m (a.exec m).2)
    (hf : ∀ x m₁, a.exec m = (.ok x, m₁) → Aside m m₁ → (f x).Decides m₁ Q) :
    (a >>= f).Decides m Q := by
  cases hx : a.exec m with
  | mk r m₁ =>
    rw [hx] at h
    cases r with
    | error e =>
      rw [Decides, exec_bind_error hx]
      exact h
    | ok x => exact before h (hf x m₁ hx h) (exec_bind_ok hx)

theorem bind {a : Attempt α} {f : α → Attempt β} (ha : a.Keeps Aside)
    (hf : ∀ x m₁, a.exec m = (.ok x, m₁) → Aside m m₁ → (f x).Decides m₁ Q) :
    (a >>= f).Decides m Q :=
  bind_at (ha m) hf

/-- A check that is made only under a condition comes first. -/
theorem guarded {p : Prop} [Decidable p] {a : Attempt Unit} {f : Unit → Attempt β}
    (ha : a.Keeps Aside) (hf : ∀ m₁, Aside m m₁ → (f ()).Decides m₁ Q) :
    (if p then a >>= f else f ()).Decides m Q := by
  split
  · exact bind ha fun _ m₁ _ => hf m₁
  · exact hf m (refl_of Aside m)

/-- A decision comes first, and what comes after it always completes. -/
theorem complete {P : α → Machine → Prop} {a : Attempt α} {f : α → Attempt β} (ha : a.Decides m P)
    (hf : ∀ x m₁, P x m₁ → ∃ y m₂, (f x).exec m₁ = (.ok y, m₂) ∧ Q y m₂) :
    (a >>= f).Decides m Q := by
  rw [Decides] at ha ⊢
  cases hx : a.exec m with
  | mk r m₁ =>
    rw [hx] at ha
    cases r with
    | error e =>
      rw [exec_bind_error hx]
      exact ha
    | ok x =>
      obtain ⟨y, m₂, hy, hQ⟩ := hf x m₁ ha
      rw [exec_bind_ok hx, hy]
      exact hQ

/-- Only the answer is put in another form. -/
theorem map {P : Machine → Prop} {a : Attempt α} (ha : a.Decides m fun _ => P) (f : α → β) :
    (a >>= fun x => pure (f x)).Decides m fun _ => P :=
  ha.complete fun x m' hP => ⟨f x, m', rfl, hP⟩

/-- Whatever comes of it, an attempt that only looks does nothing but asides. -/
theorem of_aside {a : Attempt β} (ha : a.Keeps Aside) (m : Machine) :
    a.Decides m fun _ m' => Aside m m' := by
  have hm := ha m
  rw [Decides]
  generalize a.exec m = r at hm ⊢
  obtain ⟨_ | _, m'⟩ := r <;> exact hm

/-- What is said of success may be weakened. -/
theorem mono {a : Attempt β} {P : β → Machine → Prop} (ha : a.Decides m P)
    (h : ∀ x m', P x m' → Q x m') : a.Decides m Q := by
  rw [Decides] at ha ⊢
  revert ha
  split
  · exact h _ _
  · exact id

/-- What is decided holds if the attempt is not refused. -/
theorem of_ok {a : Attempt β} {x : β} (ha : a.Decides m Q) (hx : (a.exec m).1 = .ok x) :
    Q x (a.exec m).2 := by
  rw [Decides] at ha
  generalize a.exec m = r at ha hx ⊢
  obtain ⟨_, m'⟩ := r
  obtain rfl := hx
  exact ha

/-- What holds after asides and after every end holds in any case. -/
theorem result {a : Attempt β} {P : Machine → Prop} (ha : a.Decides m Q)
    (haside : ∀ m', Aside m m' → P m') (hQ : ∀ x m', Q x m' → P m') : P (a.exec m).2 := by
  rw [Decides] at ha
  revert ha
  split
  · next x m' he =>
    rw [he]
    exact hQ x m'
  · next e m' he =>
    rw [he]
    exact haside m'

end Attempt.Decides

namespace Machine

open Attempt (exec_bind_ok exec_bind_error exec_bind_eq_ok exec_bind_eq_error)

/-! ## What a passed check says -/

/-- What is found in the slot, and that it is not null. -/
theorem requireSource_ok (h : (requireSource s).exec m = (.ok c, m')) :
    m' = m ∧ c = m.table.get s ∧ m.table.get s ≠ .null := by
  rw [requireSource, exec_bind_ok (Attempt.exec_lift _), capability_exec] at h
  dsimp only at h
  split at h
  · cases h
  · next hn =>
    cases h
    exact ⟨rfl, rfl, mt (Capability.isNull_iff _).2 hn⟩

/-- A slot that passes is vacant. -/
theorem requireVacant_ok (h : (requireVacant s).exec m = (.ok (), m')) :
    m' = m ∧ m.table.get s = .null := by
  rw [requireVacant, exec_bind_ok (Attempt.exec_lift _), capability_exec] at h
  dsimp only at h
  split at h
  · cases h
  · next hn =>
    cases h
    exact ⟨rfl, (Capability.isNull_iff _).1 (by simpa using hn)⟩

/-- A slot that can be read is occupied. -/
theorem readCapability_ok (h : (readCapability s).exec m = (.ok c, m')) :
    m' = m ∧ c = m.table.get s ∧ m.table.get s ≠ .null := by
  rw [readCapability_exec, Table.read] at h
  split at h
  · cases h
  · next hn =>
    cases h
    exact ⟨rfl, rfl, mt (Capability.isNull_iff _).2 hn⟩

/-- A capability that passes is a region, loaded or not as it must be. -/
theorem requireRegion_ok {r : Region} {b : Bool} (h : (requireRegion s b).exec m = (.ok r, m')) :
    m' = m ∧ m.table.get s = .pmp r ∧ r.loaded = b := by
  rw [requireRegion, exec_bind_eq_ok] at h
  obtain ⟨c, m₁, hc, h⟩ := h
  obtain ⟨rfl, hcs, _⟩ := readCapability_ok hc
  split at h
  · split at h
    · next hl =>
      cases h
      exact ⟨rfl, hcs.symm, hl⟩
    · cases h
  · cases h

/-- A freight that passes is the capability in the source, and there is room for it. -/
theorem requireFreight_ok {msg : Message} (h : (requireFreight msg source target).exec m =
    (.ok c, m')) : m' = m ∧ (msg.sendCap = true →
      c = m.table.get source ∧ c ≠ .null ∧ m.table.get target = .null) := by
  unfold requireFreight at h
  split at h
  · rw [exec_bind_eq_ok] at h
    obtain ⟨c', m₁, hs, h⟩ := h
    obtain ⟨rfl, rfl, hne⟩ := requireSource_ok hs
    rw [exec_bind_eq_ok] at h
    obtain ⟨_, m₂, hv, h⟩ := h
    obtain ⟨rfl, ht⟩ := requireVacant_ok hv
    cases h
    exact ⟨rfl, fun _ => ⟨rfl, hne, ht⟩⟩
  · next hn => -- there is nothing to be shipped
    cases h
    exact ⟨rfl, fun hc => absurd hc hn⟩

/-- A capability that passes is the socket. -/
theorem requireSocket_ok {k : Socket} (h : (requireSocket s).exec m = (.ok k, m')) :
    m' = m ∧ m.table.get s = .socket k := by
  rw [requireSocket, exec_bind_eq_ok] at h
  obtain ⟨c, m₁, hc, h⟩ := h
  obtain ⟨rfl, hcs, _⟩ := readCapability_ok hc
  split at h
  · cases h
    exact ⟨rfl, hcs.symm⟩
  · cases h

/-- Its role is the one that is asked for. -/
theorem requireRole_ok {k : Socket} {r : Role} (h : (requireRole s r).exec m = (.ok k, m')) :
    m' = m ∧ m.table.get s = .socket k ∧ k.role = r := by
  rw [requireRole, exec_bind_eq_ok] at h
  obtain ⟨k', m₁, hk, h⟩ := h
  obtain ⟨rfl, hs⟩ := requireSocket_ok hk
  split at h
  · cases h
  · next hr =>
    cases h
    exact ⟨rfl, hs, not_not.1 hr⟩

/-- The number is that of a slot of the process. -/
theorem slotAt_ok {p : Pid} {index : Nat} (h : (slotAt p index).exec m = (.ok s, m')) :
    m' = m ∧ s.owner = p ∧ s.index.val = index := by
  unfold slotAt at h
  split at h
  · next hi =>
    cases h
    exact ⟨rfl, rfl, index?_eq_some_iff.1 hi⟩
  · cases h

/-- A monitor that passes controls the process. -/
theorem requireControl_ok {p : Pid} (h : (requireControl s p).exec m = (.ok (), m')) :
    m' = m ∧ controls (m.table.get s) p = true := by
  rw [requireControl, exec_bind_ok (Attempt.exec_lift _), capability_exec] at h
  dsimp only at h
  split at h
  · cases h
  · next hc =>
    cases h
    exact ⟨rfl, by simpa using hc⟩

/-- Does the capability in a slot let its owner edit a process, and is the process stopped? -/
structure Edits (m : Machine) (s : Slot) (p : Pid) : Prop where
  controls : Machine.controls (m.table.get s) p = true
  stopped : (m.processes.get p).isStopped = true

/-- If it does, and the process is stopped, the process may be edited. -/
theorem requireStopped_ok {p : Pid} (h : (requireStopped s p).exec m = (.ok (), m')) :
    m' = m ∧ m.Edits s p := by
  rw [requireStopped, exec_bind_eq_ok] at h
  obtain ⟨_, m₁, hc, h⟩ := h
  obtain ⟨rfl, hc⟩ := requireControl_ok hc
  rw [exec_bind_ok (Attempt.exec_lift _), process_exec] at h
  dsimp only at h
  split at h
  · cases h
  · next hs =>
    cases h
    exact ⟨rfl, hc, by simpa using hs⟩

/-- Whoever passes is not to be stopped. -/
theorem requireGoing_ok {p : Pid} (h : (requireGoing p).exec m = (.ok (), m')) :
    m' = m ∧ (m.processes.get p).status.suspended = false := by
  rw [requireGoing, exec_bind_ok (Attempt.exec_lift _), process_exec] at h
  dsimp only at h
  split at h
  · cases h
  · next hs =>
    cases h
    exact ⟨rfl, by simpa using hs⟩

theorem requireSendable_ok {k : Socket} {msg : Message}
    (h : (requireSendable k msg).exec m = (.ok (), m')) : m' = m := by
  unfold requireSendable at h
  split at h
  · cases h
  · cases h
    rfl

/-! ## Checks of what is known -/

theorem readCapability_occupied (hs : m.table.get s ≠ .null) :
    (readCapability s).exec m = (.ok (m.table.get s), m) := by
  rw [readCapability_exec, Table.read, if_neg (mt (Capability.isNull_iff _).1 hs)]
  rfl

theorem requireSocket_exec {k : Socket} (hs : m.table.get s = .socket k) :
    (requireSocket s).exec m = (.ok k, m) := by
  have hne : m.table.get s ≠ .null := by
    rw [hs]
    exact nofun
  rw [requireSocket, exec_bind_ok (readCapability_occupied hne), hs]
  rfl

theorem requireRole_exec {k : Socket} (hs : m.table.get s = .socket k) (hr : k.role = .server) :
    (requireRole s .server).exec m = (.ok k, m) := by
  rw [requireRole, exec_bind_ok (requireSocket_exec hs), if_neg (not_not.2 hr)]
  rfl

theorem slotAt_exec {b : Slot} {buffer : Nat} (ho : b.owner = s.owner) (hi : b.index.val = buffer) :
    (slotAt s.owner buffer).exec m = (.ok b, m) := by
  rw [slotAt, index?_eq_some_iff.2 hi, ← ho]
  rfl

theorem requireSource_exec (hs : m.table.get s ≠ .null) :
    (requireSource s).exec m = (.ok (m.table.get s), m) := by
  have hnull := mt (Capability.isNull_iff _).1 hs
  rw [requireSource, exec_bind_ok (Attempt.exec_lift _), capability_exec, if_neg (by simp [hnull])]
  rfl

theorem requireVacant_exec (hs : m.table.get s = .null) :
    (requireVacant s).exec m = (.ok (), m) := by
  rw [requireVacant, exec_bind_ok (Attempt.exec_lift _), capability_exec, hs]
  rfl

/-- A slot that is occupied is refused. -/
theorem requireVacant_refused (hs : m.table.get s ≠ .null) :
    (requireVacant s).exec m = (.error .dstOccupied, m) := by
  have hnull := mt (Capability.isNull_iff _).1 hs
  rw [requireVacant, exec_bind_ok (Attempt.exec_lift _), capability_exec, if_pos (by simp [hnull])]
  rfl

theorem requireGoing_exec {p : Pid} (hp : (m.processes.get p).status.suspended = false) :
    (requireGoing p).exec m = (.ok (), m) := by
  rw [requireGoing, exec_bind_ok (Attempt.exec_lift _), process_exec, if_neg (by simp [hp])]
  rfl

/-- A position beyond the slots of a process is refused. -/
theorem slotAt_refused {p : Pid} {buffer : Nat} (hi : 32 ≤ buffer) :
    (slotAt p buffer).exec m = (.error .invalidIndex, m) := by
  rw [slotAt, index?_eq_none_iff.2 hi]
  rfl

/-! ## What a failed check says -/

/-- Only a suspension is a reason not to pass. -/
theorem requireGoing_error {p : Pid} {e : Error}
    (h : (requireGoing p).exec m = (.error e, m')) : e = .suspended := by
  rw [requireGoing, exec_bind_ok (Attempt.exec_lift _)] at h
  split at h
  · cases h
    rfl
  · cases h

/-- Only the capability in the message is. -/
theorem requireSendable_error {k : Socket} {msg : Message} {e : Error}
    (h : (requireSendable k msg).exec m = (.error e, m')) : e = .invalidSocket := by
  unfold requireSendable at h
  split at h
  · cases h
    rfl
  · cases h

/-- Either there is nothing to be shipped, or no room for it. -/
theorem requireFreight_error {msg : Message} {e : Error}
    (h : (requireFreight msg source target).exec m = (.error e, m')) :
    e = .srcEmpty ∨ e = .dstOccupied := by
  unfold requireFreight at h
  -- nothing is refused that is not to be shipped
  split at h
  · rcases exec_bind_eq_error.1 h with h | ⟨_, m₁, _, h⟩
    · left
      rw [requireSource, exec_bind_ok (Attempt.exec_lift _)] at h
      split at h
      · cases h
        rfl
      · cases h
    rcases exec_bind_eq_error.1 h with h | ⟨_, m₂, _, h⟩
    · right
      rw [requireVacant, exec_bind_ok (Attempt.exec_lift _)] at h
      split at h
      · cases h
        rfl
      · cases h
    · cases h
  · cases h

end Machine
end SepKernel
