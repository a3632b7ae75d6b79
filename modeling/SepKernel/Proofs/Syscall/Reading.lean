import SepKernel.Syscall.Decode

/-!
# What reading a system call says

Every call uses its first few arguments, each for one purpose, and none of the others. A call is
read by checking these in order. So the purposes of its arguments tell all about the reading of a
call: whether it succeeds, for which argument it is refused and for which reason, and what does not
matter for it.
-/

namespace SepKernel

/-- Is the position that comes with a message one of the slots of a process? -/
def SharedCall.InRange : SharedCall → Prop
  | sockSend _ m | sockSendRecv _ m => m.buffer < slotsPerProcess
  | _ => True

namespace Syscall

/-- Is everything that the call names in range? Types say so of all but the position that comes with
a message. -/
def InRange : Syscall → Prop
  | own _ => True
  | shared c => c.InRange

/-! ## Operands -/

/-- What a call uses an argument for. -/
inductive Operand where
  | slot
  | pid
  | register
  | region
  | info
  | child
  /-- Any word will do. -/
  | word
  deriving DecidableEq, Repr

def Operand.refusal? (w : Word) : Operand → Option Error
  | slot => if w.toNat < slotsPerProcess then none else some .invalidIndex
  | pid => if w.toNat < processCount then none else some .invalidPid
  | register => if w.toNat < 40 then none else some .invalidRegister
  | region => if w.toNat < regionCount then none else some .invalidSlot
  | info => if w.toNat ≤ 2 then none else some .invalidSyscall
  | child => if (Capability.ofWord? w).isSome then none else some .invalidDerivation
  | word => none

/-- What the call of a number uses its arguments for, from the first on. -/
def operands : Nat → List Operand
  | 0 => [.info]
  | 1 => [.register]
  | 2 => [.register, .word]
  | 3 | 4 => [.word]
  | 5 | 7 | 8 | 11 => [.slot]
  | 6 | 23 => [.slot, .slot]
  | 9 => [.slot, .slot, .child]
  | 10 => [.slot, .region]
  | 12 | 13 | 14 | 15 => [.slot, .pid]
  | 16 => [.slot, .pid, .register]
  | 17 => [.slot, .pid, .register, .word]
  | 18 | 21 => [.slot, .pid, .slot]
  | 19 => [.slot, .pid, .slot, .pid, .slot]
  | 20 => [.slot, .pid, .slot, .region]
  | 22 | 24 => [.slot, .slot, .word, .word, .word, .word, .word]
  | _ => []

/-- The reason for which the arguments of a call are refused, if they are: that of the first. -/
def firstRefusal? (os : List Operand) (ws : List Word) : Option Error :=
  (os.zip ws).findSome? fun ow => ow.1.refusal? ow.2

def Agree (n : Nat) (a b : Vector Word 8) : Prop :=
  ∀ i (_ : i < 8), i < n → a[i] = b[i]

/-! ## Checks -/

variable {α β γ : Type} {k : Nat} {o : Operand} {os : List Operand} {P : α → Prop}

def refusal? : Except Error α → Option Error
  | .ok _ => none
  | .error e => some e

theorem refusal?_eq_none_iff {x : Except Error α} : refusal? x = none ↔ ∃ y, x = .ok y := by
  cases x <;> simp [refusal?]

theorem refusal?_eq_some_iff {x : Except Error α} {e : Error} :
    refusal? x = some e ↔ x = .error e := by
  cases x <;> simp [refusal?]

/-- The first of two refusals counts. -/
theorem refusal?_bind {x : Except Error γ} {f : γ → Except Error α} {r : Option Error}
    (hf : ∀ i, refusal? (f i) = r) : refusal? (x >>= f) = (refusal? x).or r := by
  cases x with
  | ok i => exact hf i
  | error e => rfl

theorem refusal?_map (f : α → β) (x : Except Error α) : refusal? (x.map f) = refusal? x := by
  cases x <;> rfl

theorem refusal?_index (e : Error) (k n : Nat) :
    refusal? ((index? k n).elim (throw e) pure) = if n < k then none else some e := by
  unfold index?
  split <;> rfl

theorem refusal?_slotIndex (w : Word) : refusal? (slotIndex w) = Operand.slot.refusal? w :=
  refusal?_index ..

theorem refusal?_pid (w : Word) : refusal? (pid w) = Operand.pid.refusal? w :=
  refusal?_index ..

theorem refusal?_region (w : Word) : refusal? (region w) = Operand.region.refusal? w :=
  refusal?_index ..

theorem refusal?_register (w : Word) : refusal? (register w) = Operand.register.refusal? w := by
  unfold register Register.ofNumber? index? Operand.refusal?
  split <;> rfl

/-- Only the numbers 0 to 2 ask for something. -/
theorem refusal?_info (w : Word) : refusal? (info w) = Operand.info.refusal? w := by
  unfold info Operand.refusal?
  split
  · next h => rw [h]; rfl
  · next h => rw [h]; rfl
  · next h => rw [h]; rfl
  · next h0 h1 h2 =>
    -- there are three things to ask for
    have hlt : ¬ w.toNat ≤ 2 := by
      have h0 : w.toNat ≠ 0 := h0
      have h1 : w.toNat ≠ 1 := h1
      have h2 : w.toNat ≠ 2 := h2
      omega
    rw [if_neg hlt]
    rfl

theorem refusal?_child (w : Word) : refusal? (child w) = Operand.child.refusal? w := by
  unfold child Operand.refusal?
  cases Capability.ofWord? w <;> rfl

/-! ## Reading arguments -/

/-- All that there is to say about something that is read from the arguments of a call, from a
position on: which of them are used and what for, and what holds of what is read. -/
structure Reads (k : Nat) (os : List Operand) (P : α → Prop)
    (f : Vector Word 8 → Except Error α) : Prop where
  refusal : ∀ a, refusal? (f a) = firstRefusal? os (a.toList.drop k)
  congr : ∀ a b, Agree (k + os.length) a b → f a = f b
  result : ∀ a x, f a = .ok x → P x

namespace Reads

/-- The arguments that are left after the last check may be any words. -/
theorem done {f : Vector Word 8 → α} (hos : ∀ o ∈ os, o = .word)
    (hf : ∀ a b, Agree (k + os.length) a b → f a = f b)
    (hP : ∀ a, P (f a)) : Reads k os P fun a => pure (f a) where
  refusal a := by
    refine (List.findSome?_eq_none_iff.2 fun ow how => ?_).symm
    rw [hos ow.1 (List.of_mem_zip how).1]
    rfl
  congr a b h := congrArg pure (hf a b h)
  result a x := by
    rintro ⟨⟩
    exact hP a

protected theorem pure {x : α} (hx : P x) : Reads k [] P fun _ => pure x :=
  done (by simp) (fun _ _ _ => rfl) fun _ => hx

/-- A check of the first argument comes before the rest is read. -/
theorem bind {x : Word → Except Error γ} {f : γ → Vector Word 8 → Except Error α}
    (hx : ∀ w, refusal? (x w) = o.refusal? w) (hf : ∀ i, Reads (k + 1) os P (f i))
    (hk : k < 8 := by decide) : Reads k (o :: os) P fun a => x a[k] >>= fun i => f i a where
  refusal a := by
    -- the arguments from this position on are this one and the rest
    have hlist : a.toList.drop k = a[k] :: a.toList.drop (k + 1) := by
      rw [List.drop_eq_getElem_cons (by simpa using hk)]
      simp
    rw [refusal?_bind fun i => (hf i).refusal a, hx, hlist, firstRefusal?, firstRefusal?,
      List.zip_cons_cons, List.findSome?_cons]
    cases o.refusal? a[k] <;> rfl
  congr a b h := by
    have hrest : ∀ i, f i a = f i b := by
      refine fun i => (hf i).congr a b fun j hj hlt => h j hj ?_
      rw [List.length_cons]
      omega
    rw [h k hk (by simp), funext hrest]
  result a y h := by
    cases hi : x a[k] with
    | ok i =>
      rw [hi] at h
      exact (hf i).result a y h
    | error e =>
      rw [hi] at h
      cases h

/-- What was read may be put in another form. -/
theorem map {Q : β → Prop} {f : Vector Word 8 → Except Error α} {g : α → β} (h : Reads k os P f)
    (hg : ∀ x, P x → Q (g x)) : Reads k os Q fun a => (f a).map g where
  refusal a := by rw [refusal?_map, h.refusal]
  congr a b hab := by rw [h.congr a b hab]
  result a y hy := by
    cases hx : f a with
    | ok x =>
      rw [hx] at hy
      cases hy
      exact hg x (h.result a x hx)
    | error e =>
      rw [hx] at hy
      cases hy

end Reads

/-! ## Calls -/

open Reads

/-- A message is what is read after its socket. -/
theorem reads_message {f : Message → SharedCall}
    (hf : ∀ m, m.buffer < slotsPerProcess → (f m).InRange) :
    Reads 1 [.slot, .word, .word, .word, .word, .word] SharedCall.InRange
      fun a => message a >>= fun m => pure (f m) := by
  simp only [message, bind_assoc, pure_bind]
  refine .bind refusal?_slotIndex fun i => .done (by simp) (fun a b h => ?_) fun a => hf _ i.isLt
  simp only [h 2 (by decide) (by decide), h 3 (by decide) (by decide), h 4 (by decide) (by decide),
    h 5 (by decide) (by decide), h 6 (by decide) (by decide)]

/-- A call that concerns its caller alone has nothing in it that could be out of range. -/
theorem reads_own {k : Nat} {f : Vector Word 8 → Except Error OwnCall}
    (h : Reads k os (fun _ => True) f) : Reads k os InRange fun a => (f a).map .own :=
  h.map fun _ _ => trivial

theorem reads_shared {k : Nat} {f : Vector Word 8 → Except Error SharedCall}
    (h : Reads k os SharedCall.InRange f) : Reads k os InRange fun a => (f a).map .shared :=
  h.map fun _ => id

/-- Every call is read as its table of operands says. There is one case for each number, and calls
with the same operands share theirs. -/
theorem decode_reads (call : Word) (hc : call.toNat ≤ 24) :
    Reads 0 (operands call.toNat) InRange (decode call) := by
  unfold decode
  -- only the number matters from here on
  generalize call.toNat = n at hc ⊢
  match n, hc with
  | 0, _ => exact reads_own (.bind refusal?_info fun _ => .pure trivial)
  | 1, _ => exact reads_own (.bind refusal?_register fun _ => .pure trivial)
  | 2, _ =>
    exact reads_own <| .bind refusal?_register fun _ =>
      .done (by decide) (fun a b h => by rw [h 1 (by decide) (by decide)]) fun _ => trivial
  | 3, _ | 4, _ =>
    exact reads_own <|
      .done (by decide) (fun a b h => by rw [h 0 (by decide) (by decide)]) fun _ => trivial
  | 5, _ | 7, _ | 8, _ | 11, _ =>
    exact reads_shared (.bind refusal?_slotIndex fun _ => .pure trivial)
  | 6, _ | 23, _ =>
    exact reads_shared <| .bind refusal?_slotIndex fun _ => .bind refusal?_slotIndex fun _ =>
      .pure trivial
  | 9, _ =>
    exact reads_shared <| .bind refusal?_slotIndex fun _ => .bind refusal?_slotIndex fun _ =>
      .bind refusal?_child fun _ => .pure trivial
  | 10, _ =>
    exact reads_shared <| .bind refusal?_slotIndex fun _ => .bind refusal?_region fun _ =>
      .pure trivial
  | 12, _ | 13, _ | 14, _ | 15, _ =>
    exact reads_shared <| .bind refusal?_slotIndex fun _ => .bind refusal?_pid fun _ =>
      .pure trivial
  | 16, _ =>
    exact reads_shared <| .bind refusal?_slotIndex fun _ => .bind refusal?_pid fun _ =>
      .bind refusal?_register fun _ => .pure trivial
  | 17, _ =>
    exact reads_shared <| .bind refusal?_slotIndex fun _ => .bind refusal?_pid fun _ =>
      .bind refusal?_register fun _ =>
        .done (by decide) (fun a b h => by rw [h 3 (by decide) (by decide)]) fun _ => trivial
  | 18, _ | 21, _ =>
    exact reads_shared <| .bind refusal?_slotIndex fun _ => .bind refusal?_pid fun _ =>
      .bind refusal?_slotIndex fun _ => .pure trivial
  | 19, _ =>
    exact reads_shared <| .bind refusal?_slotIndex fun _ => .bind refusal?_pid fun _ =>
      .bind refusal?_slotIndex fun _ => .bind refusal?_pid fun _ =>
        .bind refusal?_slotIndex fun _ => .pure trivial
  | 20, _ =>
    exact reads_shared <| .bind refusal?_slotIndex fun _ => .bind refusal?_pid fun _ =>
      .bind refusal?_slotIndex fun _ => .bind refusal?_region fun _ => .pure trivial
  | 22, _ | 24, _ =>
    exact reads_shared <| .bind refusal?_slotIndex fun _ => reads_message fun _ => id
  | n + 25, h => omega

/-- There are no calls of higher numbers. -/
theorem decode_unknown (call : Word) (hc : 24 < call.toNat) (a : Vector Word 8) :
    decode call a = .error .invalidSyscall := by
  obtain ⟨n, hn⟩ : ∃ n, call.toNat = n + 25 := ⟨call.toNat - 25, by omega⟩
  unfold decode
  rw [hn]
  rfl

/-- The reason of a refusal, for all numbers. -/
theorem decode_refusal (call : Word) (a : Vector Word 8) :
    refusal? (decode call a) =
      if call.toNat ≤ 24 then firstRefusal? (operands call.toNat) a.toList
      else some .invalidSyscall := by
  split
  · next hc => exact (decode_reads call hc).refusal a
  · next hc =>
    rw [decode_unknown call (by omega)]
    rfl

/-- What is read depends only on the arguments that the call uses. -/
theorem decode_congr (call : Word) {a b : Vector Word 8}
    (h : Agree (operands call.toNat).length a b) : decode call a = decode call b := by
  by_cases hc : call.toNat ≤ 24
  · refine (decode_reads call hc).congr a b ?_
    rwa [Nat.zero_add]
  · rw [decode_unknown call (by omega), decode_unknown call (by omega)]

/-- What is read is in range. -/
theorem inRange_of_decode {call : Word} {a : Vector Word 8} {c : Syscall}
    (h : decode call a = .ok c) : c.InRange := by
  by_cases hc : call.toNat ≤ 24
  · exact (decode_reads call hc).result a c h
  · rw [decode_unknown call (by omega)] at h
    cases h

end Syscall
end SepKernel
