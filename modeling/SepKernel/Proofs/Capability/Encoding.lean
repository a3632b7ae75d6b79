import SepKernel.Capability.Word

/-!
# The word of a capability and back

Writing a capability as a word and reading the word gives the capability back, so no two
capabilities have the same word. The other way round, reading refuses a word for one of three
reasons: a kind that does not exist, a mode that does not exist, or a permission of more than four
bits. Of any other word, reading and writing clears exactly the bits that have no meaning for its
kind.

A word is its body above its kind, and a body is made of fields with `++`, from the high end down.
Fields are compared bit by bit.
-/

namespace SepKernel

open BitVec

variable {w : Word} {c : Capability}

/-! ## Spans -/

/-- Reading a span from the upper part of a word loses nothing. -/
theorem Span.bits_ofWord (w : Word) : (Span.ofWord w).bits = w.extractLsb' 16 48 := by
  have h : w.extractLsb' 48 16 ++ w.extractLsb' 32 16 = w.extractLsb' 32 32 :=
    extractLsb'_append_extractLsb'_eq_extractLsb' (by decide)
  rw [Span.bits, Span.ofWord, h]
  exact extractLsb'_append_extractLsb'_eq_extractLsb' (by decide)

/-- The three fields of a span can be told from its bits, as each has a place of its own. -/
theorem Span.bits_inj {s t : Span} (h : s.bits = t.bits) : s = t := by
  obtain ⟨base, mark, limit⟩ := s
  obtain ⟨base', mark', limit'⟩ := t
  have hbit : ∀ i, (limit ++ mark ++ base).getLsbD i = (limit' ++ mark' ++ base').getLsbD i :=
    fun i => congrArg (getLsbD · i) h
  simp only [getLsbD_append] at hbit
  have hbase : base = base' := eq_of_getLsbD_eq fun i _ => by have := hbit i; grind
  have hmark : mark = mark' := eq_of_getLsbD_eq fun i _ => by have := hbit (16 + i); grind
  have hlimit : limit = limit' := eq_of_getLsbD_eq fun i _ => by have := hbit (32 + i); grind
  rw [hbase, hmark, hlimit]

/-- A span is read from the upper 48 bits of a word. -/
theorem Span.ofWord_eq {s : Span} (h : w.extractLsb' 16 48 = s.bits) : Span.ofWord w = s :=
  Span.bits_inj ((Span.bits_ofWord w).trans h)

namespace Capability

/-! ## Reading what was written -/

theorem kind_toWord (c : Capability) : c.toWord.extractLsb' 0 4 = c.kind :=
  extractLsb'_append_eq_right

theorem getLsbD_toWord (c : Capability) (i : Nat) :
    c.toWord.getLsbD i = if i < 4 then c.kind.getLsbD i else c.body.getLsbD (i - 4) :=
  getLsbD_append

/-- A field of a word, bit by bit. -/
theorem extractLsb'_eq {k : Nat} {f : BitVec k} (n : Nat)
    (h : ∀ i < k, w.getLsbD (n + i) = f.getLsbD i) : w.extractLsb' n k = f :=
  eq_of_getLsbD_eq fun i hi => by rw [getLsbD_extractLsb', decide_eq_true hi, Bool.true_and, h i hi]

/-- The span of a range capability stands above the sixteen bits of whatever goes with it. -/
theorem ofWord_toWord {s : Span} (h : c.span? = some s) : Span.ofWord c.toWord = s := by
  refine Span.ofWord_eq (extractLsb'_eq 16 fun i hi => ?_)
  cases c <;> cases h
  all_goals
    simp only [getLsbD_toWord, body, getLsbD_append]
    grind

/-- A socket is read back from the word that it is written to. -/
theorem socketOfWord?_toWord (k : Socket) : socketOfWord? (socket k).toWord = some k := by
  obtain ⟨chan, mode, permission, tag⟩ := k
  generalize hw : (socket ⟨chan, mode, permission, tag⟩).toWord = w
  have hbit : ∀ i, w.getLsbD i = _ := fun i => hw ▸ getLsbD_toWord _ i
  simp only [body, getLsbD_append] at hbit
  -- each field is read where it was written
  have hmode : w.extractLsb' 4 4 = mode.bits := extractLsb'_eq 4 fun i _ => by grind
  have hpermission : w.extractLsb' 8 4 = permission.bits := extractLsb'_eq 8 fun i _ => by grind
  have hzero : w.extractLsb' 12 4 = 0#4 := extractLsb'_eq 12 fun i _ => by grind
  have hchan : w.extractLsb' 16 16 = chan := extractLsb'_eq 16 fun i _ => by grind
  have htag : w.extractLsb' 32 32 = tag := extractLsb'_eq 32 fun i _ => by grind
  rw [socketOfWord?, hmode, Mode.ofBits?_bits, hzero, hpermission, hchan, htag]
  simp

/-- What a word was made from is read back. The kind selects the branch, and each field is found
where it was written. -/
theorem ofWord?_toWord (c : Capability) : ofWord? c.toWord = some c := by
  rw [ofWord?, kind_toWord]
  -- `grind` finds each bit of a field among the places that `body` lists
  cases c with
  | null => rfl
  | time hart s =>
    show some (time _ _) = _
    have hhart : (time hart s).toWord.extractLsb' 8 8 = hart :=
      extractLsb'_eq 8 fun i _ => by simp only [getLsbD_toWord, body, getLsbD_append]; grind
    rw [ofWord_toWord rfl, hhart]
  | memory m =>
    show some (memory _) = _
    generalize hw : (memory m).toWord = w
    have hbit : ∀ i, w.getLsbD i = _ := fun i => hw ▸ getLsbD_toWord _ i
    simp only [body, getLsbD_append] at hbit
    have htag : w.extractLsb' 8 8 = m.tag := extractLsb'_eq 8 fun i _ => by grind
    have haccess : w.extractLsb' 4 3 = m.access.bits := extractLsb'_eq 4 fun i _ => by grind
    have hlocked : w[7] = m.locked := by rw [← getLsbD_eq_getElem, hbit]; simp
    rw [htag, haccess, hlocked, ← hw, ofWord_toWord rfl, Access.ofBits_bits]
  | pmp r =>
    show some (pmp _) = _
    generalize hw : (pmp r).toWord = w
    have hbit : ∀ i, w.getLsbD i = _ := fun i => hw ▸ getLsbD_toWord _ i
    simp only [body, getLsbD_append] at hbit
    have haddress : w.extractLsb' 16 48 = r.address := extractLsb'_eq 16 fun i _ => by grind
    have haccess : w.extractLsb' 4 3 = r.access.bits := extractLsb'_eq 4 fun i _ => by grind
    have hloaded : w[7] = r.loaded := by rw [← getLsbD_eq_getElem, hbit]; simp
    have hslot : w.extractLsb' 8 8 = r.slot := extractLsb'_eq 8 fun i _ => by grind
    rw [haddress, haccess, hloaded, hslot, Access.ofBits_bits]
  | monitor s =>
    show some (monitor _) = _
    rw [ofWord_toWord rfl]
  | channel s =>
    show some (channel _) = _
    rw [ofWord_toWord rfl]
  | socket k =>
    show (socketOfWord? _).map socket = _
    rw [socketOfWord?_toWord, Option.map_some]

/-! ## What reading refuses -/

/-- Only the mode, and the upper half of the permission field, can be wrong in the word of a
socket. -/
theorem socketOfWord?_eq_none_iff :
    socketOfWord? w = none ↔ 1 < (w.extractLsb' 4 4).toNat ∨ w.extractLsb' 12 4 ≠ 0#4 := by
  have hmode : Mode.ofBits? (w.extractLsb' 4 4) = none ↔ 1 < (w.extractLsb' 4 4).toNat := by
    generalize w.extractLsb' 4 4 = b
    revert b
    decide
  rw [← hmode, socketOfWord?]
  cases Mode.ofBits? (w.extractLsb' 4 4) <;> simp

/-- The upper half of the permission field. -/
theorem permission_ne_zero_iff :
    w.extractLsb' 12 4 ≠ 0#4 ↔ ∃ i, 3 < i ∧ (w.extractLsb' 8 8).getLsbD i = true := by
  constructor
  · intro h
    -- if no bit above the third is set, the field is zero
    refine Classical.byContradiction fun hn => h (extractLsb'_eq 12 fun i hi => ?_)
    have hbit : ¬ (w.extractLsb' 8 8).getLsbD (4 + i) = true :=
      fun hb => hn ⟨4 + i, by omega, hb⟩
    rw [getLsbD_extractLsb'] at hbit
    grind
  · rintro ⟨i, hi, hb⟩ h
    have hbit := congrArg (getLsbD · (i - 4)) h
    simp only [getLsbD_extractLsb'] at hb hbit
    grind

/-- The words that are refused have an unknown kind, or are ill-formed sockets. -/
theorem ofWord?_eq_none_iff :
    ofWord? w = none ↔ 6 < (w.extractLsb' 0 4).toNat ∨
      (w.extractLsb' 0 4).toNat = 6 ∧ (1 < (w.extractLsb' 4 4).toNat ∨
        ∃ i, 3 < i ∧ (w.extractLsb' 8 8).getLsbD i = true) := by
  rw [← permission_ne_zero_iff, ← socketOfWord?_eq_none_iff, ofWord?]
  split <;> simp_all
  omega

/-! ## Writing what was read -/

/-- Does a bit of a word have a meaning for a capability of this kind? -/
def assigns (c : Capability) (i : Nat) : Bool :=
  match c with
  | null => false
  | time _ _ => decide (i < 4 ∨ 8 ≤ i)
  | monitor _ | channel _ => decide (i < 4 ∨ 16 ≤ i)
  | memory _ | pmp _ | socket _ => true

/-- A capability that is read is of the kind that the last four bits of the word say. -/
theorem kind_of_ofWord? (h : ofWord? w = some c) : c.kind = w.extractLsb' 0 4 := by
  rw [ofWord?] at h
  -- the number that selects the branch is the kind
  split at h
  case h_7 hk =>
    obtain ⟨k, _, rfl⟩ := Option.map_eq_some_iff.1 h
    exact (eq_of_toNat_eq hk).symm
  case h_8 => cases h
  all_goals
    next hk =>
      cases h
      exact (eq_of_toNat_eq hk).symm

/-- The fields of a socket that was read. -/
theorem fields_of_socketOfWord? {k : Socket} (h : socketOfWord? w = some k) :
    k.mode.bits = w.extractLsb' 4 4 ∧ k.permission.bits = w.extractLsb' 8 4 ∧
      0#4 = w.extractLsb' 12 4 ∧ k.chan = w.extractLsb' 16 16 ∧ k.tag = w.extractLsb' 32 32 := by
  rw [socketOfWord?] at h
  obtain ⟨mode, hmode, h⟩ := Option.bind_eq_some_iff.1 h
  split at h
  · next hzero =>
    cases h
    exact ⟨Mode.bits_of_ofBits? hmode, Permission.bits_ofBits _, hzero.symm, rfl, rfl⟩
  · cases h

/-- Above the kind, writing a capability that was read gives the bits that have a meaning, and zero
for the others. -/
theorem getLsbD_body_of_ofWord? (h : ofWord? w = some c) {i : Nat} (hi : 4 ≤ i) :
    c.body.getLsbD (i - 4) = (w.getLsbD i && c.assigns i) := by
  -- one case per kind, each of which reads its fields off the word
  rw [ofWord?] at h
  split at h
  case h_1 =>
    cases h
    simp [body, assigns]
  case h_2 | h_5 | h_6 =>
    cases h
    simp only [body, Span.bits_ofWord, getLsbD_append, getLsbD_extractLsb', assigns]
    grind
  case h_3 =>
    cases h
    simp only [body, Span.bits_ofWord, getLsbD_append, getLsbD_extractLsb', assigns,
      Access.bits_ofBits, getLsbD_ofBool, ← getLsbD_eq_getElem]
    grind
  case h_4 =>
    cases h
    simp only [body, getLsbD_append, getLsbD_extractLsb', assigns, Access.bits_ofBits,
      getLsbD_ofBool, ← getLsbD_eq_getElem]
    grind
  case h_7 =>
    obtain ⟨k, hk, rfl⟩ := Option.map_eq_some_iff.1 h
    obtain ⟨hmode, hpermission, hzero, hchan, htag⟩ := fields_of_socketOfWord? hk
    simp only [body, hmode, hpermission, hzero, hchan, htag, getLsbD_append, getLsbD_extractLsb',
      assigns]
    grind
  case h_8 => cases h

/-- Writing a capability that was read clears the bits of the word that have no meaning. -/
theorem getLsbD_toWord_of_ofWord? (h : ofWord? w = some c) (i : Nat) :
    c.toWord.getLsbD i = (w.getLsbD i && c.assigns i) := by
  rw [getLsbD_toWord]
  split
  · next hi =>
    have hbit : c.kind.getLsbD i = w.getLsbD i := by
      rw [kind_of_ofWord? h, getLsbD_extractLsb', Nat.zero_add, decide_eq_true hi, Bool.true_and]
    rw [hbit]
    cases c with
    | null =>
      -- all four bits of the kind are zero
      rw [← hbit]
      simp [kind]
    | _ => simp [assigns, hi]
  · next hi => exact getLsbD_body_of_ofWord? h (Nat.le_of_not_lt hi)

/-! ## The word form is exact -/

/-- Writing and reading give a capability back; reading refuses what it says it refuses; and reading
and writing keep the bits of a word that have a meaning, and clear the others. -/
theorem word_exact :
    (∀ c, ofWord? c.toWord = some c) ∧
    ∀ w : Word,
      (ofWord? w = none ↔ 6 < (w.extractLsb' 0 4).toNat ∨
        (w.extractLsb' 0 4).toNat = 6 ∧ (1 < (w.extractLsb' 4 4).toNat ∨
          ∃ i, 3 < i ∧ (w.extractLsb' 8 8).getLsbD i = true)) ∧
      ∀ c, ofWord? w = some c → ∀ i, c.toWord.getLsbD i = (w.getLsbD i && c.assigns i) :=
  ⟨ofWord?_toWord, fun _ => ⟨ofWord?_eq_none_iff, fun _ h i => getLsbD_toWord_of_ofWord? h i⟩⟩

/-- A word with stray bits between the kind and the hart. -/
theorem word_exact_stray :
    ofWord? 0x00400004000402f1 = some (time 2 ⟨4, 4, 64⟩) ∧
      ∀ i, (time 2 ⟨4, 4, 64⟩).toWord.getLsbD i =
        ((0x00400004000402f1 : Word).getLsbD i && decide (i < 4 ∨ 8 ≤ i)) :=
  ⟨by decide, (word_exact.2 _).2 _ (by decide)⟩

end Capability
end SepKernel
