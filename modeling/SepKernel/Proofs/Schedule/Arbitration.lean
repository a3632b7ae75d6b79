import Mathlib.Data.Finset.Max
import Mathlib.Data.Fintype.Basic
import Mathlib.Data.Prod.Lex
import SepKernel.Proofs.Machine.Execution

/-!
# Who wins a slot

A process may own the same column of the frame on several harts. Whether a hart is outranked is
asked hart by hart and pair by pair, and the comparison is not the same in both directions. Taken
together the answers single out one hart: the one that comes first in the order of the remaining
lengths, the longest first, where the harts with equal lengths are in the order of their numbers.
That hart gets the process whenever it can be had, and no other hart ever does. Entries without an
owner, whatever process they name, have no part in this.
-/

namespace SepKernel

variable {h k : Hart} {c : Fin 64} {p : Pid} {n : Nat} {t : Turn}

namespace Schedule

variable {s s' : Schedule} {ps : Processes} {slot now : Nat} {q : Process}

/-- Does a process own a column on a hart, with a number of slots left that is not zero? -/
def Owns (s : Schedule) (h : Hart) (c : Fin 64) (p : Pid) (n : Nat) : Prop :=
  s.get h c = some ⟨p, n⟩ ∧ 0 < n

/-- Of the harts on which a process owns a column, is this the one with the most slots left, and the
lowest of those? -/
def Wins (s : Schedule) (c : Fin 64) (p : Pid) (h : Hart) : Prop :=
  ∃ n, s.Owns h c p n ∧ ∀ k l, s.Owns k c p l → l < n ∨ l = n ∧ h.val ≤ k.val

/-- An entry has one length. -/
theorem Owns.length_unique {l : Nat} (hn : s.Owns h c p n) (hl : s.Owns h c p l) : l = n := by
  have he := hl.1.symm.trans hn.1
  cases he
  rfl

/-! ## One winner -/

/-- Two harts that win are the same. -/
theorem Wins.unique (hh : s.Wins c p h) (hk : s.Wins c p k) : k = h := by
  obtain ⟨n, hn, hmax⟩ := hh
  obtain ⟨l, hl, hmax'⟩ := hk
  have hle := hmax k l hl
  have hle' := hmax' h n hn
  apply Fin.ext
  omega

def lengthOf (s : Schedule) (c : Fin 64) (p : Pid) (h : Hart) : Nat :=
  match s.get h c with
  | some t => if t.pid = p then t.length else 0
  | none => 0

/-- Whoever has a length on a hart owns an entry of that length there. -/
theorem owns_lengthOf : s.Owns h c p (s.lengthOf c p h) ↔ 0 < s.lengthOf c p h := by
  refine ⟨And.right, fun hpos => ⟨?_, hpos⟩⟩
  unfold lengthOf at hpos ⊢
  split at hpos
  · next t ht =>
    split at hpos
    · next hp => rw [if_pos hp, ht, ← hp]
    · cases hpos
  · cases hpos

/-- And the length is the one that it owns. -/
theorem Owns.lengthOf_eq (ho : s.Owns h c p n) : s.lengthOf c p h = n := by
  rw [lengthOf, ho.1]
  exact if_pos rfl

/-- A process that owns a column on some hart has a winner there: the harts are finitely many, and
lengths and numbers together order them linearly. -/
theorem exists_wins (ho : s.Owns h c p n) : ∃ k, s.Wins c p k := by
  -- the longest turn wins; among equals the hart with the lowest number
  obtain ⟨k, -, hmax⟩ := Finset.exists_max_image Finset.univ
    (fun k : Hart => toLex (s.lengthOf c p k, OrderDual.toDual k.val)) ⟨h, Finset.mem_univ h⟩
  have hmax (j : Hart) :
      s.lengthOf c p j < s.lengthOf c p k ∨ s.lengthOf c p j = s.lengthOf c p k ∧ k.val ≤ j.val :=
    Prod.Lex.le_iff.1 (hmax j (Finset.mem_univ j))
  have hpos : 0 < s.lengthOf c p k := by
    have hn : s.lengthOf c p h = n := ho.lengthOf_eq
    have hn0 : 0 < n := ho.2
    have := hmax h
    omega
  refine ⟨k, s.lengthOf c p k, owns_lengthOf.2 hpos, fun j l hl => ?_⟩
  rw [← hl.lengthOf_eq]
  exact hmax j

/-! ## Who is outranked -/

/-- The pairwise comparison, for one other hart. -/
theorem isOutranked_eq_true_iff (hpos : 0 < t.length) :
    s.isOutranked h c t = true ↔
      ∃ k l, k ≠ h ∧ s.Owns k c t.pid l ∧ ¬ (l < t.length ∨ l = t.length ∧ h.val ≤ k.val) := by
  unfold isOutranked
  rw [List.any_eq_true]
  constructor
  · rintro ⟨k, -, hk⟩
    split at hk
    · next u hu =>
      simp only [Bool.and_eq_true, bne_iff_ne, beq_iff_eq] at hk
      obtain ⟨⟨hne, hp⟩, hle⟩ := hk
      -- the test depends on which of the two harts comes first
      have hlen : ¬ (u.length < t.length ∨ u.length = t.length ∧ h.val ≤ k.val) := by
        split at hle
        all_goals
          have hle := of_decide_eq_true hle
          omega
      refine ⟨k, u.length, hne, ⟨by rw [hu, ← hp], ?_⟩, hlen⟩
      omega
    · cases hk
  · rintro ⟨k, l, hne, ⟨hu, -⟩, hlen⟩
    refine ⟨k, List.mem_finRange k, ?_⟩
    rw [hu]
    simp only [Bool.and_eq_true, bne_iff_ne, beq_iff_eq]
    refine ⟨⟨hne, trivial⟩, ?_⟩
    split
    all_goals
      apply decide_eq_true
      omega

/-- Who has a turn and is not outranked wins. -/
theorem isOutranked_eq_false_iff (ho : s.Owns h c p n) :
    s.isOutranked h c ⟨p, n⟩ = false ↔ s.Wins c p h := by
  rw [← Bool.not_eq_true, isOutranked_eq_true_iff (t := ⟨p, n⟩) ho.2]
  constructor
  · intro hmax
    refine ⟨n, ho, fun k l hl => ?_⟩
    -- the test leaves the hart itself out
    by_cases hk : k = h
    · subst hk
      exact .inr ⟨ho.length_unique hl, Nat.le_refl _⟩
    · by_contra hlen
      exact hmax ⟨k, l, hk, hl, hlen⟩
  · rintro ⟨n', hn', hmax⟩ ⟨k, l, _, hl, hlen⟩
    obtain rfl := ho.length_unique hn'
    exact hlen (hmax k l hl)

/-! ## Who is fetched -/

/-- A hart fetches a process if it wins the slot with it, and the process can be had. -/
theorem fetch?_eq_some_iff :
    s.fetch? ps h slot now = some (p, q) ↔
      s.Wins (column slot) p h ∧ ∃ n x, s.Owns h (column slot) p n ∧
        (ps.get p).acquire? now = some x ∧ q = { x with deadline := (slot + n) * slotTicks } := by
  simp only [fetch?, Option.bind_eq_bind, Option.bind_eq_some_iff]
  constructor
  · rintro ⟨⟨r, n⟩, ht, hf⟩
    split at hf
    · cases hf
    · next hin =>
      obtain ⟨hn, hrank⟩ := not_or.1 hin
      obtain ⟨x, hx, hf⟩ := Option.bind_eq_some_iff.1 hf
      cases hf
      -- the entry that is read is not empty, and nobody outranks its owner
      have ho : s.Owns h (column slot) r n := ⟨ht, Nat.pos_of_ne_zero hn⟩
      have hw := (isOutranked_eq_false_iff ho).1 (Bool.eq_false_of_not_eq_true hrank)
      exact ⟨hw, n, x, ho, hx, rfl⟩
  · rintro ⟨hw, n, x, ho, hx, rfl⟩
    refine ⟨⟨p, n⟩, ho.1, ?_⟩
    have hin : ¬ (n = 0 ∨ s.isOutranked h (column slot) ⟨p, n⟩ = true) := by
      rw [(isOutranked_eq_false_iff ho).2 hw]
      exact not_or.2 ⟨Nat.ne_of_gt ho.2, Bool.false_ne_true⟩
    rw [if_neg hin]
    exact Option.bind_eq_some_iff.2 ⟨x, hx, rfl⟩

theorem wins_congr (hs : ∀ k p l, s'.Owns k c p l ↔ s.Owns k c p l) :
    s'.Wins c p h ↔ s.Wins c p h := by
  simp only [Wins, hs]

/-- What the entries without an owner say makes no difference. -/
theorem fetch?_congr (hs : ∀ k p l, s'.Owns k (column slot) p l ↔ s.Owns k (column slot) p l) :
    s'.fetch? ps h slot now = s.fetch? ps h slot now := by
  apply Option.ext
  rintro ⟨p, q⟩
  simp only [fetch?_eq_some_iff, wins_congr hs, hs]

end Schedule

namespace Machine

variable {m : Machine}

/-- A hart fetches a process exactly if it wins the process and can acquire it. -/
theorem fetch_eq_some_iff {slot now : Nat} :
    ((fetch h slot now).exec m).1 = some p ↔
      m.schedule.Wins (Schedule.column slot) p h ∧ ((m.processes.get p).acquire? now).isSome := by
  have hfetch : ((fetch h slot now).exec m).1 = some p ↔
      ∃ q, m.schedule.fetch? m.processes h slot now = some (p, q) := by
    unfold fetch
    rw [Action.exec_bind]
    dsimp only [Action.exec_get]
    split
    · next r x hf =>
      rw [hf]
      constructor
      · rintro ⟨⟩
        exact ⟨x, rfl⟩
      · rintro ⟨q, ⟨⟩⟩
        rfl
    · next hf =>
      rw [hf]
      constructor
      · rintro ⟨⟩
      · rintro ⟨q, ⟨⟩⟩
  rw [hfetch]
  simp only [Schedule.fetch?_eq_some_iff, Option.isSome_iff_exists]
  constructor
  · rintro ⟨q, hw, n, x, _, hx, _⟩
    exact ⟨hw, x, hx⟩
  · rintro ⟨hw, x, hx⟩
    -- the deadline follows from the length of the turn
    obtain ⟨n, ho, _⟩ := id hw
    exact ⟨_, hw, n, x, ho, hx, rfl⟩

/-- Where nobody is fetched, nothing happens. -/
theorem fetch_of_eq_none {slot now : Nat} (hf : ((fetch h slot now).exec m).1 = none) :
    ((fetch h slot now).exec m).2 = m := by
  unfold fetch at hf ⊢
  rw [Action.exec_bind] at hf ⊢
  dsimp only [Action.exec_get] at hf ⊢
  split at hf
  · cases hf
  · rfl

/-- With a given schedule, may a hart ever get a process for a slot? -/
def Fetches (s : Schedule) (h : Hart) (slot : Nat) (p : Pid) : Prop :=
  ∃ m now, m.schedule = s ∧ ((fetch h slot now).exec m).1 = some p

def withReady (s : Schedule) (p : Pid) : Machine :=
  { initial with
    schedule := s
    processes := Processes.blank.put p { Process.blank with status := .ready } }

/-- It is the winner of the slot who can get the process. -/
theorem fetches_iff {s : Schedule} {slot : Nat} :
    Fetches s h slot p ↔ s.Wins (Schedule.column slot) p h := by
  constructor
  · rintro ⟨m, now, rfl, hf⟩
    exact (fetch_eq_some_iff.1 hf).1
  · intro hw
    refine ⟨withReady s p, 0, rfl, fetch_eq_some_iff.2 ⟨hw, ?_⟩⟩
    rw [withReady, Processes.get_put_self]
    rfl

end Machine

/-- In every slot, a process that owns it on some hart can be had by one hart, the one with the most
slots left and, of those, with the lowest number. A hart gets whom it wins the slot with, if that
process can be had at the time; where it gets nobody, nothing happens. Entries that nobody owns do
not outrank anybody, and what they say makes no difference. -/
theorem fetch_single_winner (s : Schedule) (slot : Nat) :
    (∀ p h n, s.Owns h (Schedule.column slot) p n →
      ∃ w, s.Wins (Schedule.column slot) p w ∧ ∀ k, Machine.Fetches s k slot p ↔ k = w) ∧
    (∀ m : Machine, m.schedule = s → ∀ h now,
      (∀ p, ((Machine.fetch h slot now).exec m).1 = some p ↔
        s.Wins (Schedule.column slot) p h ∧ ((m.processes.get p).acquire? now).isSome) ∧
      (((Machine.fetch h slot now).exec m).1 = none →
        ((Machine.fetch h slot now).exec m).2 = m)) ∧
    (∀ p h n, s.Owns h (Schedule.column slot) p n →
      (∀ k, k ≠ h → ∀ t, s.get k (Schedule.column slot) = some t → t.length = 0) →
      s.Wins (Schedule.column slot) p h) ∧
    ∀ s' : Schedule,
      (∀ k p l, s'.Owns k (Schedule.column slot) p l ↔ s.Owns k (Schedule.column slot) p l) →
      ∀ ps h now, s'.fetch? ps h slot now = s.fetch? ps h slot now := by
  refine ⟨?winner, ?fetched, ?alone, fun s' hs ps h now => Schedule.fetch?_congr hs⟩
  case winner =>
    intro p h n ho
    obtain ⟨w, hw⟩ := Schedule.exists_wins ho
    refine ⟨w, hw, fun k => ?_⟩
    rw [Machine.fetches_iff]
    constructor
    · exact fun hk => hw.unique hk
    · intro hk
      rwa [hk]
  case fetched =>
    intro m hm h now
    subst hm
    exact ⟨fun p => Machine.fetch_eq_some_iff, Machine.fetch_of_eq_none⟩
  case alone =>
    intro p h n ho halone
    refine ⟨n, ho, fun k l hl => ?_⟩
    by_cases hk : k = h
    · subst hk
      exact .inr ⟨ho.length_unique hl, Nat.le_refl _⟩
    · -- nobody else has a turn there
      exact absurd (halone k hk ⟨p, l⟩ hl.1) (Nat.ne_of_gt hl.2)

/-- Of three harts, the one with the longest run gets the process. -/
theorem fetch_single_winner_longest : ∃ s : Schedule,
    s = ((Schedule.blank.assign 0 3 0 8 8).assign 1 3 0 8 8).assign 2 3 0 16 16 ∧
      s.Owns 0 (Schedule.column 64) 3 8 ∧ ∀ k, Machine.Fetches s k 64 3 ↔ k = 2 := by
  obtain ⟨s, hs⟩ : ∃ s : Schedule,
      s = ((Schedule.blank.assign 0 3 0 8 8).assign 1 3 0 8 8).assign 2 3 0 16 16 := ⟨_, rfl⟩
  have ho : s.Owns 0 (Schedule.column 64) 3 8 := by
    rw [hs]
    exact ⟨by decide, by decide⟩
  have hlongest : s.Wins (Schedule.column 64) 3 2 := by
    have hn : s.Owns 2 (Schedule.column 64) 3 16 := by
      rw [hs]
      exact ⟨by decide, by decide⟩
    -- harts 0 and 1 have eight slots each, hart 2 has sixteen
    apply (Schedule.isOutranked_eq_false_iff hn).1
    rw [hs]
    decide
  obtain ⟨w, hw, hfetches⟩ := (fetch_single_winner s 64).1 3 0 8 ho
  obtain rfl := hlongest.unique hw
  exact ⟨s, hs, ho, hfetches⟩

end SepKernel
