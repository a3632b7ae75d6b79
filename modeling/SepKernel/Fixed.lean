/-!
# Tables of fixed size

A table has an entry for each number below its size. An index is in range by its type, and `index?`
makes one from a number. `lookup_replace` says all there is to say about writing an entry.
-/

namespace SepKernel

/-- The index `n` if it is below the size `k`. -/
def index? (k n : Nat) : Option (Fin k) :=
  if h : n < k then some ⟨n, h⟩ else none

theorem index?_eq_some_iff {k n : Nat} {i : Fin k} : index? k n = some i ↔ i.val = n := by
  unfold index?
  split
  · simp [Fin.ext_iff, eq_comm]
  · simp; omega

theorem index?_eq_none_iff {k n : Nat} : index? k n = none ↔ k ≤ n := by
  unfold index?
  split <;> simp <;> omega

@[simp] theorem index?_val {k : Nat} (i : Fin k) : index? k i.val = some i :=
  index?_eq_some_iff.2 rfl

variable {α : Type} {n : Nat}

def lookup (v : Vector α n) (i : Fin n) : α := v[i]

def replace (v : Vector α n) (i : Fin n) (a : α) : Vector α n := v.set i a

theorem lookup_replace (v : Vector α n) (i j : Fin n) (a : α) :
    lookup (replace v i a) j = if i = j then a else lookup v j := by
  simp [lookup, replace, Vector.getElem_set, Fin.ext_iff]

@[simp] theorem lookup_replicate (a : α) (i : Fin n) : lookup (.replicate n a) i = a := by
  simp [lookup]

@[simp] theorem lookup_ofFn (f : Fin n → α) (i : Fin n) : lookup (.ofFn f) i = f i := by
  simp [lookup]

theorem lookup_ext {v w : Vector α n} (h : ∀ i, lookup v i = lookup w i) : v = w := by
  ext i hi
  exact h ⟨i, hi⟩

end SepKernel
