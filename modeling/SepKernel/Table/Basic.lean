import SepKernel.Capability.Basic
import SepKernel.Error
import SepKernel.Table.Slot

/-!
# The capability table

Each slot holds a capability and two links. The links string a capability together with what was
derived from it, and what it was derived from, whichever processes hold them: a line of slots in
which a child stands directly after its parent. A capability without a parent begins a line of its
own.

`entry_put` says what writing one entry does to the others; the operations are made of such writes.
-/

namespace SepKernel

structure Entry where
  capability : Capability
  previous : Option Slot
  next : Option Slot
  deriving DecidableEq, Repr

def Entry.vacant : Entry := ⟨.null, none, none⟩

structure Table where
  entries : Vector Entry 256
  deriving DecidableEq

namespace Table

def blank : Table := ⟨.replicate 256 .vacant⟩

/-! ## Single entries -/

def entry (t : Table) (s : Slot) : Entry :=
  lookup t.entries s.number

def put (t : Table) (s : Slot) (e : Entry) : Table :=
  ⟨replace t.entries s.number e⟩

theorem entry_put (t : Table) (s u : Slot) (e : Entry) :
    (t.put s e).entry u = if s = u then e else t.entry u := by
  simp only [entry, put, lookup_replace, Slot.number_inj]

@[simp] theorem entry_blank (s : Slot) : blank.entry s = .vacant := by
  simp [entry, blank]

@[ext] theorem ext {t u : Table} (h : ∀ s, t.entry s = u.entry s) : t = u :=
  congrArg mk (lookup_ext fun i => by simpa [entry] using h (.ofNumber i))

def get (t : Table) (s : Slot) : Capability := (t.entry s).capability

@[simp] theorem get_blank (s : Slot) : blank.get s = .null := by
  simp [get, Entry.vacant]

def previous (t : Table) (s : Slot) : Option Slot := (t.entry s).previous

def next (t : Table) (s : Slot) : Option Slot := (t.entry s).next

def read (t : Table) (s : Slot) : Except Error Capability :=
  if (t.get s).isNull then throw .empty else pure (t.get s)

/-! ## Links -/

/-- Let `next` follow the slot, if there is one. -/
def linkNext (t : Table) (s : Option Slot) (next : Option Slot) : Table :=
  match s with
  | none => t
  | some s => t.put s { t.entry s with next }

/-- Let `previous` precede the slot, if there is one. -/
def linkPrevious (t : Table) (s : Option Slot) (previous : Option Slot) : Table :=
  match s with
  | none => t
  | some s => t.put s { t.entry s with previous }

/-! ## Operations -/

def set (t : Table) (s : Slot) (c : Capability) : Table :=
  t.put s { t.entry s with capability := c }

/-- Begin a line with a capability in a vacant slot. -/
def insertRoot (t : Table) (s : Slot) (c : Capability) : Table :=
  t.put s ⟨c, none, none⟩

/-- Put a capability into a vacant slot, directly after its parent. -/
def insertAfter (t : Table) (parent s : Slot) (c : Capability) : Table :=
  let next := t.next parent
  ((t.put s ⟨c, some parent, next⟩).linkNext parent s).linkPrevious next s

/-- Vacate a slot and close the gap in its line. -/
def unlink (t : Table) (s : Slot) : Table :=
  let e := t.entry s
  ((t.linkNext e.previous e.next).linkPrevious e.next e.previous).put s .vacant

/-- Let a vacant slot take the place of an occupied one, with a new capability. -/
def relink (t : Table) (source target : Slot) (c : Capability) : Table :=
  let e := t.entry source
  (((t.put target { e with capability := c }).linkNext e.previous target).linkPrevious e.next
    target).put source .vacant

/-! ## Views -/

/-- The occupied slots of a process, in order, with their capabilities. -/
def ofProcess (t : Table) (p : Pid) : List (Slot × Capability) :=
  ((Slot.ofProcess p).map fun s => (s, t.get s)).filter fun sc => !sc.2.isNull

/-- At most `n` slots along the links from a slot on. -/
def walk (t : Table) : Nat → Option Slot → List Slot
  | 0, _ | _, none => []
  | n + 1, some s => s :: t.walk n (t.next s)

/-- The slots after this one in its line. A line visits no slot twice, so the size of the table
bounds the walk. -/
def following (t : Table) (s : Slot) : List Slot :=
  t.walk tableSize (t.next s)

/-- Are the links of a slot answered by its neighbours, or, if the slot is vacant, absent? -/
def isConsistentAt (t : Table) (s : Slot) : Bool :=
  if (t.get s).isNull then
    t.previous s == none && t.next s == none
  else
    (t.previous s).all (fun p => t.next p == some s)
      && (t.next s).all (fun n => t.previous n == some s)

/-- Are all links answered? -/
def isConsistent (t : Table) : Bool :=
  Slot.all.all t.isConsistentAt

theorem isConsistent_iff {t : Table} :
    t.isConsistent = true ↔ ∀ s, t.isConsistentAt s = true := by
  simp [isConsistent, Slot.mem_all]

end Table

end SepKernel
