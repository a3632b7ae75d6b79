import Mathlib.Data.List.Nodup
import Mathlib.Data.List.Pairwise
import SepKernel.Proofs.Table.Order

/-!
# The table as sequences of slots

What the links of a table mean is a collection of sequences of slots without a slot in common. The
operations of the table are splices of pointers; on the sequences they begin a new one, put a slot
behind another, let a slot take the place of another, or take one out.

A table *realizes* a layout if the links say what the sequences say. Every operation that the table
is ready for keeps it so, and the layout follows the operation (`Realizes.splice`). Therefore a
blank table, after any operations, realizes the layout that the same operations make of the empty
one: no slot stands in two places, and no line runs in a circle, although the test for consistency
only compares neighbours.
-/

namespace SepKernel
namespace Table

variable {t : Table} {s x y p source target : Slot} {o : Option Slot} {l : List Slot}
  {c : Capability}

/-! ## Operations as values -/

inductive Splice where
  | insertRoot (s : Slot) (c : Capability)
  | insertAfter (parent s : Slot) (c : Capability)
  | set (s : Slot) (c : Capability)
  | unlink (s : Slot)
  | relink (source target : Slot) (c : Capability)

def splice (t : Table) : Splice → Table
  | .insertRoot s c => t.insertRoot s c
  | .insertAfter parent s c => t.insertAfter parent s c
  | .set s c => t.set s c
  | .unlink s => t.unlink s
  | .relink source target c => t.relink source target c

/-- Are the slots of an operation occupied and vacant as it needs them, and does it place a
capability? A vacant slot may be unlinked as well. -/
def Ready (t : Table) : Splice → Prop
  | .insertRoot s c => t.get s = .null ∧ c ≠ .null
  | .insertAfter parent s c => t.get parent ≠ .null ∧ t.get s = .null ∧ c ≠ .null
  | .set s c => t.get s ≠ .null ∧ c ≠ .null
  | .unlink _ => True
  | .relink source target c => t.get source ≠ .null ∧ t.get target = .null ∧ c ≠ .null

instance (t : Table) : (d : Splice) → Decidable (t.Ready d)
  | .insertRoot .. | .insertAfter .. | .set .. | .relink .. => inferInstanceAs (Decidable (_ ∧ _))
  | .unlink .. => inferInstanceAs (Decidable True)

def ReadyAll (t : Table) : List Splice → Prop
  | [] => True
  | d :: ds => t.Ready d ∧ (t.splice d).ReadyAll ds

instance decidableReadyAll (t : Table) : (ds : List Splice) → Decidable (t.ReadyAll ds)
  | [] => inferInstanceAs (Decidable True)
  | d :: ds =>
    have := decidableReadyAll (t.splice d) ds
    inferInstanceAs (Decidable (_ ∧ _))

def run (t : Table) (ds : List Splice) : Table :=
  ds.foldl splice t

/-! ## Layouts -/

/-- Sequences of slots, and what the slots hold. -/
structure Layout where
  lines : List (List Slot)
  contents : Slot → Capability

namespace Layout

def empty : Layout := ⟨[], fun _ => .null⟩

def behind (p s : Slot) (l : List Slot) : List Slot :=
  l.flatMap fun x => if x = p then [p, s] else [x]

def substitute (source target : Slot) (l : List Slot) : List Slot :=
  l.map fun x => if x = source then target else x

def without (s : Slot) (l : List Slot) : List Slot :=
  l.filter (· ≠ s)

/-- What an operation does to the sequences and to the contents. -/
def splice (L : Layout) : Splice → Layout
  | .insertRoot s c => ⟨[s] :: L.lines, Function.update L.contents s c⟩
  | .insertAfter parent s c => ⟨L.lines.map (behind parent s), Function.update L.contents s c⟩
  | .set s c => ⟨L.lines, Function.update L.contents s c⟩
  | .unlink s => ⟨(L.lines.map (without s)).filter (· ≠ []), Function.update L.contents s .null⟩
  | .relink source target c =>
    ⟨L.lines.map (substitute source target),
      Function.update (Function.update L.contents source .null) target c⟩

def run (L : Layout) (ds : List Splice) : Layout :=
  ds.foldl splice L

end Layout

/-- The links of the slots lead along the sequence, which comes after `o`, and end with it. -/
def Linked (t : Table) : Option Slot → List Slot → Prop
  | _, [] => True
  | o, x :: l => t.previous x = o ∧ t.next x = l.head? ∧ t.Linked (some x) l

/-- The links of the table say what the sequences say, every occupied slot stands in them once, and
the contents are those of the table. -/
structure Realizes (t : Table) (L : Layout) : Prop where
  strung : t.Strung
  linked : ∀ l ∈ L.lines, t.Linked none l
  begun : ∀ l ∈ L.lines, l ≠ []
  nodup : L.lines.flatten.Nodup
  occupied : ∀ s, s ∈ L.lines.flatten ↔ t.get s ≠ .null
  contents : ∀ s, t.get s = L.contents s

/-! ## One sequence -/

/-- A sequence stays linked if no link of its slots changes. -/
theorem Linked.congr {t' : Table} (h : ∀ x ∈ l, t'.next x = t.next x ∧ t'.previous x = t.previous x)
    (hl : t.Linked o l) : t'.Linked o l := by
  induction l generalizing o with
  | nil => trivial
  | cons x l ih =>
    obtain ⟨hp, hn, hl⟩ := hl
    obtain ⟨hn', hp'⟩ := h x List.mem_cons_self
    exact ⟨hp'.trans hp, hn'.trans hn, ih (fun y hy => h y (List.mem_cons_of_mem x hy)) hl⟩

/-- A child never comes first, so that the head of a sequence stays. -/
theorem head?_behind (p s : Slot) (l : List Slot) : (Layout.behind p s l).head? = l.head? := by
  cases l with
  | nil => rfl
  | cons x l =>
    rw [Layout.behind, List.flatMap_cons]
    split
    · next hx => simp [hx]
    · rfl

/-- The induction is on the sequence: if it came after the parent, it comes after the child now. -/
theorem Strung.linked_behind (h : t.Strung) (hp : t.get p ≠ .null) (hs : t.get s = .null)
    (c : Capability) (hl : t.Linked o l) (hsl : s ∉ l) :
    (t.insertAfter p s c).Linked (if o = some p then some s else o) (Layout.behind p s l) := by
  induction l generalizing o with
  | nil => trivial
  | cons x l ih =>
    obtain ⟨hpx, hnx, hl⟩ := hl
    obtain ⟨hsx, hsl⟩ : s ≠ x ∧ s ∉ l := by simpa using hsl
    have hps : p ≠ s := ne_of_vacant hp hs
    -- the child goes between the parent and what followed it
    have hp' : (t.insertAfter p s c).previous x = if o = some p then some s else o := by
      rw [h.previous_insertAfter hp hs, if_neg hsx, hpx]
      exact if_congr (by rw [h.answered, hpx]) rfl rfl
    have ih := ih hl hsl
    rw [Layout.behind, List.flatMap_cons, ← Layout.behind]
    by_cases hxp : x = p
    · subst hxp
      rw [if_pos rfl] at ih ⊢
      refine ⟨hp', ?_, ?_, ?_, ih⟩
      · rw [h.next_insertAfter hp hs, if_neg hps.symm, if_pos rfl]
        rfl
      · rw [h.previous_insertAfter hp hs, if_pos rfl]
      · rw [h.next_insertAfter hp hs, if_pos rfl, hnx]
        exact (head?_behind x s l).symm
    · rw [if_neg (by simpa using hxp)] at ih
      rw [if_neg hxp]
      refine ⟨hp', ?_, ih⟩
      rw [h.next_insertAfter hp hs, if_neg hsx, if_neg (Ne.symm hxp), hnx]
      exact (head?_behind p s l).symm

/-- A sequence that began with the vacated slot begins with what followed it. -/
theorem Strung.head?_without (h : t.Strung) (hl : t.Linked o l) :
    (Layout.without s l).head? = if l.head? = some s then t.next s else l.head? := by
  cases l with
  | nil => rfl
  | cons x l =>
    obtain ⟨-, hn, -⟩ := hl
    by_cases hx : x = s
    · subst hx
      rw [Layout.without, List.filter_cons_of_neg (by simp), List.head?_cons, if_pos rfl, hn]
      cases l with
      | nil => rfl
      | cons y l =>
        -- no slot follows itself
        have hy : y ≠ x := fun hy => h.next_ne_self x (by rw [hn, hy]; rfl)
        rw [List.filter_cons_of_pos (by simpa using hy)]
        rfl
    · rw [Layout.without, List.filter_cons_of_pos (by simpa using hx), List.head?_cons,
        List.head?_cons, if_neg (by simpa using hx)]

/-- Where the sequence passes the vacated slot, it skips it. -/
theorem Strung.linked_without (h : t.Strung) (s : Slot) (hl : t.Linked o l) :
    (t.unlink s).Linked (if o = some s then t.previous s else o) (Layout.without s l) := by
  induction l generalizing o with
  | nil => trivial
  | cons x l ih =>
    obtain ⟨hp, hn, hl⟩ := hl
    have ih := ih hl
    by_cases hx : x = s
    · subst hx
      -- the one before it is not the slot itself
      have ho : o ≠ some x := fun ho => h.next_ne_self x ((h.answered x x).2 (hp.trans ho))
      rw [if_pos rfl, hp] at ih
      rw [if_neg ho, Layout.without, List.filter_cons_of_neg (by simp)]
      exact ih
    · rw [if_neg (by simpa using hx)] at ih
      rw [Layout.without, List.filter_cons_of_pos (by simpa using hx)]
      refine ⟨?_, ?_, ih⟩
      · rw [h.previous_unlink hx, hp]
      · rw [h.next_unlink hx, hn]
        exact (h.head?_without hl).symm

/-- Exchanging two slots in the table exchanges them in the sequence. -/
theorem Strung.linked_swap (h : t.Strung) (hs : t.get source ≠ .null) (ht : t.get target = .null)
    (c : Capability) (hl : t.Linked o l) :
    (t.relink source target c).Linked (o.map (Equiv.swap source target))
      (l.map (Equiv.swap source target)) := by
  induction l generalizing o with
  | nil => trivial
  | cons x l ih =>
    obtain ⟨hp, hn, hl⟩ := hl
    obtain ⟨hn', hp'⟩ := h.links_relink hs ht c x
    refine ⟨by rw [hp', hp], ?_, ih hl⟩
    rw [hn', hn, List.head?_map]

/-- A sequence without the target does not tell an exchange from a substitution. -/
theorem map_swap_eq_substitute (ht : target ∉ l) :
    l.map (Equiv.swap source target) = Layout.substitute source target l := by
  apply List.map_congr_left
  intro x hx
  have hxt : x ≠ target := fun he => ht (he ▸ hx)
  split
  · next hxs => rw [hxs, Equiv.swap_apply_left]
  · next hxs => exact Equiv.swap_apply_of_ne_of_ne hxs hxt

/-! ## All sequences

What is done to each of the sequences is done to all slots in a row. -/

theorem flatten_map_behind (p s : Slot) (ls : List (List Slot)) :
    (ls.map (Layout.behind p s)).flatten = Layout.behind p s ls.flatten := by
  induction ls with
  | nil => rfl
  | cons l ls ih => simp [Layout.behind, ih]

/-- The sequences gain the child wherever they have the parent, and nothing else. -/
theorem mem_behind : x ∈ Layout.behind p s l ↔ x ∈ l ∨ x = s ∧ p ∈ l := by
  induction l with
  | nil => simp [Layout.behind]
  | cons y l ih =>
    rw [Layout.behind, List.flatMap_cons, List.mem_append, ← Layout.behind, ih]
    by_cases hy : y = p
    · simp only [hy, if_true, List.mem_cons, List.not_mem_nil, or_false]
      tauto
    · simp only [hy, if_false, List.mem_cons, List.not_mem_nil, or_false, Ne.symm hy, false_or]
      tauto

/-- The parent stands in a sequence at most once, and so does a child that was not there before. -/
theorem nodup_behind (hs : s ∉ l) (hl : l.Nodup) : (Layout.behind p s l).Nodup := by
  induction l with
  | nil => exact List.nodup_nil
  | cons x l ih =>
    obtain ⟨hsx, hs⟩ : s ≠ x ∧ s ∉ l := by simpa using hs
    obtain ⟨hx, hl⟩ := List.nodup_cons.1 hl
    have ih := ih hs hl
    rw [Layout.behind, List.flatMap_cons, ← Layout.behind]
    by_cases hxp : x = p
    · -- behind the parent no other copy of it comes, and so no other copy of the child
      subst hxp
      rw [if_pos rfl]
      refine List.nodup_cons.2 ⟨?_, List.nodup_cons.2 ⟨?_, ih⟩⟩
      · simp [mem_behind, hx, Ne.symm hsx]
      · simp [mem_behind, hs, hx]
    · rw [if_neg hxp]
      refine List.nodup_cons.2 ⟨?_, ih⟩
      simp [mem_behind, hx, Ne.symm hsx]

theorem flatten_map_without (s : Slot) (ls : List (List Slot)) :
    ((ls.map (Layout.without s)).filter (· ≠ [])).flatten = Layout.without s ls.flatten := by
  rw [List.flatten_filter_ne_nil, Layout.without, List.filter_flatten]
  rfl

theorem mem_without : x ∈ Layout.without s l ↔ x ∈ l ∧ x ≠ s := by
  simp [Layout.without]

theorem flatten_map_substitute (ls : List (List Slot)) :
    (ls.map (Layout.substitute source target)).flatten =
      Layout.substitute source target ls.flatten :=
  List.map_flatten.symm

/-! ## One operation -/

section Realizes
variable {L : Layout}

/-- A blank table has no links. -/
theorem strung_blank : blank.Strung where
  answered x y := by simp [next, previous, Entry.vacant]
  vacant x _ := by simp [next, previous, Entry.vacant]
  ends x := ⟨[], .last (by simp [next, Entry.vacant])⟩

/-- A blank table is laid out in no sequences. -/
theorem realizes_blank : blank.Realizes .empty where
  strung := strung_blank
  linked := by simp [Layout.empty]
  begun := by simp [Layout.empty]
  nodup := by simp [Layout.empty]
  occupied s := by simp [Layout.empty, get_blank]
  contents s := get_blank s

namespace Realizes

/-- The contents after one slot was written. -/
theorem contents_update (h : t.Realizes L) {t' : Table}
    (hg : ∀ x, t'.get x = if s = x then c else t.get x) (x : Slot) :
    t'.get x = Function.update L.contents s c x := by
  rw [hg, Function.update_apply, h.contents]
  exact if_congr eq_comm rfl rfl

theorem not_mem (h : t.Realizes L) (hs : t.get s = .null) : s ∉ L.lines.flatten :=
  fun hm => (h.occupied s).1 hm hs

theorem not_mem_line (h : t.Realizes L) (hs : t.get s = .null) (hl : l ∈ L.lines) : s ∉ l :=
  fun hm => h.not_mem hs (List.mem_flatten_of_mem hl hm)

/-- A root begins a sequence of its own. -/
theorem insertRoot (h : t.Realizes L) (hs : t.get s = .null) (hc : c ≠ .null) :
    (t.insertRoot s c).Realizes (L.splice (.insertRoot s c)) where
  strung := by
    refine h.strung.congr (fun x => (h.strung.links_insertRoot hs c x).1)
      (fun x => (h.strung.links_insertRoot hs c x).2) ?_
    intro x hx
    rw [get_insertRoot] at hx
    split at hx
    · exact absurd hx hc
    · exact hx
  linked := by
    intro l hl
    -- the new line has one slot, and the others are as they were
    have hlinks := h.strung.links_insertRoot hs c
    rcases List.mem_cons.1 hl with rfl | hl
    · refine ⟨?_, ?_, trivial⟩
      · rw [(hlinks s).2, (h.strung.vacant s hs).2]
      · rw [(hlinks s).1, (h.strung.vacant s hs).1]
        rfl
    · exact (h.linked l hl).congr fun x _ => hlinks x
  begun := by
    intro l hl
    rcases List.mem_cons.1 hl with rfl | hl
    · simp
    · exact h.begun l hl
  nodup := List.nodup_cons.2 ⟨h.not_mem hs, h.nodup⟩
  occupied x := by
    rw [get_insertRoot]
    show x ∈ s :: L.lines.flatten ↔ _
    rw [List.mem_cons, h.occupied]
    by_cases hx : s = x
    · simp [hx, hc]
    · simp [hx, Ne.symm hx]
  contents := h.contents_update (fun x => get_insertRoot t s x c)

/-- A child goes into the sequence of its parent, directly behind it; the other sequences do not
have the parent and stay. -/
theorem insertAfter (h : t.Realizes L) (hp : t.get p ≠ .null) (hs : t.get s = .null)
    (hc : c ≠ .null) : (t.insertAfter p s c).Realizes (L.splice (.insertAfter p s c)) where
  strung := h.strung.insertAfter hp hs hc
  linked := by
    intro l hl
    obtain ⟨k, hk, rfl⟩ := List.mem_map.1 hl
    exact h.strung.linked_behind hp hs c (h.linked k hk) (h.not_mem_line hs hk)
  begun := by
    intro l hl
    obtain ⟨k, hk, rfl⟩ := List.mem_map.1 hl
    -- a line that has begun is not empty
    rw [ne_eq, ← List.head?_eq_none_iff, head?_behind, List.head?_eq_none_iff]
    exact h.begun k hk
  nodup := by
    rw [Layout.splice, flatten_map_behind]
    exact nodup_behind (h.not_mem hs) h.nodup
  occupied x := by
    rw [Layout.splice, flatten_map_behind, mem_behind, h.strung.get_insertAfter hp hs, h.occupied,
      h.occupied]
    by_cases hx : s = x
    · simp [← hx, hp, hc]
    · simp [hx, Ne.symm hx]
  contents := h.contents_update (h.strung.get_insertAfter hp hs c)

/-- Replacing a capability leaves the sequences alone. -/
theorem set (h : t.Realizes L) (hs : t.get s ≠ .null) (hc : c ≠ .null) :
    (t.set s c).Realizes (L.splice (.set s c)) where
  strung := h.strung.set hc
  linked l hl := (h.linked l hl).congr fun x _ => ⟨next_set t s x c, previous_set t s x c⟩
  begun := h.begun
  nodup := h.nodup
  occupied x := by
    show x ∈ L.lines.flatten ↔ _
    rw [h.occupied, get_set]
    by_cases hx : s = x
    · simp [← hx, hs, hc]
    · simp [hx]
  contents := h.contents_update (fun x => get_set t s x c)

/-- A slot that is vacated goes out of its sequence, which may be gone with it. -/
theorem unlink (h : t.Realizes L) (s : Slot) : (t.unlink s).Realizes (L.splice (.unlink s)) where
  strung := h.strung.unlink s
  linked := by
    intro l hl
    obtain ⟨k, hk, rfl⟩ := List.mem_map.1 (List.mem_of_mem_filter hl)
    exact h.strung.linked_without s (h.linked k hk)
  begun l hl := by simpa using (List.mem_filter.1 hl).2
  nodup := by
    rw [Layout.splice, flatten_map_without]
    exact h.nodup.filter _
  -- the sequences without the slot hold what is left
  occupied x := by
    rw [Layout.splice, flatten_map_without, mem_without, h.occupied, get_unlink]
    by_cases hx : s = x
    · simp [hx]
    · simp [hx, Ne.symm hx]
  contents := h.contents_update (fun x => get_unlink t s x)

/-- A move puts one slot in the place of the other, in the one sequence that has the first. -/
theorem relink (h : t.Realizes L) (hs : t.get source ≠ .null) (ht : t.get target = .null)
    (hc : c ≠ .null) :
    (t.relink source target c).Realizes (L.splice (.relink source target c)) where
  strung := h.strung.relink hs ht hc
  linked := by
    intro l hl
    obtain ⟨k, hk, rfl⟩ := List.mem_map.1 hl
    rw [← map_swap_eq_substitute (h.not_mem_line ht hk)]
    exact h.strung.linked_swap hs ht c (h.linked k hk)
  begun := by
    intro l hl
    obtain ⟨k, hk, rfl⟩ := List.mem_map.1 hl
    simpa [Layout.substitute] using h.begun k hk
  nodup := by
    rw [Layout.splice, flatten_map_substitute, ← map_swap_eq_substitute (h.not_mem ht)]
    exact h.nodup.map (Equiv.swap source target).injective
  occupied x := by
    have hst := ne_of_vacant hs ht
    rw [Layout.splice, flatten_map_substitute, ← map_swap_eq_substitute (h.not_mem ht),
      h.strung.get_relink ht, List.mem_map]
    -- every slot is the exchanged one of some slot
    obtain ⟨x, rfl⟩ := (Equiv.swap source target).surjective x
    simp only [EmbeddingLike.apply_eq_iff_eq, exists_eq_right]
    rw [h.occupied]
    by_cases hxs : x = source
    · simp [hxs, hs, hst, hc]
    · by_cases hxt : x = target
      · simp [hxt, ht]
      · simp [Equiv.swap_apply_of_ne_of_ne hxs hxt, Ne.symm hxs, Ne.symm hxt]
  contents x := by
    show _ = Function.update (Function.update L.contents source .null) target c x
    rw [h.strung.get_relink ht, Function.update_apply, Function.update_apply, h.contents]
    have hst := ne_of_vacant hs ht
    by_cases hxs : source = x
    · simp [← hxs, hst]
    · simp [hxs, Ne.symm hxs, @eq_comm _ x target]

/-- Every operation that the table is ready for does to the sequences what it is meant to do. -/
theorem splice (h : t.Realizes L) {d : Splice} (hd : t.Ready d) :
    (t.splice d).Realizes (L.splice d) := by
  cases d with
  | insertRoot s c => exact h.insertRoot hd.1 hd.2
  | insertAfter p s c => exact h.insertAfter hd.1 hd.2.1 hd.2.2
  | set s c => exact h.set hd.1 hd.2
  | unlink s => exact h.unlink s
  | relink source target c => exact h.relink hd.1 hd.2.1 hd.2.2

/-! ## Many operations -/

/-- A list of operations is carried out on both sides. -/
theorem run (h : t.Realizes L) {ds : List Splice} (hds : t.ReadyAll ds) :
    (t.run ds).Realizes (L.run ds) := by
  induction ds generalizing t L with
  | nil => exact h
  | cons d ds ih => exact ih (h.splice hds.1) hds.2

/-- An occupied slot stands in one sequence only. -/
theorem existsUnique_line (h : t.Realizes L) (s : Slot) :
    t.get s ≠ .null ↔ ∃! l, l ∈ L.lines ∧ s ∈ l := by
  rw [← h.occupied, List.mem_flatten]
  constructor
  · rintro ⟨l, hl, hs⟩
    refine ⟨l, ⟨hl, hs⟩, ?_⟩
    rintro k ⟨hk, hsk⟩
    -- two sequences have no slot in common
    by_contra hne
    have : Std.Symm (List.Disjoint (α := Slot)) := ⟨fun _ _ hd => hd.symm⟩
    have hd := (List.nodup_flatten.1 h.nodup).2.forall hk hl hne
    exact hd hsk hs
  · rintro ⟨l, ⟨hl, hs⟩, -⟩
    exact ⟨l, hl, hs⟩

end Realizes
end Realizes

/-- Whatever was done to a blank table, its links are sequences of slots without a circle and
without a slot in common; what was done is what the operations do to sequences. -/
theorem realizes_run {ds : List Splice} (h : blank.ReadyAll ds) :
    (blank.run ds).Realizes (Layout.empty.run ds) ∧
      (∀ s, (blank.run ds).get s ≠ .null ↔ ∃! l, l ∈ (Layout.empty.run ds).lines ∧ s ∈ l) ∧
      (blank.run ds).isConsistent = true := by
  have hr := realizes_blank.run h
  exact ⟨hr, hr.existsUnique_line, hr.strung.isConsistent⟩

/-- A line of three slots whose first is vacated and comes back behind the last one, and a line of
its own. -/
def braid (a b d e : Slot) : List Splice :=
  [.insertRoot a (.wholeChannel 0 8), .insertAfter a b (.wholeChannel 0 4),
    .relink b d (.wholeChannel 0 4), .insertAfter a b (.wholeChannel 4 8), .unlink a,
    .insertAfter d a (.wholeChannel 0 2), .set d (.wholeChannel 2 4),
    .insertRoot e (.wholeMonitor 0 8)]

/-- The operations of `braid` end in the two sequences that it is meant for. -/
theorem realizes_run_braid :
    ∃ ops, ops = braid ⟨0, 0⟩ ⟨0, 1⟩ ⟨3, 7⟩ ⟨5, 0⟩ ∧ blank.ReadyAll ops ∧
      (Layout.empty.run ops).lines = [[⟨5, 0⟩], [⟨0, 1⟩, ⟨3, 7⟩, ⟨0, 0⟩]] ∧
      (blank.run ops).Realizes (Layout.empty.run ops) ∧
      (blank.run ops).isConsistent = true := by
  obtain ⟨ops, he⟩ : ∃ ops, ops = braid ⟨0, 0⟩ ⟨0, 1⟩ ⟨3, 7⟩ ⟨5, 0⟩ := ⟨_, rfl⟩
  have hready : blank.ReadyAll ops := by rw [he]; decide +kernel
  obtain ⟨hrealizes, -, hconsistent⟩ := realizes_run hready
  exact ⟨ops, he, hready, by rw [he]; decide +kernel, hrealizes, hconsistent⟩

end Table
end SepKernel
