import SepKernel.Journal.Logger

/-!
# What a terminal gets

A terminal should get the line of each record that the filter lets through, in order, with a
carriage return before every line feed. A sink that takes everything has exactly this text in the
end, and a sink of `n` bytes has the longest first part of it that fits, in whatever pieces the
lines were written.

To write something is to *offer* the sink characters, one after the other, and to stop early only
when it refused one. It refuses all that come later, so it makes no difference that these are not
offered any more: written in pieces, a text is offered as a whole.
-/

namespace SepKernel

/-! ## The text -/

def withReturns (cs : List Char) : List Char :=
  cs.flatMap fun c => if c = '\n' then ['\r', '\n'] else [c]

def Record.line (r : Record) : String :=
  s!"[{r.level.name}] {r.target}: {r.message}\n"

/-- What a terminal should get of the records. -/
def Filter.transcript (f : Filter) (rs : List Record) : String :=
  .ofList ((rs.filter (f.admits ·.level)).flatMap fun r => withReturns r.line.toList)

theorem Filter.toList_transcript_cons (f : Filter) (r : Record) (rs : List Record) :
    (f.transcript (r :: rs)).toList =
      (if f.admits r.level then withReturns r.line.toList else []) ++ (f.transcript rs).toList := by
  simp only [transcript, String.toList_ofList, List.filter_cons]
  split <;> rfl

/-- The parts of a text between its line feeds, with carriage returns and line feeds between
them. -/
theorem withReturns_splitOn {cs : List Char} {first : List Char} {others : List (List Char)}
    (h : cs.splitOn '\n' = first :: others) :
    withReturns cs = first ++ others.flatMap fun part => '\r' :: '\n' :: part := by
  induction cs generalizing first others with
  | nil =>
    cases h
    rfl
  | cons c cs ih =>
    rw [List.splitOn_cons_eq_if_modifyHead] at h
    obtain ⟨part, parts, hcs⟩ := List.exists_cons_of_ne_nil (List.splitOn_ne_nil '\n' cs)
    have ih := ih hcs
    rw [hcs] at h
    -- a line feed begins a part; any other character goes to the front of the first part
    split at h
    · next hc =>
      cases h
      rw [withReturns, List.flatMap_cons, if_pos (eq_of_beq hc), ← withReturns, ih]
      rfl
    · next hc =>
      cases h
      rw [withReturns, List.flatMap_cons, if_neg (by simpa using hc), ← withReturns, ih]
      rfl

namespace Sink

variable {s : Sink} {w v : Writing Unit} {cs ds : List Char} {capacity : Option Nat}

/-! ## Offering characters -/

def feed (s : Sink) (cs : List Char) : Sink :=
  cs.foldl (fun s c => s.after (put c)) s

theorem feed_append (s : Sink) (cs ds : List Char) : s.feed (cs ++ ds) = (s.feed cs).feed ds :=
  List.foldl_append

/-- A character is taken if there is room for it. One that is refused fills the sink for good. -/
theorem after_put (s : Sink) (c : Char) :
    s.after (put c) =
      if s.full then s
      else if s.hasRoom c then { s with content := s.content.push c }
      else { s with full := true } := by
  simp only [after, put, OptionT.run_mk, StateT.run]
  split
  · rfl
  · split <;> rfl

/-- A sink that refused a character takes nothing any more. -/
theorem feed_of_full (h : s.full = true) (cs : List Char) : s.feed cs = s := by
  induction cs with
  | nil => rfl
  | cons c cs ih =>
    rw [feed, List.foldl_cons, after_put, if_pos h]
    exact ih

/-- What comes second is written only if the first did not fail. -/
theorem run_seq (w v : Writing Unit) (s : Sink) :
    (do w; v : Writing Unit).run.run s =
      if (w.run.run s).1 = none then (none, s.after w) else v.run.run (s.after w) := by
  simp only [OptionT.run_bind, Option.elimM, StateT.run_bind, after]
  obtain ⟨_ | _, t⟩ := w.run.run s
  · rfl
  · rfl

/-- Writing offers the sink these characters, except those that come after one that it refused. -/
structure Offers (w : Writing Unit) (cs : List Char) : Prop where
  after_eq : ∀ s : Sink, s.after w = s.feed cs
  full_of_failed : ∀ s : Sink, (w.run.run s).1 = none → (s.feed cs).full = true

/-- Writing one character offers that one, and fails only where the sink is full afterwards. -/
theorem offers_put (c : Char) : Offers (put c) [c] where
  after_eq _ := rfl
  full_of_failed s h := by
    show (s.after (put c)).full = true
    rw [after_put]
    simp only [put, OptionT.run_mk, StateT.run] at h
    split
    · assumption
    · next hfull =>
      rw [if_neg hfull] at h
      -- it has failed because there was no room
      split
      · next hroom =>
        rw [if_pos hroom] at h
        cases h
      · rfl

namespace Offers

protected theorem pure : Offers (pure ()) [] where
  after_eq _ := rfl
  full_of_failed _ h := by cases h

/-- A failure leaves the sink full, so it does not matter that nothing more is offered. -/
theorem seq (hw : Offers w cs) (hv : Offers v ds) : Offers (do w; v) (cs ++ ds) := by
  constructor
  · intro s
    rw [after, run_seq, feed_append, ← hw.after_eq]
    split
    · next hfailed =>
      have hfull := hw.full_of_failed s hfailed -- nothing more is written once a write has failed
      rw [← hw.after_eq] at hfull
      rw [feed_of_full hfull]
    · exact hv.after_eq _
  · intro s h
    rw [run_seq] at h
    rw [feed_append]
    split at h
    · next hfailed =>
      have hfull := hw.full_of_failed s hfailed
      rw [feed_of_full hfull]
      exact hfull
    · rw [← hw.after_eq]
      exact hv.full_of_failed _ h

/-- One piece of text for each element. -/
theorem forM {α : Type} {f : α → Writing Unit} {text : α → List Char}
    (h : ∀ a, Offers (f a) (text a)) (xs : List α) : Offers (xs.forM f) (xs.flatMap text) := by
  induction xs with
  | nil => exact .pure
  | cons x xs ih => exact (h x).seq ih

end Offers

/-! ## Pieces -/

theorem offers_write (cs : List Char) : Offers (write cs) cs := by
  have h := Offers.forM offers_put cs
  rwa [List.flatMap_singleton'] at h

/-- A piece is written in parts, with a return before each line feed between them. -/
theorem offers_writePiece (p : String) : Offers (writePiece p) (withReturns p.toList) := by
  rw [writePiece]
  split
  · next h => exact (List.splitOn_ne_nil _ _ h).elim
  · next first others h =>
    rw [withReturns_splitOn h]
    refine (offers_write first).seq (.forM (fun part => ?_) others)
    exact (offers_write ['\r', '\n']).seq (offers_write part)

/-- In whatever pieces a text is written, the sink is offered the text with carriage returns. -/
theorem offers_writePieces (ps : List String) :
    Offers (writePieces ps) (withReturns (String.join ps).toList) := by
  rw [String.toList_join, withReturns, List.flatMap_assoc]
  exact .forM offers_writePiece ps

/-! ## What fits -/

/-- The sink has a capacity and took the text, up to the first character for which there was no
room. -/
structure Took (s : Sink) (capacity : Option Nat) (cs : List Char) : Prop where
  bound : s.capacity = capacity
  fits : ∀ n ∈ capacity, s.content.utf8ByteSize ≤ n
  all : s.full = false → s.content.toList = cs
  cut : s.full = true → ∃ c rest, cs = s.content.toList ++ c :: rest ∧ s.hasRoom c = false

/-- A new sink is empty, and fits into any capacity. -/
theorem took_blank (capacity : Option Nat) : (blank capacity).Took capacity [] where
  bound := rfl
  fits _ _ := Nat.zero_le _
  all _ := rfl
  cut h := by cases h

/-- One more character is taken, refused for want of room, or comes after one that was refused. -/
theorem Took.put (h : s.Took capacity cs) (c : Char) :
    (s.after (put c)).Took capacity (cs ++ [c]) := by
  rw [after_put]
  split
  · next hfull =>
    -- what is left out only becomes longer
    obtain ⟨d, rest, hcs, hd⟩ := h.cut hfull
    refine ⟨h.bound, h.fits, fun hnot => Bool.noConfusion (hfull.symm.trans hnot), fun _ => ?_⟩
    exact ⟨d, rest ++ [c], by rw [hcs, List.append_assoc, List.cons_append], hd⟩
  · next hfull =>
    have hcs := h.all (eq_false_of_ne_true hfull)
    split
    · next hroom =>
      refine ⟨h.bound, fun n hn => ?_, fun _ => ?_, fun hnow => absurd hnow hfull⟩
      · rw [hasRoom, h.bound, hn] at hroom
        rw [String.utf8ByteSize_push]
        exact of_decide_eq_true hroom
      · rw [String.toList_push, hcs]
    · next hroom => -- this is the character at which the text is cut
      refine ⟨h.bound, h.fits, fun hnot => Bool.noConfusion hnot, fun _ => ⟨c, [], ?_, ?_⟩⟩
      · rw [hcs]
      · exact eq_false_of_ne_true hroom

/-- By induction on the characters; the text so far is carried along. -/
theorem Took.feed (h : s.Took capacity cs) (ds : List Char) :
    (s.feed ds).Took capacity (cs ++ ds) := by
  induction ds generalizing s cs with
  | nil => rwa [List.append_nil]
  | cons d ds ih =>
    rw [← List.singleton_append, ← List.append_assoc]
    exact ih (h.put d)

/-- There is always room in a sink without a bound. -/
theorem Took.content_eq (h : s.Took none cs) : s.content.toList = cs := by
  cases hfull : s.full with
  | false => exact h.all hfull
  | true =>
    obtain ⟨c, _, _, hroom⟩ := h.cut hfull
    rw [hasRoom, h.bound] at hroom
    cases hroom

end Sink

/-! ## The longest part that fits -/

/-- A text is the longest first part of another that has at most `n` bytes. -/
structure LongestStart (n : Nat) (whole part : String) : Prop where
  start : part.toList <+: whole.toList
  fits : part.utf8ByteSize ≤ n
  longest : ∀ p : String, p.toList <+: whole.toList → p.utf8ByteSize ≤ n → p.toList <+: part.toList

/-- A first part of a text is no longer than the text. -/
theorem utf8ByteSize_le_of_start {p q : String} (h : p.toList <+: q.toList) :
    p.utf8ByteSize ≤ q.utf8ByteSize := by
  obtain ⟨rest, h⟩ := h
  have hq : q = p ++ .ofList rest := by
    rw [← String.toList_inj, String.toList_append, String.toList_ofList, h]
  rw [hq, String.utf8ByteSize_append]
  exact Nat.le_add_right ..

/-- Whatever goes beyond the content begins with the character for which there was no room. -/
theorem Sink.Took.longestStart {s : Sink} {text : String} {n : Nat}
    (h : s.Took (some n) text.toList) : LongestStart n text s.content := by
  have hfits := h.fits n rfl
  cases hfull : s.full with
  | false =>
    have hall := h.all hfull
    refine ⟨⟨[], ?_⟩, hfits, fun p hp _ => ?_⟩
    · rw [List.append_nil, hall]
    · rwa [hall]
  | true =>
    obtain ⟨c, rest, htext, hroom⟩ := h.cut hfull
    have hstart : s.content.toList <+: text.toList := ⟨c :: rest, htext.symm⟩
    refine ⟨hstart, hfits, fun p hp hn => ?_⟩
    -- a longer part would begin with the content and the character that did not fit
    obtain hlt | hle := Nat.lt_or_ge s.content.toList.length p.toList.length
    · have hnext : (s.content.push c).toList <+: text.toList :=
        ⟨rest, by rw [String.toList_push, List.append_assoc, htext, List.singleton_append]⟩
      have hbeyond : (s.content.push c).toList <+: p.toList := by
        refine List.prefix_of_prefix_length_le hnext hp ?_
        rw [String.toList_push, List.length_append]
        exact hlt
      have hsize := utf8ByteSize_le_of_start hbeyond
      rw [String.utf8ByteSize_push] at hsize
      rw [hasRoom, h.bound] at hroom
      exact absurd (Nat.le_trans hsize hn) (of_decide_eq_false hroom)
    · exact List.prefix_of_prefix_length_le hp hstart hle

/-! ## Records -/

/-- A record with pieces in which its line may be written. -/
structure Rendering where
  record : Record
  pieces : List String
  join_pieces : String.join pieces = record.line

theorem Record.join_pieces (r : Record) : String.join r.pieces = r.line := by
  rw [← String.toList_inj]
  simp [Record.pieces, Record.line, toString]

namespace Logger

/-- Write records down in the given pieces, one after the other. -/
def logRenderings (g : Logger) (xs : List Rendering) : Logger :=
  xs.foldl (fun g x => g.logPieces x.record.level x.pieces) g

/-- A record offers its line to the sink, if it passes the filter. -/
theorem logPieces_rendering (g : Logger) (x : Rendering) :
    g.logPieces x.record.level x.pieces =
      { g with
        sink := g.sink.feed
          (if g.filter.admits x.record.level then withReturns x.record.line.toList else []) } := by
  rw [logPieces]
  split
  · rw [(Sink.offers_writePieces x.pieces).after_eq, x.join_pieces]
  · rfl

/-- A logger offers its sink the transcript. -/
theorem logRenderings_eq (g : Logger) (xs : List Rendering) :
    g.logRenderings xs =
      { g with sink := g.sink.feed (g.filter.transcript (xs.map Rendering.record)).toList } := by
  induction xs generalizing g with
  | nil => rfl
  | cons x xs ih =>
    have hcons : g.logRenderings (x :: xs) =
        (g.logPieces x.record.level x.pieces).logRenderings xs := rfl
    rw [hcons, ih, logPieces_rendering, List.map_cons, Filter.toList_transcript_cons,
      Sink.feed_append]

/-- The pieces in which the logger writes the lines are one of the ways to write them. -/
theorem logAll_eq (g : Logger) (rs : List Record) :
    g.logAll rs = { g with sink := g.sink.feed (g.filter.transcript rs).toList } := by
  have hpieces : g.logAll rs = g.logRenderings (rs.map fun r => ⟨r, r.pieces, r.join_pieces⟩) := by
    rw [logRenderings, List.foldl_map]
    rfl
  rw [hpieces, logRenderings_eq, List.map_map]
  exact congrArg (fun rs => { g with sink := g.sink.feed (g.filter.transcript rs).toList })
    (List.map_id rs)

/-- In whatever pieces the lines of some records are written, the sink ends as it does when the
logger writes them. Without a bound it has the transcript of the records; with room for `n` bytes it
has the longest first part of the transcript that fits. -/
theorem writes_transcript (f : Filter) (xs : List Rendering) :
    let rs := xs.map Rendering.record
    (∀ s, (mk f s).logRenderings xs = (mk f s).logAll rs) ∧
      ((mk f (.blank none)).logRenderings xs).sink.content = f.transcript rs ∧
      ∀ n, LongestStart n (f.transcript rs)
        ((mk f (.blank (some n))).logRenderings xs).sink.content := by
  intro rs
  have htook (capacity : Option Nat) :
      ((mk f (.blank capacity)).logRenderings xs).sink.Took capacity (f.transcript rs).toList := by
    rw [logRenderings_eq]
    exact (Sink.took_blank capacity).feed _
  refine ⟨fun s => ?_, ?_, fun n => ?_⟩
  · rw [logAll_eq, logRenderings_eq]
  · exact String.toList_inj.1 (htook none).content_eq
  · exact (htook (some n)).longestStart

-- One byte is left, and a letter of two bytes comes next: the letter after it does not get in.
example : (logAll ⟨⟨some .info⟩, .blank (some 12)⟩ [⟨.debug, "t", "b"⟩, ⟨.warn, "t", "aéb"⟩]).sink =
    ⟨some 12, "[WARN] t: a", true⟩ := by
  decide +kernel

end Logger
end SepKernel
