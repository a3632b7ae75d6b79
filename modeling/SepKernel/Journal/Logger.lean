import SepKernel.Journal.Level

/-!
# Writing the journal

A record becomes a line of text with its level, its target and its message, and a line is written
piece by piece. Lines go to a terminal, so every line feed is sent as a carriage return and a line
feed: a piece is cut at its line feeds, and its parts are written with these two between them.

The sink may be small. It takes characters while they fit, and refuses the first that does not and
every later one. A write that fails is the last of its line, and what the sink took before stays.
-/

namespace SepKernel

structure Record where
  level : Level
  target : String
  message : String
  deriving DecidableEq, Repr

/-! ## Sinks -/

structure Sink where
  /-- How many bytes it takes; any number if none is given. -/
  capacity : Option Nat
  content : String
  /-- Has a character been refused? -/
  full : Bool
  deriving DecidableEq, Repr

/-- Writing to a sink, which may fail. What the sink took up to a failure stays in it. -/
abbrev Writing := OptionT (StateM Sink)

namespace Sink

def blank (capacity : Option Nat) : Sink := ⟨capacity, "", false⟩

def hasRoom (s : Sink) (c : Char) : Bool :=
  s.capacity.all fun n => decide (s.content.utf8ByteSize + c.utf8Size ≤ n)

/-- Write a character, if it fits and none was refused before. -/
def put (c : Char) : Writing Unit := OptionT.mk fun s =>
  if s.full then (none, s)
  else if s.hasRoom c then (some (), { s with content := s.content.push c })
  else (none, { s with full := true })

/-- Write characters, up to the first that is refused. To write nothing always succeeds. -/
def write (cs : List Char) : Writing Unit :=
  cs.forM put

/-- Write a piece of text, with a carriage return and a line feed where it has a line feed. -/
def writePiece (piece : String) : Writing Unit :=
  match piece.toList.splitOn '\n' with
  | [] => pure ()
  | first :: others => do
    write first
    others.forM fun part => do
      write ['\r', '\n']
      write part

def writePieces (pieces : List String) : Writing Unit :=
  pieces.forM writePiece

/-- The sink after something was written to it, or after as much of it as could be written. -/
def after (s : Sink) (w : Writing Unit) : Sink :=
  (w.run.run s).2

end Sink

/-! ## Loggers -/

/-- A sink behind a filter. -/
structure Logger where
  filter : Filter
  sink : Sink
  deriving DecidableEq, Repr

/-- The pieces of the line of a record. -/
def Record.pieces (r : Record) : List String :=
  ["[", r.level.name, "] ", r.target, ": ", r.message, "\n"]

namespace Logger

/-- Write a line in the given pieces, if the filter lets its level through. Nobody is told when the
sink refuses some of it. -/
def logPieces (g : Logger) (l : Level) (pieces : List String) : Logger :=
  if g.filter.admits l then { g with sink := g.sink.after (Sink.writePieces pieces) } else g

def log (g : Logger) (r : Record) : Logger :=
  g.logPieces r.level r.pieces

def logAll (g : Logger) (rs : List Record) : Logger :=
  rs.foldl log g

end Logger

end SepKernel
