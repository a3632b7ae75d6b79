/-!
# Levels of the journal

A record has a level, and a filter lets records through up to some level, or none at all.
-/

namespace SepKernel

/-- How much a record matters. -/
inductive Level where
  | error
  | warn
  | info
  | debug
  | trace
  deriving DecidableEq, Repr

namespace Level

/-- The position of a level, from the gravest on. -/
def rank : Level → Nat
  | error => 1
  | warn => 2
  | info => 3
  | debug => 4
  | trace => 5

def name : Level → String
  | error => "ERROR"
  | warn => "WARN"
  | info => "INFO"
  | debug => "DEBUG"
  | trace => "TRACE"

def all : List Level := [error, warn, info, debug, trace]

/-- The level of a name, in letters of either case. -/
def ofName? (s : String) : Option Level :=
  all.find? (·.name == s.map Char.toUpper)

end Level

/-- The levels that are let through: none, or those up to a level. -/
structure Filter where
  upTo : Option Level
  deriving DecidableEq, Repr

namespace Filter

def admits (f : Filter) (l : Level) : Bool :=
  f.upTo.any fun m => decide (l.rank ≤ m.rank)

/-- The filter of a name, in letters of either case. -/
def ofName? (s : String) : Option Filter :=
  if s.map Char.toUpper == "OFF" then some ⟨none⟩ else (Level.ofName? s).map (⟨some ·⟩)

end Filter
end SepKernel
