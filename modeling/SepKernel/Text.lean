/-!
# Texts of numbers and flags

Hexadecimal text has lower-case digits, a leading `0x` and no padding. A set of flags is the list of
the names of those that are set.
-/

namespace SepKernel

def hex (n : Nat) : String :=
  "0x" ++ String.ofList (Nat.toDigits 16 n)

def digit (b : Bool) : String :=
  if b then "1" else "0"

/-- The names of the flags that are set, joined by bars; an empty set is written as the number
zero. -/
def flagNames (flags : List (Bool × String)) : String :=
  match (flags.filter (·.1)).map (·.2) with
  | [] => "0x0"
  | names => " | ".intercalate names

end SepKernel
