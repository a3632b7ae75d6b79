import SepKernel.Capability.Text
import SepKernel.Syscall.Basic

/-!
# System calls as text

A call is shown by its name and its named arguments. The journal writes them on one line.
-/

namespace SepKernel

inductive Datum where
  /-- A position, a process or a protection register. -/
  | number (n : Nat)
  | register (r : Register)
  | info (i : Info)
  /-- A word of which nothing is known. -/
  | word (n : Nat)
  | flag (b : Bool)
  | capability (c : Capability)
  | slot (s : Slot)
  | message (m : Message)

namespace Datum

def infoName : Info → String
  | .pid => "Pid"
  | .time => "Time"
  | .deadline => "Timeout"

private def messageText (m : Message) : String :=
  let data := ", ".intercalate (m.data.toList.map fun w => toString w.toNat)
  s!"Msg \x7b cap_buf: {m.buffer}, send_cap: {m.sendCap}, data: [{data}] \x7d"

def text : Datum → String
  | number n | word n => toString n
  | register r => r.name
  | info i => infoName i
  | flag b => toString b
  | capability c => c.fullText
  | slot s => s!"({s.owner.val}, {s.index.val})"
  | message m => messageText m

end Datum

/-- The name of a call and its arguments, with their names if they are shown with names. -/
structure Description where
  name : String
  arguments : List (Option String × Datum)

namespace Description

/-- A call all of whose arguments have names. -/
def named (name : String) (arguments : List (String × Datum)) : Description :=
  ⟨name, arguments.map fun nd => (some nd.1, nd.2)⟩

/-- The text of a call. Arguments with names stand in braces, others in parentheses. -/
def text (d : Description) : String :=
  let fields := ", ".intercalate (d.arguments.map fun nd =>
    match nd.1 with
    | some name => name ++ ": " ++ nd.2.text
    | none => nd.2.text)
  if d.arguments.any (·.1.isSome) then s!"{d.name} \x7b {fields} \x7d" else s!"{d.name}({fields})"

end Description

def OwnCall.describe : OwnCall → Description
  | getInfo i => ⟨"GetInfo", [(none, .info i)]⟩
  | readRegister r => .named "RegRead" [("reg", .register r)]
  | writeRegister r w => .named "RegWrite" [("reg", .register r), ("value", .word w.toNat)]
  | sync full => .named "Sync" [("full", .flag full)]
  | sleep time => .named "Sleep" [("until", .word time)]

def SharedCall.describe : SharedCall → Description
  | capRead i => .named "CapRead" [("idx", .number i)]
  | capMove i j => .named "CapMove" [("src", .number i), ("dst", .number j)]
  | capDelete i => .named "CapDelete" [("idx", .number i)]
  | capRevoke i => .named "CapRevoke" [("idx", .number i)]
  | capDerive i j c =>
    .named "CapDerive" [("src", .number i), ("dst", .number j), ("cap", .capability c)]
  | pmpLoad i k => .named "PmpLoad" [("idx", .number i), ("slot", .number k)]
  | pmpUnload i => .named "PmpUnload" [("idx", .number i)]
  | monSuspend m p => .named "MonSuspend" [("mon", .number m), ("pid", .number p)]
  | monResume m p => .named "MonResume" [("mon", .number m), ("pid", .number p)]
  | monState m p => .named "MonStateGet" [("mon", .number m), ("pid", .number p)]
  | monYield m p => .named "MonYield" [("mon", .number m), ("pid", .number p)]
  | monReadRegister m p r =>
    .named "MonRegRead" [("mon", .number m), ("pid", .number p), ("reg", .register r)]
  | monWriteRegister m p r w =>
    .named "MonRegWrite"
      [("mon", .number m), ("pid", .number p), ("reg", .register r), ("value", .word w.toNat)]
  | monCapRead m p i =>
    .named "MonCapRead" [("mon", .number m), ("pid", .number p), ("idx", .number i)]
  | monCapMove m s t => .named "MonCapMove" [("mon", .number m), ("src", .slot s), ("dst", .slot t)]
  | monPmpLoad m p i k =>
    .named "MonPmpLoad"
      [("mon", .number m), ("pid", .number p), ("idx", .number i), ("slot", .number k)]
  | monPmpUnload m p i =>
    .named "MonPmpUnload" [("mon", .number m), ("pid", .number p), ("idx", .number i)]
  | sockSend i m => .named "SockSend" [("sock", .number i), ("msg", .message m)]
  | sockRecv i b => .named "SockRecv" [("sock", .number i), ("cap_buf", .number b)]
  | sockSendRecv i m => .named "SockSendRecv" [("sock", .number i), ("msg", .message m)]

namespace Syscall

def describe : Syscall → Description
  | own c => c.describe
  | shared c => c.describe

def text (c : Syscall) : String := c.describe.text

end Syscall

end SepKernel
