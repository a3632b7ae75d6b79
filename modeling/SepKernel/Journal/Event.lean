import SepKernel.Capability.Text
import SepKernel.Error
import SepKernel.Journal.Logger
import SepKernel.Process.Trap
import SepKernel.Syscall.Text

/-!
# Events

What the kernel tells about itself, as values. Each kind of event has a level, the part of the
kernel that it comes from, and a text.
-/

namespace SepKernel

inductive Event where
  | booted (index : Nat) (c : Capability)
  | initialised (count : Nat)
  | moved (source target : Slot) (c : Capability)
  | deleted (slot : Slot) (c : Capability)
  | derivationRefused (parent child : Capability)
  | derived (source target : Slot) (c : Capability)
  | revoked (slot child : Slot) (c : Capability)
  | revocationPreempted (slot : Slot)
  | loaded (slot : Slot) (region : RegionIndex)
  | unloaded (slot : Slot)
  | awaited (pid : Pid) (channel : BitVec 16)
  | notReceiving (channel : BitVec 16) (pid : Pid)
  | delivered (channel : BitVec 16) (sender receiver : Pid)
  | notCovered (monitor : Slot) (pid : Pid)
  | suspended (monitor : Slot) (pid : Pid)
  | resumed (monitor : Slot) (pid : Pid)
  | assigned (pid : Pid) (limit hart first last : Nat)
  | cleared (hart first last : Nat)
  | fetched (hart : Hart) (pid : Pid) (column : Fin 64)
  | called (pid : Pid) (call : Syscall)
  | callFailed (pid : Pid) (call : Word) (e : Error)
  | trapped (pid : Pid) (trap : Trap)

namespace Event

def level : Event → Level
  | initialised _ => .info
  | booted _ _ | derivationRefused _ _ | revocationPreempted _ | notReceiving _ _ | notCovered _ _
  | callFailed _ _ _ => .debug
  | _ => .trace

/-- The part of the kernel that an event comes from. -/
def target : Event → String
  | booted _ _ | initialised _ => "s3k_kernel::kernel"
  | moved _ _ _ | deleted _ _ | derivationRefused _ _ | derived _ _ _ | revoked _ _ _
  | revocationPreempted _ | loaded _ _ | unloaded _ => "s3k_kernel::cap::ops"
  | awaited _ _ | notReceiving _ _ | delivered _ _ _ => "s3k_kernel::ipc::socket"
  | notCovered _ _ | suspended _ _ | resumed _ _ => "s3k_kernel::monitor"
  | assigned _ _ _ _ _ | cleared _ _ _ | fetched _ _ _ => "s3k_kernel::sched"
  | called _ _ | callFailed _ _ _ => "s3k_kernel::syscall::handler"
  | trapped _ _ => "s3k_kernel::exception"

def message : Event → String
  | booted i c => s!"boot cap {i}: {c}"
  | initialised n => s!"kernel initialised: {n} boot capabilities, {processCount} processes"
  | moved s t c => s!"cap move {s.text} -> {t.text}: {c}"
  | deleted s c => s!"cap delete {s.text}: {c}"
  | derivationRefused p c => s!"cap derive rejected: {p} -> {c}"
  | derived s t c => s!"cap derive {s.text} -> {t.text}: {c}"
  | revoked s t c => s!"cap revoke {s.text}: deleted {t.text} {c}"
  | revocationPreempted s => s!"cap revoke {s.text} preempted"
  | loaded s k => s!"pmp load {s.text} into slot {k.val}"
  | unloaded s => s!"pmp unload {s.text}"
  | awaited p c => s!"ipc pid={p.val} waiting on channel {c.toNat}"
  | notReceiving c p => s!"ipc channel {c.toNat}: pid={p.val} not receiving"
  | delivered c p q => s!"ipc channel {c.toNat}: pid={p.val} -> pid={q.val}"
  | notCovered m p => s!"monitor {m.text} does not cover pid={p.val}"
  | suspended m p => s!"monitor {m.text} suspended pid={p.val}"
  | resumed m p => s!"monitor {m.text} resumed pid={p.val}"
  | assigned p limit hart first last =>
    s!"sched update pid={p.val} end={limit} hart={hart} from={first} to={last}"
  | cleared hart first last => s!"sched delete hart={hart} from={first} to={last}"
  | fetched hart p c => s!"sched hart={hart.val} pid={p.val} slot={c.val}"
  | called p call => s!"syscall pid={p.val} {call.text}"
  | callFailed p call e => s!"syscall pid={p.val} call={call.toNat} failed: {e.message}"
  | trapped p t =>
    s!"exception pid={p.val} cause={(Cause.ofNumber t.cause).name} tval={hex t.value.toNat}"

def record (e : Event) : Record := ⟨e.level, e.target, e.message⟩

end Event

end SepKernel
