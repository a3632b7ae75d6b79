import SepKernel.Capability.Basic
import SepKernel.Text

/-!
# Capabilities as text

Two forms occur in the journal. The short form names the kind in capitals and lists the fields by
abbreviations, with memory and protection areas as addresses. The full form is used for the argument
of a system call, and names every field.
-/

namespace SepKernel

/-! ## Short form -/

private def Span.fields (s : Span) : String :=
  s!"bgn={s.base.toNat},end={s.limit.toNat},mrk={s.mark.toNat}"

namespace Capability

def text : Capability → String
  | null => "NONE\x7b\x7d"
  | time hart s => s!"TIME\x7bhart={hart.toNat},{s.fields}\x7d"
  | memory m =>
    s!"MEMORY\x7bbgn={hex m.baseAddress},end={hex m.limitAddress},mrk={hex m.markAddress},"
      ++ s!"rwx={m.access.bits.toNat},lck={digit m.locked}\x7d"
  | pmp r =>
    s!"PMP\x7bbgn={hex r.area.base},end={hex r.area.limit},rwx={r.access.bits.toNat},"
      ++ s!"used={digit r.loaded},slot={r.slot.toNat}\x7d"
  | monitor s => s!"MONITOR\x7b{s.fields}\x7d"
  | channel s => s!"CHANNEL\x7b{s.fields}\x7d"
  | socket s =>
    s!"SOCKET\x7bchan={s.chan.toNat},tag={s.tag.toNat},perm={s.permission.bits.toNat},"
      ++ s!"mode={s.mode.bits.toNat}\x7d"

end Capability

instance : ToString Capability := ⟨Capability.text⟩

/-! ## Full form -/

def Access.names (a : Access) : String :=
  flagNames [(a.read, "R"), (a.write, "W"), (a.execute, "X")]

def Permission.names (p : Permission) : String :=
  flagNames [(p.serverData, "SDATA"), (p.serverCap, "SCAP"), (p.clientData, "CDATA"),
    (p.clientCap, "CCAP")]

def Mode.name : Mode → String
  | keep => "NoYield"
  | yield => "Yield"

private def Span.fullFields (s : Span) : String :=
  s!"begin: {s.base.toNat}, mark: {s.mark.toNat}, end: {s.limit.toNat}"

namespace Capability

def fullText : Capability → String
  | null => "None"
  | time hart s => s!"Time(TimeCap \x7b hart: {hart.toNat}, {s.fullFields} \x7d)"
  | memory m =>
    s!"Memory(MemoryCap \x7b tag: {m.tag.toNat}, rwx: Rwx({m.access.names}), lock: {m.locked}, "
      ++ s!"{m.span.fullFields} \x7d)"
  | pmp r =>
    s!"Pmp(PmpCap \x7b addr: {r.address.toNat}, rwx: Rwx({r.access.names}), used: {r.loaded}, "
      ++ s!"slot: {r.slot.toNat} \x7d)"
  | monitor s => s!"Monitor(MonitorCap \x7b {s.fullFields} \x7d)"
  | channel s => s!"Channel(ChannelCap \x7b {s.fullFields} \x7d)"
  | socket s =>
    s!"Socket(SocketCap \x7b chan: {s.chan.toNat}, mode: {s.mode.name}, "
      ++ s!"perm: IpcPerm({s.permission.names}), tag: {s.tag.toNat} \x7d)"

end Capability

end SepKernel
