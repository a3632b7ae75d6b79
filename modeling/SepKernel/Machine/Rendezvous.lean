import SepKernel.Capability.Word
import SepKernel.Machine.Monitor
import SepKernel.Syscall.Basic

/-!
# Messages

A message passes when the sender calls and the receiver already waits at the other end of the
channel. The receiver finds success in `t0`, the tag of the socket in `a0`, the word of a
capability in `a1`, or zero, and the data in `a2` to `a5`.

A message is prepared before it is handed over. Preparing it is a number of checks, the last of
which is that the receiver can be had. What goes along is then moved like any other capability, with
the checks of a move, although they were made before. In the mode that yields, the hart goes on with
the receiver at once, and with the deadline of the sender. Otherwise the receiver is given back,
ready to run.
-/

namespace SepKernel
namespace Machine

/-! ## Checks -/

def requireSocket (s : Slot) : Attempt Socket := do
  match ← readCapability s with
  | .socket k => return k
  | _ => throw .invalidSocket

def requireRole (s : Slot) (r : Role) : Attempt Socket := do
  let k ← requireSocket s
  if k.role ≠ r then
    throw .invalidSocket
  return k

def requireGoing (p : Pid) : Attempt Unit := do
  if (← process p).status.suspended then
    throw .suspended

/-- Refuse to go on if a capability is to be sent that may not cross from this end. -/
def requireSendable (k : Socket) (m : Message) : Attempt Unit := do
  if m.sendCap && !k.permission.cap k.role then
    throw .invalidSocket

/-- Refuse to go on if the answer may bring a capability and the slot for it will not be vacant. -/
def requireBuffer (k : Socket) (m : Message) (buffer : Slot) : Attempt Unit := do
  if k.permission.cap k.role.peer && !m.sendCap then
    requireVacant buffer

/-- The capability that goes along with a message, if one does; it must be there, and the slot of
the receiver must be vacant. -/
def requireFreight (m : Message) (source target : Slot) : Attempt Capability := do
  if m.sendCap then
    let c ← requireSource source
    requireVacant target
    return c
  else
    return .null

/-! ## Delivery -/

structure Delivery where
  sender : Pid
  socket : Socket
  message : Message
  /-- The slot of the sender that the capability leaves. -/
  buffer : Slot
  /-- The capability that goes along, if one does. -/
  freight : Capability
  receiver : Waiter
  /-- The receiver as taken for the hart. -/
  taken : Process

/-- Prepare a message for whoever waits at the other end of the channel. -/
def prepare (h : Hart) (sender : Pid) (k : Socket) (m : Message) (buffer : Slot) :
    Attempt Delivery := do
  requireSendable k m
  requireGoing sender
  expect .channel (decide (k.chan.toNat < channelCount))
  let some w := (← get).registry.waiter k.chan k.role.peer | throw .noReceiver
  if k.mode = .yield then
    requireGoing w.pid
  let freight ← requireFreight m buffer w.buffer
  let board := (← get).board
  match (← process w.pid).receive? (k.chan.setWidth 32) board.time (board.deadline h) with
  | some taken => return ⟨sender, k, m, buffer, freight, w, taken⟩
  | none =>
    note (.notReceiving k.chan w.pid)
    throw .noReceiver

/-- The registers that a message fills, and what with. -/
def Delivery.contents (d : Delivery) (c : Capability) : List (Register × Word) :=
  let mayData := d.socket.permission.data d.socket.role
  let data := if mayData then d.message.data else .replicate 4 0
  [(.t0, 0), (.a0, d.socket.tag.setWidth 64), (.a1, c.toWord)] ++ (Register.payload.zip data).toList

/-- Fill the registers of the receiver, which has been taken, and let it go. -/
def hand (d : Delivery) (c : Capability) : Action Next := do
  let p := d.receiver.pid
  modifyProcess p fun q => { q with registers := q.registers.setAll (d.contents c) }
  modifyRegistry (·.setWaiter d.socket.chan d.socket.role.peer none)
  note (.delivered d.socket.chan d.sender p)
  match d.socket.mode with
  | .yield =>
    let deadline := (← process d.sender).deadline
    modifyProcess p fun q => { q with deadline }
    return .yield p
  | .keep =>
    release p
    return .caller

/-- Deliver a message to whoever waits at the other end of the channel. -/
def transmit (h : Hart) (sender : Pid) (k : Socket) (m : Message) (buffer : Slot) :
    Attempt Next := do
  let d ← prepare h sender k m buffer
  setProcess d.receiver.pid d.taken
  let c ← if m.sendCap then transferCapability buffer d.receiver.buffer else pure .null
  hand d c

/-! ## Waiting -/

/-- Let a process that is held wait at one end of a channel, and tell it that nobody came. -/
def await (k : Socket) (p : Pid) (buffer : Slot) : Action Unit := do
  expect .channel (decide (k.chan.toNat < channelCount))
  modifyRegistry (·.setWaiter k.chan k.role (some ⟨p, buffer⟩))
  expect .hold (← process p).status.busy
  modifyProcess p fun q => (q.await (k.chan.setWidth 32)).report .timeout

def awaitForever (p : Pid) : Action Unit :=
  modifyProcess p fun q => { q with deadline := never }

def awaitClient (k : Socket) (p : Pid) (buffer : Slot) : Action Unit := do
  await k p buffer
  awaitForever p
  note (.awaited p k.chan)

/-! ## Operations -/

def send (h : Hart) (s : Slot) (m : Message) : Attempt Next := do
  let k ← requireSocket s
  transmit h s.owner k m (← slotAt s.owner m.buffer)

def reply (h : Hart) (s : Slot) (m : Message) : Attempt Next := do
  let _ ← requireRole s .server
  send h s m

/-- Wait for a client. A capability that comes with its message goes into the buffer. -/
def receive (s : Slot) (buffer : Nat) : Attempt Next := do
  let k ← requireRole s .server
  requireGoing s.owner
  let buffer ← slotAt s.owner buffer
  if k.permission.clientCap then
    requireVacant buffer
  awaitClient k s.owner buffer
  return .blocked none

/-- Send a message to the server, and wait for the answer. The wait has the deadline of the run if
the hart yields to the server, and none otherwise. -/
def call (h : Hart) (s : Slot) (m : Message) : Attempt Next := do
  let k ← requireRole s .client
  let buffer ← slotAt s.owner m.buffer
  requireSendable k m
  requireBuffer k m buffer
  let next ← transmit h s.owner k m buffer
  await k s.owner buffer
  match next with
  | .yield p => return .blocked (some p)
  | _ =>
    awaitForever s.owner
    return .blocked none

/-- Deliver an answer, or drop it when no client waits for it, with the capability that was to go
along. -/
def answer (h : Hart) (sender : Pid) (k : Socket) (m : Message) (buffer : Slot) : Attempt Next := do
  match ← observing (transmit h sender k m buffer) with
  | .ok next => return next
  | .error .noReceiver =>
    if m.sendCap && !(← capability buffer).isNull then
      deleteCapability buffer
    return .caller
  | .error e => throw e

/-- Answer the client that waits on a channel, and wait for the next. -/
def replyReceive (h : Hart) (s : Slot) (m : Message) : Attempt Next := do
  let k ← requireRole s .server
  let buffer ← slotAt s.owner m.buffer
  requireSendable k m
  requireBuffer k m buffer
  let next ← answer h s.owner k m buffer
  awaitClient k s.owner buffer
  match next with
  | .yield p => return .blocked (some p)
  | _ => return .blocked none

/-- Send a message and wait for one: as a server for the next client, as a client for the answer. -/
def sendReceive (h : Hart) (s : Slot) (m : Message) : Attempt Next := do
  match (← requireSocket s).role with
  | .server => replyReceive h s m
  | .client => call h s m

end Machine
end SepKernel
