import SepKernel.Capability.Basic
import SepKernel.Table.Slot

/-!
# Channels

A channel joins one server with its clients. At any time at most one server and one client wait on
it, and the registry knows who they are and where they want a capability to be put that comes with
a message.
-/

namespace SepKernel

inductive Role where
  | server
  | client
  deriving DecidableEq, Repr

def Role.peer : Role → Role
  | server => client
  | client => server

def Socket.role (s : Socket) : Role :=
  if s.isServer then .server else .client

/-- May data cross the channel from this end? -/
def Permission.data (p : Permission) : Role → Bool
  | .server => p.serverData
  | .client => p.clientData

/-- May capabilities cross the channel from this end? -/
def Permission.cap (p : Permission) : Role → Bool
  | .server => p.serverCap
  | .client => p.clientCap

structure Waiter where
  pid : Pid
  /-- Where a capability that comes with a message goes. -/
  buffer : Slot
  deriving DecidableEq, Repr

structure Channel where
  server : Option Waiter
  client : Option Waiter
  deriving DecidableEq, Repr

namespace Channel

def quiet : Channel := ⟨none, none⟩

def waiter (c : Channel) : Role → Option Waiter
  | .server => c.server
  | .client => c.client

def setWaiter (c : Channel) (r : Role) (w : Option Waiter) : Channel :=
  match r with
  | .server => { c with server := w }
  | .client => { c with client := w }

@[simp] theorem waiter_setWaiter (c : Channel) (r r' : Role) (w : Option Waiter) :
    (c.setWaiter r w).waiter r' = if r = r' then w else c.waiter r' := by
  cases r <;> cases r' <;> rfl

private def endText : Option Waiter → String
  | some w => s!"{w.pid.val}@{w.buffer.owner.val}.{w.buffer.index.val}"
  | none => "-"

def text (c : Channel) : String :=
  s!"{endText c.server} {endText c.client}"

/-- Forget who waits on the channel when `owner` gives up a socket. A server takes the whole channel
with it, a client only itself. -/
def forget (c : Channel) (role : Role) (owner : Pid) : Channel :=
  match role with
  | .server => quiet
  | .client => if c.client.any (·.pid == owner) then { c with client := none } else c

end Channel

structure Registry where
  channels : Vector Channel 16
  deriving DecidableEq

namespace Registry

def blank : Registry := ⟨.replicate 16 .quiet⟩

def get (g : Registry) (i : Fin 16) : Channel := lookup g.channels i

def put (g : Registry) (i : Fin 16) (c : Channel) : Registry := ⟨replace g.channels i c⟩

theorem get_put (g : Registry) (i j : Fin 16) (c : Channel) :
    (g.put i c).get j = if i = j then c else g.get j :=
  lookup_replace g.channels i j c

def update (g : Registry) (chan : BitVec 16) (f : Channel → Channel) : Registry :=
  match index? 16 chan.toNat with
  | some i => g.put i (f (g.get i))
  | none => g

/-- Forget who waits because of a socket that `owner` gives up. -/
def clear (g : Registry) (s : Socket) (owner : Pid) : Registry :=
  g.update s.chan (·.forget s.role owner)

/-- Who waits at one end of a channel; nobody if the number is out of range. -/
def waiter (g : Registry) (chan : BitVec 16) (r : Role) : Option Waiter :=
  (index? 16 chan.toNat).bind fun i => (g.get i).waiter r

def setWaiter (g : Registry) (chan : BitVec 16) (r : Role) (w : Option Waiter) : Registry :=
  g.update chan (·.setWaiter r w)

end Registry

end SepKernel
