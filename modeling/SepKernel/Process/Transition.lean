import SepKernel.Process.Basic

/-!
# Transitions of a single process

The operations on a process as values, so that a history of a process is a list of them. Each
answers what its caller learns.
-/

namespace SepKernel

inductive Transition where
  | acquire (now : Nat)
  | release
  | suspend
  | resume
  | isStopped
  | acquireStopped
  | await (channel : ChannelWord)
  | sleep (time : Nat)
  | receive (channel : ChannelWord) (now deadline : Nat)
  | setDeadline (time : Nat)
  | setRegister (register : Register) (content : Word)
  | register (register : Register)
  deriving DecidableEq, Repr

namespace Transition

inductive Answer where
  | done
  | truth (b : Bool)
  | content (w : Word)
  deriving DecidableEq, Repr

private def attempt (p : Process) (taken : Option Process) : Answer × Process :=
  match taken with
  | some q => (.truth true, q)
  | none => (.truth false, p)

def run (p : Process) : Transition → Answer × Process
  | acquire now => attempt p (p.acquire? now)
  | release => (.done, p.release)
  | suspend => (.done, p.suspend)
  | resume => (.done, p.resume)
  | isStopped => (.truth p.isStopped, p)
  | acquireStopped => attempt p p.acquireStopped?
  | await c => (.done, p.await c)
  | sleep time => (.done, p.sleep time)
  | receive c now deadline => attempt p (p.receive? c now deadline)
  | setDeadline time => (.done, { p with deadline := time })
  | setRegister r w => (.done, p.setRegister r w)
  | register r => (.content (p.register r), p)

end Transition

end SepKernel
