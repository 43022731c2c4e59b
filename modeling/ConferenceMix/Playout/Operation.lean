import ConferenceMix.Playout.Queue

/-! # Operations on a playout queue

An `Operation` is one thing that can be done to a playout queue at a moment of time, and `apply`
does it. A `Playout` is a queue with a clock of its own, and `Playout.run` carries out a list of
steps, each an operation or a movement of the clock, and collects the answers. In `Playout.runAt`
each fragment is queued at a given place: this covers whatever the search for a place comes to in a
queue that is not in order. -/

namespace ConferenceMix

open Pcm

/-- One thing that can be done to a playout queue. -/
inductive Operation where
  | append (fragment : Fragment)
  | write (data : List UInt8)
  | read (n : Nat)
  | timedRead (n : Nat) (interval : Nanos)
  | flush
  | sort
deriving DecidableEq, Repr

/-- What an operation answers. -/
inductive Answer where
  | done
  /-- The number of bytes that had to be dropped. -/
  | dropped (n : Nat)
  | read (result : ReadResult)
  | timedRead (result : TimedRead)
  | refused (cause : Misuse)
deriving DecidableEq, Repr

namespace Operation

/-- Carries out an operation at clock time `now`. A refused one changes nothing. -/
def apply (op : Operation) (now : Nanos) (q : PlayoutQueue) : PlayoutQueue × Answer :=
  match op with
  | append f =>
      let r := q.append f
      (r.1, .dropped r.2)
  | write data =>
      let r := q.write data
      (r.1, .dropped r.2)
  | read n =>
      let r := q.read n
      (r.1, .read r.2)
  | timedRead n interval =>
      match q.timedRead now interval n with
      | .ok r => (r.1, .timedRead r.2)
      | .error cause => (q, .refused cause)
  | flush => (q.flush, .done)
  | sort => (q.sort, .done)

end Operation

/-- A playout queue and the reading of its clock. -/
structure Playout where
  queue : PlayoutQueue
  clock : Nanos
deriving DecidableEq, Repr

namespace Playout

/-- One step in the life of a playout queue. -/
inductive Step where
  | operate (op : Operation)
  | advance (t : Nanos)
deriving DecidableEq, Repr

/-- A fresh queue with its clock at zero. -/
def create (wish : Nat) (cap : Option Nat) : Except Misuse Playout :=
  (PlayoutQueue.create wish cap).map fun q => ⟨q, 0⟩

/-- Carries out one step. -/
def step (p : Playout) : Step → Playout × Answer
  | .operate op =>
      let r := op.apply p.clock p.queue
      (⟨r.1, p.clock⟩, r.2)
  | .advance t => (⟨p.queue, p.clock + t⟩, .done)

/-- Carries out steps one after another and collects the answers. -/
def run (p : Playout) : List Step → Playout × List Answer
  | [] => (p, [])
  | s :: ss =>
      let first := p.step s
      let rest := run first.1 ss
      (rest.1, first.2 :: rest.2)

/-! ### Steps that queue anywhere -/

/-- The fragment that a step queues. -/
def Step.fragment? : Step → Option Fragment
  | .operate (.append f) => some f
  | .operate (.write data) => some (.untimed data)
  | _ => none

/-- The bytes of the fragment that a step queues. -/
def Step.carried : Step → List UInt8
  | .operate (.append f) => f.data
  | .operate (.write data) => data
  | _ => []

/-- Carries out one step. If it queues a fragment, that is put behind the first `k` others. -/
def stepAt (p : Playout) (k : Nat) (s : Step) : Playout × Answer :=
  match s.fragment? with
  | some f =>
      let r := p.queue.insertAt k f
      (⟨r.1, p.clock⟩, .dropped r.2)
  | none => p.step s

/-- Carries out steps one after another, each with the number of fragments that the one it queues
is put behind, and collects the answers. -/
def runAt (p : Playout) : List (Nat × Step) → Playout × List Answer
  | [] => (p, [])
  | m :: ms =>
      let first := p.stepAt m.1 m.2
      let rest := runAt first.1 ms
      (rest.1, first.2 :: rest.2)

end Playout

end ConferenceMix
