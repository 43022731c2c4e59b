import ConferenceMix.Playout.Operation

/-! # Playout queues where time runs out

Moments can be told up to `Nanos.longest`, and a clock up to its last reading. A read moves the
timestamps of fragments on, and a timed read the time of the next one. Where the new moment can no
longer be told the operation breaks off: there is no answer, and what has been done up to then stays.

`PlayoutQueue.read?` is a read that may break off, in which case it gives what is left of the queue.
`Operation.carryOut?`, `Playout.step?` and `Playout.runAt?` carry this on to operations, steps and runs.
-/

namespace ConferenceMix

open Pcm

/-- What is left when taking `n` bytes from the front breaks off, if it does: the number of bytes that
have been taken off those held, and what stays queued. The fragments before the one at which it breaks
off are gone; of that one the bytes are taken, and it keeps its timestamp. -/
def stall? : Nat → List Queued → Option (Nat × List Queued)
  | _, [] => none
  | n, q :: qs =>
      if n = 0 then none
      else if Nanos.longest < q.timestamp + q.fragment.playback (min q.remaining n) then
        some (0, { q with taken := q.taken + min q.remaining n } :: qs)
      else (stall? (n - q.remaining) qs).map fun left => (q.remaining + left.1, left.2)

namespace PlayoutQueue

/-- What is left of the queue when a read of `n` bytes breaks off, if it does. A queue that runs short
has been counted as such and is filling again, and any other plays. -/
def stalled? (q : PlayoutQueue) (n : Nat) : Option PlayoutQueue :=
  let short := !q.filling && decide (q.held < n)
  if q.filling && decide (q.held < q.wish) then none
  else
    (stall? n q.queued).map fun left =>
      { q with
        queued := left.2
        held := q.held - left.1
        filling := short
        underruns := if short then q.underruns + 1 else q.underruns }

/-- Reads `n` bytes, or breaks off and leaves a queue behind. -/
def read? (q : PlayoutQueue) (n : Nat) : Except PlayoutQueue (PlayoutQueue × ReadResult) :=
  match q.stalled? n with
  | some left => .error left
  | none => .ok (q.read n)

end PlayoutQueue

/-- Carries out an operation at clock time `now`, where `last` is the last reading of the clock, or
breaks off and leaves a queue behind. A timed read that is due needs the time of the next one before
it reads. -/
def Operation.carryOut? (op : Operation) (last now : Nanos) (q : PlayoutQueue) :
    Except PlayoutQueue (PlayoutQueue × Answer) :=
  match op with
  | .read n => (q.read? n).map fun r => (r.1, .read r.2)
  | .timedRead n interval =>
      let due := q.nextRead.getD now
      if interval = 0 ∨ now < due then .ok ((Operation.timedRead n interval).apply now q)
      else if last < due + interval then .error { q with nextRead := some due }
      else
        let next : PlayoutQueue := { q with nextRead := some (due + interval) }
        (next.read? n).map fun r => (r.1, .timedRead (.read r.2))
  | op => .ok (op.apply now q)

namespace Playout

/-- Carries out one step, or breaks off. The clock does not move beyond its last reading. -/
def step? (last : Nanos) (p : Playout) : Step → Except Playout (Playout × Answer)
  | .operate op =>
      match op.carryOut? last p.clock p.queue with
      | .ok r => .ok (⟨r.1, p.clock⟩, r.2)
      | .error q => .error ⟨q, p.clock⟩
  | .advance t => if last < p.clock + t then .error p else .ok (p.step (.advance t))

/-- Carries out one step, or breaks off. A fragment is put behind the first `k` others. -/
def stepAt? (last : Nanos) (p : Playout) (k : Nat) (s : Step) : Except Playout (Playout × Answer) :=
  match s.fragment? with
  | some _ => .ok (p.stepAt k s)
  | none => p.step? last s

/-- Carries out steps one after another and collects the answers, or ends with what the first step
that breaks off leaves behind. -/
def runAt? (last : Nanos) (p : Playout) :
    List (Nat × Step) → Except Playout (Playout × List Answer)
  | [] => .ok (p, [])
  | m :: ms =>
      match p.stepAt? last m.1 m.2 with
      | .error left => .error left
      | .ok first => (runAt? last first.1 ms).map fun rest => (rest.1, first.2 :: rest.2)

end Playout

end ConferenceMix
