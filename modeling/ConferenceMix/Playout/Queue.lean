import ConferenceMix.Fault
import ConferenceMix.Pcm.Fragment

/-! # Playout queues

A `PlayoutQueue` evens out the arrival of fragments. It waits until `wish` bytes are held (it is
*filling*), then gives bytes out in the order of their timestamps, and waits again once it runs
short. With a cap, a fragment that takes it beyond the cap costs the one at the front.

`unread` is what the queue holds, front to back, and `drain_append` says what reading does to it.

The place of a new fragment is found by a search that takes the timestamps to be in order, and that
may end anywhere where they are not. `insertAt` queues a fragment at a given place; `append` takes the
place behind all fragments that start no later, which is what the search finds in a queue in order. -/

namespace ConferenceMix

open Pcm

/-! ### Queued fragments -/

/-- A fragment of which the first `taken` bytes have been read. Its timestamp is that of the first
unread byte. -/
structure Queued where
  fragment : Fragment
  taken : Nat
deriving DecidableEq, Repr

namespace Queued

/-- The bytes not yet read. -/
def unread (q : Queued) : List UInt8 := q.fragment.data.drop q.taken

/-- The number of bytes not yet read. -/
def remaining (q : Queued) : Nat := q.fragment.data.length - q.taken

/-- The moment of the first unread byte. -/
def timestamp (q : Queued) : Nanos := q.fragment.timestamp

/-- The fragment after `n` more bytes have been read. -/
def advance (q : Queued) (n : Nat) : Queued :=
  { fragment := { q.fragment with timestamp := q.fragment.timestamp + q.fragment.playback n }
    taken := q.taken + n }

theorem length_unread (q : Queued) : q.unread.length = q.remaining := by
  simp [unread, remaining]

theorem unread_advance (q : Queued) (n : Nat) : (q.advance n).unread = q.unread.drop n := by
  simp [unread, advance, List.drop_drop]

end Queued

/-! ### Taking bytes from the front -/

/-- The bytes of a list of queued fragments, front to back. -/
def unreadBytes (queued : List Queued) : List UInt8 := queued.flatMap Queued.unread

/-- Takes `n` bytes, or all there are, from the front: the bytes and what stays queued. A fragment
leaves when its last byte is taken; one that is taken in part is advanced. -/
def drain : Nat → List Queued → List UInt8 × List Queued
  | _, [] => ([], [])
  | n, q :: qs =>
      if n = 0 then ([], q :: qs)
      else if q.remaining ≤ n then
        let rest := drain (n - q.remaining) qs
        (q.unread ++ rest.1, rest.2)
      else (q.unread.take n, q.advance n :: qs)

@[simp] theorem drain_nil (n : Nat) : drain n [] = ([], []) := by
  simp [drain]

@[simp] theorem drain_zero (qs : List Queued) : drain 0 qs = ([], qs) := by
  cases qs <;> simp [drain]

theorem drain_cons_of_le {n : Nat} {q : Queued} (qs : List Queued) (hn : n ≠ 0)
    (h : q.remaining ≤ n) :
    drain n (q :: qs) =
      (q.unread ++ (drain (n - q.remaining) qs).1, (drain (n - q.remaining) qs).2) := by
  simp [drain, hn, h]

theorem drain_cons_of_lt {n : Nat} {q : Queued} (qs : List Queued) (hn : n ≠ 0)
    (h : n < q.remaining) : drain n (q :: qs) = (q.unread.take n, q.advance n :: qs) := by
  simp [drain, hn, Nat.not_le.mpr h]

/-- Nothing is lost: what is taken and what stays make up what was queued. -/
theorem drain_append (n : Nat) (qs : List Queued) :
    (drain n qs).1 ++ unreadBytes (drain n qs).2 = unreadBytes qs := by
  induction qs generalizing n with
  | nil => simp [unreadBytes]
  | cons q qs ih =>
      by_cases hn : n = 0
      · subst hn; simp
      · by_cases h : q.remaining ≤ n
        · rw [drain_cons_of_le qs hn h, List.append_assoc, ih]
          simp [unreadBytes]
        · rw [drain_cons_of_lt qs hn (by omega)]
          simp only [unreadBytes, List.flatMap_cons, Queued.unread_advance, ← List.append_assoc,
            List.take_append_drop]

/-- What is taken is the front of what was queued. -/
theorem drain_fst (n : Nat) (qs : List Queued) : (drain n qs).1 = (unreadBytes qs).take n := by
  induction qs generalizing n with
  | nil => simp [unreadBytes]
  | cons q qs ih =>
      by_cases hn : n = 0
      · subst hn; simp
      · have hu : unreadBytes (q :: qs) = q.unread ++ unreadBytes qs := by simp [unreadBytes]
        by_cases h : q.remaining ≤ n
        · have hq : q.unread.take n = q.unread :=
            List.take_of_length_le (by rw [q.length_unread]; exact h)
          rw [drain_cons_of_le qs hn h, hu, ih, List.take_append, q.length_unread, hq]
        · rw [drain_cons_of_lt qs hn (by omega), hu, List.take_append_of_le_length
            (by rw [q.length_unread]; omega)]

/-! ### The queue -/

/-- Fragments on their way from a producer to a mix. -/
structure PlayoutQueue where
  /-- The number of bytes to wait for before playing. -/
  wish : Nat
  /-- The number of bytes above which a fragment is dropped. -/
  cap : Option Nat
  queued : List Queued
  /-- The number of bytes held. -/
  held : Nat
  filling : Bool
  /-- When the next timed read is due. -/
  nextRead : Option Nanos
  overruns : Nat
  underruns : Nat
deriving DecidableEq, Repr

/-- How a read went. -/
inductive ReadStatus where
  /-- All bytes asked for were there. -/
  | filled
  /-- The queue is still waiting for its wish. -/
  | filling
  /-- The queue ran short while playing. -/
  | underrun
deriving DecidableEq, Repr

/-- The result of a read: `count` bytes of sound and then silence in `output`, with the time and
rate of the fragment that the sound starts in. -/
structure ReadResult where
  status : ReadStatus
  count : Nat
  timestamp : Option Nanos
  rate : Nat
  channels : Nat
  output : List UInt8
deriving DecidableEq, Repr

namespace ReadResult

/-- Silence of `n` bytes. -/
def silent (status : ReadStatus) (n : Nat) : ReadResult :=
  ⟨status, 0, none, 0, 0, List.replicate n 0⟩

end ReadResult

/-- The result of a timed read. -/
inductive TimedRead where
  /-- It is too early. -/
  | early
  | read (result : ReadResult)
deriving DecidableEq, Repr

namespace PlayoutQueue

/-- An empty queue. The wish is examined before the cap. -/
def create (wish : Nat) (cap : Option Nat) : Except Misuse PlayoutQueue :=
  if wish = 0 then .error (.zero "wish_size")
  else if cap = some 0 then .error .zeroCap
  else .ok
    { wish, cap, queued := [], held := 0, filling := true, nextRead := none, overruns := 0
      underruns := 0 }

/-- The bytes held, front to back. -/
def unread (q : PlayoutQueue) : List UInt8 := unreadBytes q.queued

/-- The number of queued fragments. -/
def count (q : PlayoutQueue) : Nat := q.queued.length

/-! ### Writing -/

/-- Drops the fragment at the front if the queue holds more than its cap. Returns the number of
bytes dropped. -/
def evict (q : PlayoutQueue) : PlayoutQueue × Nat :=
  match q.cap, q.queued with
  | some cap, front :: rest =>
      if q.held ≤ cap then (q, 0)
      else
        ({ q with
            queued := rest
            held := q.held - front.remaining
            overruns := q.overruns + 1 },
          front.remaining)
  | _, _ => (q, 0)

/-- The queue with a fragment behind the first `k` others, before anything is dropped for it. -/
def placed (q : PlayoutQueue) (k : Nat) (f : Fragment) : PlayoutQueue :=
  { q with
    queued := q.queued.take k ++ ⟨f, 0⟩ :: q.queued.drop k
    held := q.held + f.data.length }

/-- Queues a fragment behind the first `k` others. Returns the number of bytes that had to be
dropped for it. A fragment without bytes is ignored. -/
def insertAt (q : PlayoutQueue) (k : Nat) (f : Fragment) : PlayoutQueue × Nat :=
  if f.data = [] then (q, 0) else (q.placed k f).evict

/-- The number of fragments at the front that start no later than `t`. It is where a search by
timestamp ends if the fragments are in order; if they are not, the search may end elsewhere. -/
def position (q : PlayoutQueue) (t : Nanos) : Nat :=
  (q.queued.takeWhile fun e => decide (e.timestamp ≤ t)).length

/-- Queues a fragment behind all that start no later. Returns the number of bytes that had to be
dropped for it. -/
def append (q : PlayoutQueue) (f : Fragment) : PlayoutQueue × Nat :=
  q.insertAt (q.position f.timestamp) f

/-- Queues bytes in the order of arrival. -/
def write (q : PlayoutQueue) (data : List UInt8) : PlayoutQueue × Nat :=
  q.append (.untimed data)

/-! ### Reading -/

/-- Takes up to `n` bytes out and fills the output up with silence. -/
def takeOut (q : PlayoutQueue) (status : ReadStatus) (n : Nat) : PlayoutQueue × ReadResult :=
  let taken := drain n q.queued
  let front := if n = 0 then none else q.queued.head?
  ({ q with queued := taken.2, held := q.held - taken.1.length },
    { status
      count := taken.1.length
      timestamp := front.map Queued.timestamp
      rate := (front.map fun e => e.fragment.rate).getD 0
      channels := (front.map fun e => e.fragment.channels).getD 0
      output := taken.1 ++ List.replicate (n - taken.1.length) 0 })

/-- Reads `n` bytes. A queue that is filling stays silent and unchanged until it holds its wish; one
that plays and holds fewer than `n` bytes gives all it has and is filling again. -/
def read (q : PlayoutQueue) (n : Nat) : PlayoutQueue × ReadResult :=
  if q.filling then
    if q.held < q.wish then (q, .silent .filling n)
    else { q with filling := false }.takeOut .filled n
  else
    if q.held < n then { q with filling := true, underruns := q.underruns + 1 }.takeOut .underrun n
    else q.takeOut .filled n

/-- Reads `n` bytes if a read is due at clock time `now`. The first read is due at once, and each
later one `interval` after the one before was due. -/
def timedRead (q : PlayoutQueue) (now interval : Nanos) (n : Nat) :
    Except Misuse (PlayoutQueue × TimedRead) :=
  if interval = 0 then .error (.zero "ptime")
  else
    let due := q.nextRead.getD now
    if now < due then .ok (q, .early)
    else
      let r := { q with nextRead := some (due + interval) }.read n
      .ok (r.1, .read r.2)

/-! ### Emptying and ordering -/

/-- Drops all that is held and starts anew; the counters stay. -/
def flush (q : PlayoutQueue) : PlayoutQueue :=
  { q with queued := [], held := 0, filling := true, nextRead := none }

/-- Orders the fragments by timestamp; equal ones keep their order. -/
def sort (q : PlayoutQueue) : PlayoutQueue :=
  { q with queued := q.queued.mergeSort fun a b => decide (a.timestamp ≤ b.timestamp) }

/-- The fragments are in the order of their timestamps. -/
def Ordered (q : PlayoutQueue) : Prop :=
  q.queued.Pairwise fun a b => a.timestamp ≤ b.timestamp

/-! ### Texts -/

/-- A short account of the fill level and the counters. -/
def summary (q : PlayoutQueue) : String :=
  "wish_sz=" ++ toString q.wish ++ " cur_sz=" ++ toString q.held ++ " filling=" ++
    toString q.filling ++ " [overrun=" ++ toString q.overruns ++ " underrun=" ++
    toString q.underruns ++ "]"

/-- A short description: the limits, and how many bytes and fragments are held. -/
def describe (q : PlayoutQueue) : String :=
  let cap := match q.cap with
    | some cap => "Some(" ++ toString cap ++ ")"
    | none => "None"
  "JitterBuffer \x7b wish_size: " ++ toString q.wish ++ ", max_size: " ++ cap ++
    ", cur_size: " ++ toString q.held ++ ", frames: " ++ toString q.count ++ ", filling: " ++
    toString q.filling ++ ", .. \x7d"

end PlayoutQueue

end ConferenceMix
