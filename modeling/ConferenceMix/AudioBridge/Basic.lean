import ConferenceMix.AudioBridge.Settings
import ConferenceMix.Pcm.MixMinus
import ConferenceMix.Pcm.Packet
import ConferenceMix.Playout.Checked
import ConferenceMix.Session.Worker

/-! # Audio bridges

An `AudioBridge` is a mixer of sound. It keeps a playout queue for every source; a round reads one
packet from every queue and gives each source the sum of all others. Producers put fragments into
their queue at any time, also after the bridge has stopped. A round breaks off when a read does, with
the queues before that one read and those behind it as they were. -/

namespace ConferenceMix

open Pcm

/-- What can be asked of an audio bridge about one of its sources. -/
inductive AudioRequest where
  /-- Queues a fragment; going over the cap is reported and counted. -/
  | put (id : SourceId) (fragment : Fragment)
  /-- Works on the queue directly; nothing is reported or counted by the bridge. -/
  | operate (id : SourceId) (op : Operation)
deriving DecidableEq, Repr

namespace AudioSettings

/-- The queue of a newcomer. -/
def welcome (s : AudioSettings) (_ : List PlayoutQueue) :
    Except Misuse (Admission AudioSettings PlayoutQueue) :=
  (PlayoutQueue.create s.wishBytes s.capBytes).map fun q => ⟨s, q, []⟩

/-- One packet read from every queue. -/
def readAll (s : AudioSettings) (seated : List (SourceId × PlayoutQueue)) :
    List (SourceId × PlayoutQueue × ReadResult) :=
  seated.map fun m => (m.1, m.2.read s.packetBytes)

/-- The packet of mixed samples for one source. -/
def packet (s : AudioSettings) (stamp : Nanos) (id : SourceId) (samples : List Int16) : Packet :=
  ⟨samples, stamp, s.rate, s.channels, id⟩

/-- One round: every queue is read before anything is mixed, and every source gets the sum of all
others. -/
def mix (s : AudioSettings) (stamp : Nanos) (seated : List (SourceId × PlayoutQueue)) :
    Yield AudioSettings PlayoutQueue Packet :=
  let reads := s.readAll seated
  let short := reads.filter fun r => r.2.2.status = .underrun
  { room := s
    seats := reads.map fun r => r.2.1
    payloads := List.zipWith (s.packet stamp) (reads.map fun r => r.1)
      (mixMinus (reads.map fun r => decode r.2.2.output))
    underruns := short.length
    events := short.map fun r => .underrun r.1 }

theorem length_seats_mix (s : AudioSettings) (stamp : Nanos)
    (seated : List (SourceId × PlayoutQueue)) :
    (s.mix stamp seated).seats.length = seated.length := by
  simp [mix, readAll]

theorem length_payloads_mix (s : AudioSettings) (stamp : Nanos)
    (seated : List (SourceId × PlayoutQueue)) :
    (s.mix stamp seated).payloads.length = seated.length := by
  simp [mix, readAll, length_mixMinus]

/-- The queue of a source after a change, and what the change answers. -/
def change (seated : List (SourceId × PlayoutQueue)) (id : SourceId)
    (f : PlayoutQueue → PlayoutQueue × Answer) : List PlayoutQueue × Answer :=
  (seated.map fun m => if m.1 = id then (f m.2).1 else m.2,
    match seated.find? fun m => m.1 = id with
    | some m => (f m.2).2
    | none => .done)

/-- Carries out a request at clock time `now`. -/
def serve (s : AudioSettings) (now : Nanos) (seated : List (SourceId × PlayoutQueue)) :
    AudioRequest → Service AudioSettings PlayoutQueue Answer
  | .put id f =>
      let changed := change seated id fun q => Operation.apply (.append f) now q
      match changed.2 with
      | .dropped (n + 1) => ⟨s, changed.1, .ok .done, 1, [.overrun id (n + 1)]⟩
      | _ => ⟨s, changed.1, .ok .done, 0, []⟩
  | .operate id op =>
      let changed := change seated id fun q => op.apply now q
      ⟨s, changed.1, .ok changed.2, 0, []⟩

instance : Mixing AudioSettings PlayoutQueue Packet AudioRequest Answer where
  interval := packetTime
  welcome := welcome
  depart := id
  mix := mix
  serve := serve

/-! ### Breaking off -/

/-- What a round leaves behind in which the read of a queue breaks off, if one does. -/
def wreck? (s : AudioSettings) : List (SourceId × PlayoutQueue) → Option (Wreck PlayoutQueue)
  | [] => none
  | m :: ms =>
      match m.2.read? s.packetBytes with
      | .error left => some ⟨left :: ms.map Prod.snd, 0, []⟩
      | .ok r =>
          let events := if r.2.status = .underrun then [.underrun m.1] else []
          (wreck? s ms).map fun rest =>
            ⟨r.1 :: rest.seats, events.length + rest.underruns, events ++ rest.events⟩

/-- The queues after a request that breaks off, if it does: those that put fragments do not. -/
def spoil? (last now : Nanos) (seated : List (SourceId × PlayoutQueue)) :
    AudioRequest → Option (List PlayoutQueue)
  | .put .. => none
  | .operate id op =>
      match (seated.find? fun m => m.1 = id).map fun m => op.carryOut? last now m.2 with
      | some (.error left) => some (seated.map fun m => if m.1 = id then left else m.2)
      | _ => none

instance : Breakable AudioSettings PlayoutQueue AudioRequest where
  wreck? := wreck?
  spoil? _ := spoil?

end AudioSettings

/-- A mixer of sound. -/
abbrev AudioBridge := Mixer AudioSettings PlayoutQueue Packet

namespace AudioBridge

/-- A running bridge without sources, if the settings can be used. -/
def create (s : AudioSettings) : Except Misuse AudioBridge :=
  match s.misuse? with
  | some cause => .error cause
  | none => .ok (Mixer.create s)

/-- The playout queue of a source. -/
def queue? (b : AudioBridge) (id : SourceId) : Option PlayoutQueue :=
  (b.roster.find? id).map Member.seat

/-- A short description of the bridge. -/
def describe (b : AudioBridge) : String :=
  "AudioMixer \x7b config: " ++ b.room.describe ++ ", running: " ++ toString b.running ++ ", .. \x7d"

/-- A short description of a source. -/
def describeSource (id : SourceId) (q : PlayoutQueue) : String :=
  "AudioSource \x7b id: SourceId(" ++ toString id.number ++ "), buffer: " ++ q.describe ++ " \x7d"

end AudioBridge

end ConferenceMix
