import ConferenceMix.AudioBridge.Basic
import ConferenceMix.Proofs.Session.Polling

/-! # What is asked of an audio bridge

A request carries out one operation on the queue of one source (`AudioSettings.seats_serve`).
`stream` is all that a source has put while it was registered, and `Plain` requests put whole
samples without times of their own. -/

namespace ConferenceMix

open Pcm

namespace AudioRequest

/-- The source whose queue a request is about. -/
def source : AudioRequest → SourceId
  | put id _ => id
  | operate id _ => id

/-- What a request does to the queue. -/
def operation : AudioRequest → Operation
  | put _ f => .append f
  | operate _ op => op

end AudioRequest

namespace AudioSettings

instance : LawfulMixing AudioSettings where
  length_seats_mix s stamp seated := s.length_seats_mix stamp seated
  length_payloads_mix s stamp seated := s.length_payloads_mix stamp seated
  length_seats_serve s now seated r := by
    show (s.serve now seated r).seats.length = seated.length
    cases r with
    | put id f =>
        unfold serve
        dsimp only
        split <;> simp [change]
    | operate id op => simp [serve, change]

theorem room_serve (s : AudioSettings) (now : Nanos) (seated : List (SourceId × PlayoutQueue))
    (r : AudioRequest) : (s.serve now seated r).room = s := by
  cases r with
  | put id f =>
      unfold serve
      dsimp only
      split <;> rfl
  | operate id op => rfl

/-- A newcomer gets a queue with the limits of the settings. -/
theorem welcome_eq_ok {s : AudioSettings} {queues : List PlayoutQueue}
    {a : Admission AudioSettings PlayoutQueue} (h : s.welcome queues = .ok a) :
    ∃ q, PlayoutQueue.create s.wishBytes s.capBytes = .ok q ∧ a = ⟨s, q, []⟩ := by
  unfold welcome at h
  cases hq : PlayoutQueue.create s.wishBytes s.capBytes with
  | error cause =>
      rw [hq] at h
      cases h
  | ok q =>
      rw [hq] at h
      cases h
      exact ⟨q, rfl, rfl⟩

instance : SteadyMixing AudioSettings where
  interval_welcome s queues a h := by
    obtain ⟨q, _, rfl⟩ := welcome_eq_ok (s := s) h
    rfl
  interval_depart _ := rfl
  interval_mix _ _ _ := rfl
  interval_serve s now seated r := congrArg packetTime (s.room_serve now seated r)

/-- Accepted settings leave at least a millisecond from one packet to the next. -/
theorem packetTime_pos {s : AudioSettings} (h : s.Accepted) : 0 < s.packetTime := by
  obtain ⟨hsamples, _⟩ := (accepted_iff s).mp h
  refine Nat.pos_of_ne_zero fun hz => ?_
  simp [packetSamples, hz, Nanos.millis] at hsamples

/-- Accepted settings have a rate and channels. -/
theorem rate_and_channels_pos {s : AudioSettings} (h : s.Accepted) : 0 < s.rate ∧ 0 < s.channels := by
  obtain ⟨hsamples, _⟩ := (accepted_iff s).mp h
  constructor <;> refine Nat.pos_of_ne_zero fun hz => ?_ <;> simp [packetSamples, hz] at hsamples

/-- The answer to newcomers that would otherwise be told that the bridge has stopped. A size that
overflows can come out as zero, and then there is no queue for them. -/
def refusal (s : AudioSettings) : Fault :=
  match PlayoutQueue.create s.wishBytes s.capBytes with
  | .ok _ => .stopped
  | .error cause => .misuse cause

theorem refusal_eq_stopped {s : AudioSettings} (hw : s.wishBytes ≠ 0) (hc : s.capBytes ≠ some 0) :
    s.refusal = .stopped := by
  rw [refusal, PlayoutQueue.create, if_neg hw, if_neg hc]

/-- Sizes that fit are no smaller than a packet. -/
theorem Fits.sizes_ne_zero {s : AudioSettings} (hf : s.Fits) (h : s.Accepted) :
    s.wishBytes ≠ 0 ∧ s.capBytes ≠ some 0 := by
  obtain ⟨hsamples, hwish, hcap, _⟩ := (accepted_iff s).mp h
  have hbytes : 0 < s.packetBytes := Nat.mul_pos hsamples (by omega)
  constructor
  · rw [wishBytes_of_lt hf.wish]
    exact Nat.ne_of_gt (Nat.mul_pos hwish hbytes)
  · intro hz
    rw [hf.capBytes_eq] at hz
    obtain ⟨cap, hc, hzero⟩ := Option.map_eq_some_iff.mp hz
    have hle := hcap cap hc
    exact absurd hzero (Nat.ne_of_gt (Nat.mul_pos (by omega) hbytes))

/-- Accepted settings that fit have a queue for everyone. -/
theorem welcome_of_accepted {s : AudioSettings} (h : s.Accepted) (hf : s.Fits)
    (queues : List PlayoutQueue) : ∃ admission, Mixing.welcome s queues = .ok admission := by
  obtain ⟨hwishBytes, hcapBytes⟩ := hf.sizes_ne_zero h
  show ∃ admission, s.welcome queues = .ok admission
  rw [welcome, PlayoutQueue.create, if_neg hwishBytes, if_neg hcapBytes]
  exact ⟨_, rfl⟩

theorem seats_serve (s : AudioSettings) (now : Nanos) (seated : List (SourceId × PlayoutQueue))
    (r : AudioRequest) : (s.serve now seated r).seats =
      seated.map fun m => if m.1 = r.source then (r.operation.apply now m.2).1 else m.2 := by
  cases r with
  | put id f =>
      unfold serve
      dsimp only
      split <;> rfl
  | operate id op => rfl

theorem seats_serve_put (s : AudioSettings) (now : Nanos)
    (seated : List (SourceId × PlayoutQueue)) (id : SourceId) (f : Fragment) :
    (s.serve now seated (.put id f)).seats =
      seated.map fun m => if m.1 = id then (m.2.append f).1 else m.2 :=
  s.seats_serve now seated (.put id f)

end AudioSettings

theorem AudioBridge.create_of_accepted {s : AudioSettings} (h : s.Accepted) :
    AudioBridge.create s = .ok (Mixer.create s) := by
  have hm : s.misuse? = none := h
  rw [create, hm]

/-- A round of an audio bridge. -/
abbrev AudioTick := Tick AudioSettings PlayoutQueue Packet AudioRequest

/-- The samples that a request puts for a source. -/
def putBy (id : SourceId) (a : Asked AudioRequest) : List Int16 :=
  match a.request with
  | .put i f => if i = id ∧ id ∈ a.sources then decode f.data else []
  | .operate .. => []

/-- The samples that have been put for a source while it was registered. -/
def stream (asked : List (Asked AudioRequest)) (id : SourceId) : List Int16 :=
  asked.flatMap (putBy id)

theorem stream_append (asked : List (Asked AudioRequest)) (a : Asked AudioRequest)
    (id : SourceId) : stream (asked ++ [a]) id = stream asked id ++ putBy id a := by
  simp [stream]

/-- A source that was never registered has put nothing. -/
theorem stream_eq_nil {asked : List (Asked AudioRequest)} {id : SourceId}
    (h : ∀ a ∈ asked, id ∉ a.sources) : stream asked id = [] := by
  unfold stream
  rw [List.flatMap_eq_nil_iff]
  intro a ha
  unfold putBy
  split
  · rw [if_neg fun hc => h a ha hc.2]
  · rfl

/-- All that is asked is to put whole samples in the order of arrival; all other actions are
free. -/
def Plain : Action Packet AudioRequest → Prop
  | .ask (.put _ f) => f = .untimed f.data ∧ f.data.length % 2 = 0
  | .ask (.operate ..) => False
  | _ => True

end ConferenceMix
