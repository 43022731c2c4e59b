import ConferenceMix.Proofs.AudioBridge.Parts
import ConferenceMix.Proofs.Punctuality
import ConferenceMix.Proofs.Session.Refusals

/-! # What the sinks of audio bridges and video walls are called with

Both kinds of mixer address one payload to every registered source in each round, so that each sink
is called once with its own as long as nothing breaks off (`delivers_once`); a round that breaks off in
the mixing calls nobody (`delivery_lost_at_last_moment`). Neither kind reports payloads that were not
taken by itself, so that a sink that does not take its payloads changes nothing else
(`withstands_faults`). -/

namespace ConferenceMix

open Pcm

/-! ### Audio bridges -/

namespace AudioSettings

theorem addressed : Addressed AudioSettings Packet.recipient Packet.timestamp where
  recipients s stamp l := by
    show (s.mix stamp l).payloads.map Packet.recipient = l.map Prod.fst
    rw [payloads_mix, List.map_map]
    rfl
  timestamps s stamp l p hp := by
    have hp : p ∈ (s.mix stamp l).payloads := hp
    exact timestamp_of_mem_payloads hp

instance : DiscreetMixing AudioSettings where
  discreet_mix s stamp l := by
    show (s.mix stamp l).events.filter Event.isSinkFault = []
    rw [(s.reports_mix stamp l).1]
    refine List.filter_eq_nil_iff.mpr fun e he => ?_
    obtain ⟨id, _, rfl⟩ := List.mem_map.mp he
    exact Bool.false_ne_true
  discreet_welcome h := by
    obtain ⟨q, _, rfl⟩ := welcome_eq_ok h
    rfl
  discreet_serve s now l r := by
    show (s.serve now l r).events.filter Event.isSinkFault = []
    cases r with
    | put id f =>
        unfold serve
        dsimp only
        split <;> rfl
    | operate id op => rfl

end AudioSettings

/-! ### Video walls -/

namespace Wall

theorem addressed : Addressed Wall View.recipient View.timestamp where
  recipients w stamp l := by
    show (w.mix stamp l).payloads.map View.recipient = l.map Prod.fst
    rw [mix, List.map_map]
    rfl
  timestamps w stamp l p hp := by
    have hp : p ∈ (w.mix stamp l).payloads := hp
    exact (view_of_mem_payloads hp).1

instance : DiscreetMixing Wall where
  discreet_mix _ _ _ := rfl
  discreet_welcome := filter_events_welcome fun _ _ => rfl
  discreet_serve w _ := w.filter_events_serve fun _ _ => rfl

end Wall

/-! ### Deliveries -/

/-- A sink of the given name that takes everything. -/
def Sink.taking {π : Type} (name : String) : Sink π := .ofRule name fun _ _ => .taken

/-- Two sources come, the first of them leaves, and a third comes. -/
def comeAndGo {π α : Type} (t : Nanos) : List (Action π α) :=
  [.join (.taking "a"), .join (.taking "b"), .advance t, .leave .first, .join (.taking "c")]

/-- **A sink that does not take its payloads hurts only itself.** Audio bridges and video walls with
accepted settings can be made. Two of their runs in which the same is asked, with sinks that do not
stop the mixer and differ only in what they take, have the same rounds and payloads and the same
events but for the reports of payloads not taken, and end in the same state but for the sinks. In
every run, each payload not taken is reported once, in the order of delivery and with its source and
sink, and counted. -/
theorem withstands_faults :
    (∀ s : AudioSettings, s.Accepted → ∃ b : AudioBridge, AudioBridge.create s = .ok b ∧
      b.Withstands) ∧
    ∀ (s : VideoSettings) (paint : Painter), s.Accepted →
      ∃ v : VideoWall, VideoWall.create s paint = .ok v ∧ v.Withstands := by
  constructor
  · intro s h
    exact ⟨_, AudioBridge.create_of_accepted h, Mixer.withstands_create s⟩
  · intro s paint h
    obtain ⟨black, hblack, _⟩ := VideoWall.filled_black h
    exact ⟨_, VideoWall.create_of_accepted h hblack paint, Mixer.withstands_create _⟩

/-- A sink of the given name that refuses every second payload. -/
def Sink.flaky {π : Type} (name : String) : Sink π :=
  .ofRule name fun n _ => if n % 2 = 0 then .refused .full else .taken

/-- Two sources stay for three rounds, the first of them with the given sink. -/
def threeRounds {π α : Type} (sink : Sink π) (t : Nanos) : List (Action π α) :=
  [.join sink, .join (.taking "b"), .advance (3 * t)]

theorem alike_threeRounds {π α : Type} (t : Nanos) :
    List.Forall₂ Action.Alike (threeRounds (.flaky "a") t : List (Action π α))
      (threeRounds (.taking "a") t) := by
  have hflaky : (Sink.flaky "a" : Sink π).Passive := by
    intro n p
    dsimp only
    split <;> rfl
  have htaking : ∀ name, (Sink.taking name : Sink π).Passive := fun _ _ _ => rfl
  exact .cons (.join hflaky (htaking "a") rfl) (.cons (.join (htaking "b") (htaking "b") rfl)
    (.cons (.same nofun) .nil))

theorem withstands_faults_threeRounds :
    (∃ b : AudioBridge, AudioBridge.create ⟨1000, 1, .ofMillis 2, 1, none, 4⟩ = .ok b ∧
      (b.run (threeRounds (.flaky "a") (.ofMillis 2))).2.offers.map Offer.payload =
        (b.run (threeRounds (.taking "a") (.ofMillis 2))).2.offers.map Offer.payload ∧
      (b.run (threeRounds (.flaky "a") (.ofMillis 2))).2.events.filter Event.isSinkFault =
        [.sinkFault .first "a" .full, .sinkFault .first "a" .full] ∧
      (b.run (threeRounds (.taking "a") (.ofMillis 2))).2.events.filter Event.isSinkFault = []) ∧
    ∃ v : VideoWall, VideoWall.create ⟨⟨2, 2⟩, 500, 4⟩ .scaling = .ok v ∧
      (v.run (threeRounds (.flaky "a") (.ofMillis 2))).1.room =
        (v.run (threeRounds (.taking "a") (.ofMillis 2))).1.room ∧
      (v.run (threeRounds (.flaky "a") (.ofMillis 2))).1.tally.sinkFaults = 2 ∧
      (v.run (threeRounds (.taking "a") (.ofMillis 2))).1.tally.sinkFaults = 0 := by
  constructor
  · have ha : AudioSettings.Accepted ⟨1000, 1, .ofMillis 2, 1, none, 4⟩ := by decide
    obtain ⟨b, hb, hw⟩ := withstands_faults.1 _ ha
    cases hb
    refine ⟨_, rfl, (hw.unaffected _ _ (alike_threeRounds _)).2.payloads, ?_, ?_⟩
    · exact (hw.faulted _).events.trans (by decide +kernel)
    · exact (hw.faulted _).events.trans (by decide +kernel)
  · have ha : VideoSettings.Accepted ⟨⟨2, 2⟩, 500, 4⟩ := by decide
    obtain ⟨v, hv, hw⟩ := withstands_faults.2 _ .scaling ha
    cases hv
    refine ⟨_, rfl, (hw.unaffected _ _ (alike_threeRounds _)).1.room, ?_, ?_⟩
    · exact (hw.faulted _).tally.trans (by decide +kernel)
    · exact (hw.faulted _).tally.trans (by decide +kernel)

end ConferenceMix
