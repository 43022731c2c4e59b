import ConferenceMix.Proofs.AudioBridge.Ledger
import ConferenceMix.Proofs.Session.Deposits
import ConferenceMix.Proofs.VideoWall.Redraw

/-! # Producers do not interfere

A fragment goes into the queue of the source that puts it, and a picture on its screen, so that both
are deposits. `producers_interleave` concludes that the producers of audio bridges and of video walls
need not agree on who comes first. -/

namespace ConferenceMix

open Pcm

/-- What comes of putting a fragment: the queue takes it in and reports the bytes that it drops. -/
def PlayoutQueue.deposit (id : SourceId) (f : Fragment) (q : PlayoutQueue) : Deposit PlayoutQueue :=
  ⟨(q.append f).1, if 0 < (q.append f).2 then 1 else 0,
    if 0 < (q.append f).2 then [.overrun id (q.append f).2] else []⟩

theorem AudioSettings.deposits : Deposits AudioSettings AudioRequest.put PlayoutQueue.deposit where
  room s now seated id f := s.room_serve now seated (.put id f)
  seats s now seated id f := s.seats_serve_put now seated id f
  overruns s now seated id f := by
    refine (s.serve_put now seated id f).1.trans ?_
    unfold dropping
    cases seated.find? fun m => m.1 = id <;> rfl
  events s now seated id f := by
    refine (s.serve_put now seated id f).2.trans ?_
    unfold dropping
    cases seated.find? fun m => m.1 = id <;> rfl
  about id f q e he := by
    unfold PlayoutQueue.deposit at he
    dsimp only at he
    split at he
    · rw [List.mem_singleton.mp he]
      rfl
    · cases he

/-- What comes of putting a picture: it is the latest one. -/
def Screen.deposit (_ : SourceId) (p : Picture) (s : Screen) : Deposit Screen :=
  ⟨{ s with latest := some p }, 0, []⟩

theorem Wall.deposits : Deposits Wall VideoRequest.put Screen.deposit where
  room _ _ _ _ _ := rfl
  seats _ _ _ _ _ := rfl
  overruns _ _ seated id _ := by
    cases seated.find? fun m => m.1 = id <;> rfl
  events _ _ seated id _ := by
    cases seated.find? fun m => m.1 = id <;> rfl
  about _ _ _ _ he := nomatch he

/-- **Producers do not interfere.** Audio bridges and video walls with accepted settings can be made,
and whenever sources put fragments or pictures, only the order among those of each source counts: it
decides what is kept, counted, reported about a source and delivered from then on. -/
theorem producers_interleave :
    (∀ s : AudioSettings, s.Accepted → ∃ b : AudioBridge, AudioBridge.create s = .ok b ∧
      b.PutsApart AudioRequest.put) ∧
    ∀ (s : VideoSettings) (paint : Painter), s.Accepted →
      ∃ v : VideoWall, VideoWall.create s paint = .ok v ∧ v.PutsApart VideoRequest.put := by
  constructor
  · intro s h
    have hpos : 0 < Mixing.interval s := AudioSettings.packetTime_pos h
    exact ⟨Mixer.create s, AudioBridge.create_of_accepted h,
      Mixer.putsApart AudioSettings.deposits hpos⟩
  · intro s paint h
    obtain ⟨black, hcreate, hpos⟩ := VideoWall.exists_create h paint
    exact ⟨_, hcreate, Mixer.putsApart Wall.deposits hpos⟩

/-- Each of two sources puts twice what its queue can hold, one after the other. -/
def inTurn : List (SourceId × Fragment) :=
  [(.first, .untimed [1, 0, 2, 0]), (.first, .untimed [3, 0, 4, 0]), (⟨2⟩, .untimed [5, 0, 6, 0]),
    (⟨2⟩, .untimed [7, 0, 8, 0])]

/-- The same with the sources taking turns. -/
def byTurns : List (SourceId × Fragment) :=
  [(⟨2⟩, .untimed [5, 0, 6, 0]), (.first, .untimed [1, 0, 2, 0]), (⟨2⟩, .untimed [7, 0, 8, 0]),
    (.first, .untimed [3, 0, 4, 0])]

/-- Two sources come, something is put, and it is time for a round. -/
def putByTwo {π α τ : Type} (put : SourceId → τ → α) (us : List (SourceId × τ)) :
    List (Action π α) :=
  [.join .discard, .join .discard] ++ Mixer.puts put us ++ [.advance (.ofMillis 2)]

theorem producers_interleave_byTurns :
    (∃ b : AudioBridge, AudioBridge.create ⟨1000, 1, .ofMillis 2, 1, some 1, 4⟩ = .ok b ∧
      Interleaved inTurn byTurns ∧
      (b.run (putByTwo .put inTurn)).2.SamePerSource (b.run (putByTwo .put byTurns)).2 ∧
      (b.run (putByTwo .put inTurn)).2.events.filter Event.isOverrun =
        [.overrun .first 4, .overrun ⟨2⟩ 4] ∧
      (b.run (putByTwo .put byTurns)).2.events.filter Event.isOverrun =
        [.overrun ⟨2⟩ 4, .overrun .first 4]) ∧
    ∃ v : VideoWall, VideoWall.create ⟨⟨2, 2⟩, 500, 4⟩ .scaling = .ok v ∧
      ∀ p q : Picture,
        (v.run (putByTwo .put [(.first, p), (⟨2⟩, q)])).1.room.composite =
          (v.run (putByTwo .put [(⟨2⟩, q), (.first, p)])).1.room.composite := by
  constructor
  · have ha : AudioSettings.Accepted ⟨1000, 1, .ofMillis 2, 1, some 1, 4⟩ := by decide
    have hi : Interleaved inTurn byTurns := by decide
    obtain ⟨b, hb, hputs⟩ := producers_interleave.1 _ ha
    refine ⟨b, hb, hi, (hputs.run _ _ _ _ hi).2, ?_, ?_⟩
    · cases hb
      decide +kernel
    · cases hb
      decide +kernel
  · have ha : VideoSettings.Accepted ⟨⟨2, 2⟩, 500, 4⟩ := by decide
    obtain ⟨v, hv, hputs⟩ := producers_interleave.2 _ .scaling ha
    refine ⟨v, hv, fun p q => ?_⟩
    have hi : Interleaved [(.first, p), (⟨2⟩, q)] [(⟨2⟩, q), (.first, p)] := by
      rw [interleaved_iff]
      simp [SourceId.first]
    exact congrArg (fun v => v.room.composite) (hputs.run _ _ _ _ hi).1

end ConferenceMix
