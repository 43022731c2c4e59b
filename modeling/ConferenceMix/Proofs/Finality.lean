import ConferenceMix.Proofs.AudioBridge.Shortfall
import ConferenceMix.Proofs.Delivery
import ConferenceMix.Proofs.Session.Stopping

/-! # Audio bridges and video walls stop for good

Both kinds of mixer report sources that run short in rounds only, and have one answer for all that
come after they have stopped. So both stop for good (`stop_is_final`), and a video wall that has
stopped keeps its last composite as well, for only rounds draw (`VideoWall.composite_act`). The answer
of a bridge is that it has stopped, unless the size of a queue comes out as zero in 64 bits
(`stop_is_final_not_overflowing`). -/

namespace ConferenceMix

open Pcm

/-! ### Everyone is welcome -/

namespace AudioBridge

variable {s : AudioSettings} {b : AudioBridge}

theorem room_reachable (hb : (Mixer.create s : AudioBridge).Reachable b) : b.room = s := by
  obtain ⟨_, _, _, hattainable⟩ := s.attainable_kept.reachable .create hb
  exact hattainable.ready.room

/-- A bridge with accepted settings that fit has a queue for everyone, whatever has been done. -/
theorem welcome_reachable (h : s.Accepted) (hf : s.Fits)
    (hb : (Mixer.create s : AudioBridge).Reachable b) :
    ∃ admission, Mixing.welcome b.room b.roster.seats = .ok admission := by
  rw [room_reachable hb]
  exact AudioSettings.welcome_of_accepted h hf _

/-- A bridge that has stopped turns everybody away as its settings say. -/
theorem refusal_reachable (hb : (Mixer.create s : AudioBridge).Reachable b) :
    b.refusal = s.refusal := by
  have hw : Mixing.welcome s b.roster.seats =
      (PlayoutQueue.create s.wishBytes s.capBytes).map fun q => ⟨s, q, []⟩ := rfl
  rw [Mixer.refusal, room_reachable hb, hw, AudioSettings.refusal]
  cases PlayoutQueue.create s.wishBytes s.capBytes <;> rfl

end AudioBridge

instance : ReportingMixing Wall where
  underruns_mix _ _ _ := rfl
  silent_welcome := Wall.filter_events_welcome fun _ _ => rfl
  silent_serve w _ := w.filter_events_serve fun _ _ => rfl

/-! ### The composite of a wall that has stopped -/

namespace VideoWall

/-- Only rounds draw. -/
theorem composite_act (v : VideoWall) (a : Action View VideoRequest) :
    (v.act a).mixer.room.composite = v.room.composite := by
  rcases v.floor_act_cases a with ⟨_, he⟩ | ⟨_, admission, _, hw, he⟩ | ⟨_, _, _, he⟩ |
    ⟨r, _, he⟩
  · exact congrArg (fun f => f.room.composite) he
  · refine (congrArg (fun f => f.room.composite) he).trans ?_
    cases hw
    rfl
  · exact congrArg (fun f => f.room.composite) he
  · refine (congrArg (fun f => f.room.composite) he).trans ?_
    show (v.room.serve v.roster.seated r).room.composite = v.room.composite
    rcases v.room.serve_kinds v.roster.seated r with ⟨_, _, _, hroom, _⟩ | ⟨_, hroom, _⟩ |
      ⟨_, hroom, _⟩ | ⟨_, hroom, _⟩ <;> rw [hroom]

/-- A wall that has stopped keeps its last composite. -/
theorem composite_follow_of_stopped {v : VideoWall} (hr : v.running = false)
    (vs : List (Move View VideoRequest)) : (v.follow vs).1.room.composite = v.room.composite := by
  induction vs generalizing v with
  | nil => rfl
  | cons w vs ih =>
      rw [Mixer.follow_cons, ih (Mixer.still_move hr w).running]
      cases w with
      | act a => exact v.composite_act a
      | look => rw [Mixer.move, Mixer.poll_of_not_running hr]

end VideoWall

/-! ### Stopping -/

/-- A sink of the given name that stops the mixer in its second write. -/
def Sink.stopping {π : Type} (name : String) : Sink π := .ofRule name fun n _ => ⟨none, n = 2⟩

/-- Two sources are there when four rounds have become due, and the first of them stops the mixer in
the first of these rounds. -/
def stopsCatchingUp {π α : Type} (t : Nanos) : List (Action π α) :=
  [.join (.stopping "a"), .join (.taking "b"), .advance (4 * t)]

/-- Time goes by, another source comes, and the first source leaves. -/
def carriesOn {π α : Type} (t : Nanos) : List (Action π α) :=
  [.advance t, .join .discard, .leave .first]

/-- Packets of 16 bytes, and a wish for so many of them that the bytes come out as zero. -/
def overflowing : AudioSettings := ⟨1000, 1, .ofMillis 8, 1152921504606846976, none, 1⟩

end ConferenceMix
