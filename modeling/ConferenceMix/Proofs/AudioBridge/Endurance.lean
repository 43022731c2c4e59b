import ConferenceMix.Proofs.AudioBridge.Parts
import ConferenceMix.Proofs.Playout.Completion
import ConferenceMix.Proofs.Session.Endurance

/-! # Audio bridges that nothing breaks off

A queue is `InTime` when the ends of all its fragments can be told and its next timed read is due by
some time. Reads and operations keep it so. In a run that `Lasts`, the ends of all fragments can be
told, and the time that goes by and the intervals of timed reads leave the clock room for one more
packet; no such run is broken off (`AudioBridge.unbroken_of_lasts`). -/

namespace ConferenceMix

open Pcm

/-! ### Queues in time -/

/-- The ends of all fragments can be told, and the next timed read is due by the given time. -/
structure PlayoutQueue.InTime (now : Nanos) (q : PlayoutQueue) : Prop where
  timely : q.Timely
  next : q.nextRead.getD 0 ≤ now

namespace PlayoutQueue.InTime

variable {q : PlayoutQueue} {clock now : Nanos}

theorem mono (h : q.InTime now) {later : Nanos} (hl : now ≤ later) : q.InTime later :=
  ⟨h.timely, Nat.le_trans h.next hl⟩

theorem horizon_le (h : q.InTime now) (hc : clock ≤ now) : q.horizon clock ≤ now :=
  Nat.max_le.mpr ⟨hc, h.next⟩

theorem apply (h : q.InTime now) (hc : clock ≤ now) {op : Operation} (ho : op.Timely) :
    (op.apply clock q).1.InTime (now + op.span) := by
  refine ⟨ho.apply h.timely clock, ?_⟩
  calc (op.apply clock q).1.nextRead.getD 0
      ≤ (op.apply clock q).1.horizon clock := Nat.le_max_right _ _
    _ ≤ q.horizon clock + op.span := horizon_apply_le op q clock
    _ ≤ now + op.span := Nat.add_le_add_right (h.horizon_le hc) _

theorem read (h : q.InTime now) (n : Nat) : (q.read n).1.InTime now := by
  have ht : (Operation.read n).Timely := trivial
  exact h.apply (Nat.zero_le now) ht

theorem create {wish : Nat} {cap : Option Nat} (h : PlayoutQueue.create wish cap = .ok q) :
    q.InTime now := by
  obtain ⟨_, _, rfl⟩ := PlayoutQueue.eq_of_create h
  exact ⟨nofun, Nat.zero_le now⟩

end PlayoutQueue.InTime

/-! ### Bridges in time -/

namespace AudioSettings

variable {s : AudioSettings} {l : List (SourceId × PlayoutQueue)} {last clock now : Nanos}

/-- A round of timely queues comes to its end. -/
theorem wreck?_eq_none (h : ∀ m ∈ l, m.2.Timely) : s.wreck? l = none := by
  induction l with
  | nil => rfl
  | cons m ms ih =>
      obtain ⟨hm, hms⟩ := List.forall_mem_cons.mp h
      simp only [wreck?, hm.read?, ih hms, Option.map_none]

/-- A request that takes place in time comes to its end. -/
theorem spoil?_eq_none (h : ∀ m ∈ l, m.2.InTime now) (hc : clock ≤ now) {r : AudioRequest}
    (hl : now + r.operation.span ≤ last) : spoil? last clock l r = none := by
  cases r with
  | put id f => rfl
  | operate id op =>
      cases hf : l.find? fun m => m.1 = id with
      | none => simp only [spoil?, hf, Option.map_none]
      | some m =>
          have hm := h m (List.mem_of_find?_eq_some hf)
          have hend : m.2.horizon clock + op.span ≤ last :=
            Nat.le_trans (Nat.add_le_add_right (hm.horizon_le hc) _) hl
          simp only [spoil?, hf, Option.map_some, hm.timely.carryOut? hend]

end AudioSettings

namespace AudioBridge

/-- The time that an action takes, or by which it moves a timeline on. -/
def span : Action Packet AudioRequest → Nanos
  | .ask r => r.operation.span
  | a => a.elapsed

/-- The end of the fragment that an action queues can be told. -/
def Timely : Action Packet AudioRequest → Prop
  | .ask r => r.operation.Timely
  | _ => True

instance : DecidablePred Timely
  | .ask r => inferInstanceAs (Decidable r.operation.Timely)
  | .join _ => .isTrue trivial
  | .leave _ => .isTrue trivial
  | .advance _ => .isTrue trivial
  | .stop => .isTrue trivial
  | .receive _ => .isTrue trivial
  | .hangUp _ => .isTrue trivial

/-- Nothing is late up to the given time: neither the clock nor any queue. -/
structure InTime (now : Nanos) (b : AudioBridge) : Prop where
  clock : b.clock ≤ now
  queues : ∀ m ∈ b.floor.seated, m.2.InTime now

theorem elapsed_le_span (a : Action Packet AudioRequest) : a.elapsed ≤ span a := by
  cases a with
  | ask r => exact Nat.zero_le _
  | _ => exact Nat.le_refl _

variable {b : AudioBridge} {last now : Nanos}

theorem InTime.act (h : InTime now b) {a : Action Packet AudioRequest} (ha : Timely a) :
    InTime (now + span a) (b.act a).mixer := by
  constructor
  · rw [b.clock_act]
    exact Nat.add_le_add h.clock (elapsed_le_span a)
  · have hkeeps : ∀ m ∈ b.floor.seated, m.2.InTime (now + span a) := fun m hm =>
      (h.queues m hm).mono (Nat.le_add_right _ _)
    rcases b.floor_act_cases a with ⟨_, he⟩ | ⟨_, admission, _, hw, he⟩ | ⟨id, _, _, he⟩ |
      ⟨r, rfl, he⟩
    · rw [he]
      exact hkeeps
    · obtain ⟨q, hq, rfl⟩ := AudioSettings.welcome_eq_ok hw
      rw [he]
      intro m hm
      rcases List.mem_append.mp hm with hold | hnew
      · exact hkeeps m hold
      · rw [List.mem_singleton.mp hnew]
        exact .create hq
    · rw [he]
      exact fun m hm => hkeeps m (List.mem_of_mem_eraseP hm)
    · have hseats : (Mixing.serve b.floor.room b.clock b.floor.seated r).seats = _ :=
        AudioSettings.seats_serve _ _ _ r
      rw [he, hseats, Floor.become_map]
      intro m hm
      obtain ⟨x, hx, rfl⟩ := List.mem_map.mp hm
      show PlayoutQueue.InTime _ (if x.1 = r.source then _ else x.2)
      split
      · exact (h.queues x hx).apply h.clock ha
      · exact hkeeps x hx

theorem InTime.round (h : InTime now b) (t : Timeline) : InTime now (b.round t).1 := by
  refine ⟨h.clock, ?_⟩
  have hseats : (Mixing.mix b.floor.room (t.due - t.start) b.floor.seated).seats =
      b.floor.seated.map fun m => (m.2.read b.floor.room.packetBytes).1 :=
    AudioSettings.seats_mix _ _ _
  rw [b.floor_round, hseats, Floor.become_map]
  intro m hm
  obtain ⟨x, hx, rfl⟩ := List.mem_map.mp hm
  exact (h.queues x hx).read _

theorem InTime.act? (h : InTime now b) {a : Action Packet AudioRequest}
    (hl : now + span a ≤ last) : b.act? last a = .ok (b.act a) := by
  cases a with
  | advance t =>
      have hclock : b.clock + t ≤ last := Nat.le_trans (Nat.add_le_add_right h.clock t) hl
      exact if_neg (Nat.not_lt_of_le hclock)
  | ask r =>
      have hspoil : Breakable.spoil? b.room last b.clock b.roster.seated r = none :=
        AudioSettings.spoil?_eq_none h.queues h.clock hl
      simp only [Mixer.act?, hspoil]
  | _ => rfl

theorem enduring (last : Nanos) : Enduring last Timely span InTime where
  clock h := h.clock
  act h ha hl := ⟨h.act? hl, h.act ha⟩
  timed _ h := ⟨h.clock, h.queues⟩
  whole h := AudioSettings.wreck?_eq_none fun m hm => (h.queues m hm).timely
  round t h := h.round t

/-- The ends of all fragments can be told, and the actions leave the clock room for one more
packet. -/
structure Lasts (s : AudioSettings) (last : Nanos) (as : List (Action Packet AudioRequest)) :
    Prop where
  timely : ∀ a ∈ as, Timely a
  time : (as.map span).sum + s.packetTime ≤ last

instance (s : AudioSettings) (last : Nanos) (as : List (Action Packet AudioRequest)) :
    Decidable (Lasts s last as) :=
  decidable_of_iff ((∀ a ∈ as, Timely a) ∧ (as.map span).sum + s.packetTime ≤ last)
    ⟨fun h => ⟨h.1, h.2⟩, fun h => ⟨h.timely, h.time⟩⟩

/-- Nothing breaks off in a run that lasts. -/
theorem unbroken_of_lasts {s : AudioSettings} {as : List (Action Packet AudioRequest)}
    (h : Lasts s last as) :
    (Worker.start (Mixer.create s : AudioBridge)).Unbroken last as := by
  have hcreate : InTime 0 (Mixer.create s) :=
    ⟨Nat.le_refl 0, fun _ hm => absurd hm List.not_mem_nil⟩
  refine (enduring last).unbroken hcreate h.timely ?_
  rw [Nat.zero_add]
  exact h.time

/-- A source puts a packet that starts at the last moment that can be told. The round that is to read it
breaks off. -/
def lastPacket : List (Action Packet AudioRequest) :=
  [.join .discard, .ask (.put .first ⟨[1, 0, 2, 0], 1000, 1, .longest⟩)]

end AudioBridge

end ConferenceMix
