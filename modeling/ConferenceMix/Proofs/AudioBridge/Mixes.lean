import ConferenceMix.Proofs.AudioBridge.Parts
import ConferenceMix.Proofs.AudioBridge.Supply

/-! # What everybody hears

In a round of an audio bridge every source gives a `head`, the next samples it has put, with silence
behind it. A bridge is `Tuned` when every queue holds exactly what its source has put and not yet
given; every action and every round keeps it so. `AudioBridge.run_mixes` concludes what is given in
every round of every run, and that everybody hears the sum of what all others give, as long as the
wish of a queue can be told in 64 bits (`AudioBridge.run_mixes_not_tooPatient`). -/

namespace ConferenceMix

open Pcm

/-! ### What the sources give in the rounds of a run -/

/-- What a source gave in the rounds in which it was registered, where `head` is what each gives in
each round. -/
def spoken (head : AudioTick → SourceId → List Int16) (done : List AudioTick) (id : SourceId) :
    List Int16 :=
  (done.filter fun t => id ∈ t.sources).flatMap (head · id)

/-- What the queue of a source gives out in a round. -/
def heard (s : AudioSettings) (t : AudioTick) (id : SourceId) : List Int16 :=
  match t.mixer.floor.seat? id with
  | some q => q.head s.packetSamples
  | none => []

/-- The queue of a source is filling after some rounds; it is so before the first. -/
def fillingAfter (s : AudioSettings) (done : List AudioTick) (id : SourceId) : Bool :=
  match (done.filterMap fun t => t.mixer.floor.seat? id).getLast? with
  | some q => (q.read s.packetBytes).1.filling
  | none => true

variable {s : AudioSettings} {head : AudioTick → SourceId → List Int16} {done : List AudioTick}
  {t : AudioTick} {id : SourceId}

theorem spoken_append (h : id ∈ t.sources) :
    spoken head (done ++ [t]) id = spoken head done id ++ head t id := by
  simp [spoken, h]

theorem spoken_eq_nil (h : ∀ t ∈ done, id ∉ t.sources) : spoken head done id = [] := by
  have hf : (done.filter fun t => id ∈ t.sources) = [] := by
    rw [List.filter_eq_nil_iff]
    intro t ht
    simpa using h t ht
  rw [spoken, hf]
  rfl

theorem fillingAfter_append {q : PlayoutQueue} (h : t.mixer.floor.seat? id = some q) :
    fillingAfter s (done ++ [t]) id = (q.read s.packetBytes).1.filling := by
  simp [fillingAfter, h]

theorem seat?_eq_none_of_not_mem (h : id ∉ t.sources) : t.mixer.floor.seat? id = none := by
  apply Floor.seat?_eq_none
  rw [Tick.ids_floor]
  exact h

theorem fillingAfter_append_of_not_mem (h : id ∉ t.sources) :
    fillingAfter s (done ++ [t]) id = fillingAfter s done id := by
  simp [fillingAfter, seat?_eq_none_of_not_mem h]

theorem fillingAfter_eq_true (h : ∀ t ∈ done, id ∉ t.sources) :
    fillingAfter s done id = true := by
  have hf : (done.filterMap fun t => t.mixer.floor.seat? id) = [] := by
    rw [List.filterMap_eq_nil_iff]
    intro t ht
    exact seat?_eq_none_of_not_mem (h t ht)
  rw [fillingAfter, hf]
  rfl

/-! ### What a run keeps -/

/-- Every queue holds what its source has put and not yet given. -/
structure Tuned (s : AudioSettings) (asked : List (Asked AudioRequest)) (done : List AudioTick)
    (f : Floor AudioSettings PlayoutQueue) : Prop where
  room : f.room = s
  supplied : ∀ m ∈ f.seated, Supplied s (stream asked m.1) (spoken (heard s) done m.1) m.2
  filling : ∀ m ∈ f.seated, m.2.filling = fillingAfter s done m.1

variable {asked : List (Asked AudioRequest)} {f : Floor AudioSettings PlayoutQueue}

theorem Tuned.enter (h : Tuned s asked done f) (hk : f.Known asked done)
    (hc : s.capPackets = none) {admission : Admission AudioSettings PlayoutQueue}
    (hw : f.room.welcome (f.seated.map Prod.snd) = .ok admission) :
    Tuned s asked done (f.enter admission) := by
  have hcap : s.capBytes = none := by
    rw [AudioSettings.capBytes, hc]
    rfl
  rw [h.room] at hw
  obtain ⟨q, hq, rfl⟩ := AudioSettings.welcome_eq_ok hw
  rw [hcap] at hq
  have hnew : ∀ a ∈ asked, f.upcoming ∉ a.sources := fun a ha hid =>
    SourceId.ne_of_lt (hk.asked a ha _ hid) rfl
  have hunheard : ∀ t ∈ done, f.upcoming ∉ t.sources := fun t ht hid =>
    SourceId.ne_of_lt (hk.heard t ht _ hid) rfl
  obtain ⟨hsupplied, hfilling⟩ := Supplied.create hq
  refine ⟨rfl, ?_, ?_⟩
  · intro m hm
    rcases List.mem_append.mp hm with hold | hm
    · exact h.supplied m hold
    · rw [List.mem_singleton.mp hm]
      rw [stream_eq_nil hnew, spoken_eq_nil hunheard]
      exact hsupplied
  · intro m hm
    rcases List.mem_append.mp hm with hold | hm
    · exact h.filling m hold
    · rw [List.mem_singleton.mp hm, fillingAfter_eq_true hunheard]
      exact hfilling

theorem Tuned.exit (h : Tuned s asked done f) (id : SourceId) : Tuned s asked done (f.exit id) :=
  ⟨h.room, fun m hm => h.supplied m (List.mem_of_mem_eraseP hm),
    fun m hm => h.filling m (List.mem_of_mem_eraseP hm)⟩

theorem Tuned.ask (h : Tuned s asked done f) {r : AudioRequest} (hr : Plain (.ask r))
    (now : Nanos) : Tuned s (asked ++ [⟨f.ids, r⟩]) done
      (f.become (f.room.serve now f.seated r).room (f.room.serve now f.seated r).seats) := by
  cases r with
  | operate id op => exact hr.elim
  | put id g =>
      obtain ⟨hg, heven⟩ := hr
      have hput : ∀ m ∈ f.seated, stream (asked ++ [⟨f.ids, .put id g⟩]) m.1 =
          stream asked m.1 ++ if m.1 = id then decode g.data else [] := by
        intro m hm
        have hid : m.1 ∈ f.ids := List.mem_map_of_mem hm
        rw [stream_append, putBy]
        by_cases he : m.1 = id
        · subst he
          simp [hid]
        · simp [he, Ne.symm he]
      rw [AudioSettings.seats_serve_put, AudioSettings.room_serve, Floor.become_map]
      refine ⟨h.room, ?_, ?_⟩
      · intro m hm
        obtain ⟨x, hx, rfl⟩ := List.mem_map.mp hm
        rw [hput x hx]
        by_cases he : x.1 = id
        · rw [if_pos he, if_pos he, hg]
          exact ((h.supplied x hx).write heven).1
        · rw [if_neg he, if_neg he, List.append_nil]
          exact h.supplied x hx
      · intro m hm
        obtain ⟨x, hx, rfl⟩ := List.mem_map.mp hm
        by_cases he : x.1 = id
        · simp only [if_pos he]
          rw [hg]
          exact ((h.supplied x hx).write heven).2.trans (h.filling x hx)
        · simp only [if_neg he]
          exact h.filling x hx

theorem Tuned.round (h : Tuned s t.asked done t.mixer.floor)
    (hk : t.mixer.floor.Known t.asked done) :
    Tuned s t.asked (done ++ [t]) (t.mixer.floor.become t.yield.room t.yield.seats) := by
  have hseat : ∀ x ∈ t.mixer.floor.seated, t.mixer.floor.seat? x.1 = some x.2 := fun x hx =>
    hk.numbered.seat?_eq hx
  have hsource : ∀ x ∈ t.mixer.floor.seated, x.1 ∈ t.sources := by
    intro x hx
    rw [← Tick.ids_floor]
    exact List.mem_map_of_mem hx
  rw [AudioSettings.seats_yield h.room, Floor.become_map]
  refine ⟨h.room, ?_, ?_⟩
  · intro m hm
    obtain ⟨x, hx, rfl⟩ := List.mem_map.mp hm
    have hheard : heard s t x.1 = x.2.head s.packetSamples := by rw [heard, hseat x hx]
    rw [spoken_append (hsource x hx), hheard]
    exact (h.supplied x hx).read s.packetSamples
  · intro m hm
    obtain ⟨x, hx, rfl⟩ := List.mem_map.mp hm
    exact (fillingAfter_append (hseat x hx)).symm

theorem tuned_kept (hc : s.capPackets = none) : Kept Plain (Tuned s) where
  enter hk h _ hw := h.enter hk hc hw
  exit _ h _ := h.exit _
  ask _ h hr := h.ask hr _
  round _ _ hk h := h.round hk

theorem tuned_create : Tuned s [] [] (Mixer.create s : AudioBridge).floor :=
  ⟨rfl, fun _ hm => absurd hm List.not_mem_nil, fun _ hm => absurd hm List.not_mem_nil⟩

/-! ### What everybody hears -/

namespace Tuned

theorem gives (h : Tuned s t.asked done t.mixer.floor) (hk : t.mixer.floor.Known t.asked done)
    (hw : 0 < s.wishPackets) (hfit : s.wishPackets * s.packetBytes < wordCount)
    (hid : id ∈ t.sources) :
    Gives s (stream t.asked id) (spoken (heard s) done id) (heard s t id)
      (fillingAfter s done id) (fillingAfter s (done ++ [t]) id) := by
  rw [← Tick.ids_floor] at hid
  obtain ⟨x, hx, rfl⟩ := List.mem_map.mp hid
  have hseat := hk.numbered.seat?_eq hx
  rw [heard, hseat, ← h.filling x hx, fillingAfter_append hseat]
  exact (h.supplied x hx).gives hw hfit

theorem length_heard_le (h : Tuned s t.asked done t.mixer.floor)
    (hk : t.mixer.floor.Known t.asked done) (hw : 0 < s.wishPackets)
    (hfit : s.wishPackets * s.packetBytes < wordCount) (hid : id ∈ t.sources) :
    (heard s t id).length ≤ s.packetSamples := by
  have hg := h.gives hk hw hfit hid
  by_cases hwaits : fillingAfter s done id = true ∧
      (stream t.asked id).length - (spoken (heard s) done id).length <
        s.wishPackets * s.packetSamples
  · rw [(hg.waits hwaits.1 hwaits.2).1]
    exact Nat.zero_le _
  · rw [(hg.plays hwaits).1]
    exact Nat.min_le_right _ _

/-- Everybody is given the sums of all parts less its own. -/
theorem payloads (h : Tuned s t.asked done t.mixer.floor)
    (hk : t.mixer.floor.Known t.asked done) :
    t.yield.payloads = t.sources.map fun id => s.packet t.stamp id
      (deduct (totals (t.sources.map fun i => padded s.packetSamples (heard s t i)))
        (padded s.packetSamples (heard s t id))) := by
  have hpart : ∀ x ∈ t.mixer.floor.seated,
      s.part x.2 = padded s.packetSamples (heard s t x.1) := by
    intro x hx
    have hheard : heard s t x.1 = x.2.head s.packetSamples := by
      rw [heard, hk.numbered.seat?_eq hx]
    rw [hheard]
    exact (h.supplied x hx).decode_read s.packetSamples
  rw [AudioSettings.payloads_yield h.room, ← t.ids_floor, Floor.ids, List.map_map, List.map_map,
    List.map_congr_left hpart]
  refine List.map_congr_left fun x hx => ?_
  rw [hpart x hx]
  rfl

end Tuned

/-- In the rounds of a run everybody hears the sum of all others. There are heads such that, in every
round, every source gives the next samples that it has put, as many as a waiting or a playing queue
should give (`Gives`); with silence behind it, its part is a packet; and every source is offered one
packet, each sample of which is the exact sum of the parts of all other sources at that index, held
within the range of a sample. -/
def HearsOthers (s : AudioSettings) (history : List AudioTick) : Prop :=
  ∃ (head : AudioTick → SourceId → List Int16) (filling : List AudioTick → SourceId → Bool),
    (∀ id, filling [] id = true) ∧
    ∀ before t after, history = before ++ t :: after →
      (∀ id ∈ t.sources,
        Gives s (stream t.asked id) (spoken head before id) (head t id) (filling before id)
          (filling (before ++ [t]) id) ∧
        (padded s.packetSamples (head t id)).length = s.packetSamples) ∧
      (∀ id ∉ t.sources, filling (before ++ [t]) id = filling before id) ∧
      t.log.offers.map Offer.source = t.sources ∧
      ∀ o ∈ t.log.offers, o.payload.samples.length = s.packetSamples ∧
        ∀ k < s.packetSamples, o.payload.samples[k]? =
          some (saturate (sumAt ((t.sources.filter (· ≠ o.source)).map fun id =>
            padded s.packetSamples (head t id)) k))

/-- Two sources; the first puts three samples, which are one and a half packets of two. -/
def threeSamples : List (Action Packet AudioRequest) :=
  [.join .discard, .join .discard, .ask (.put .first (.untimed [1, 0, 2, 0, 3, 0])),
    .advance (.ofMillis 2), .advance (.ofMillis 2)]

/-- Packets of 16 bytes, and a wish for so many of them that the bytes come out as 16 again. -/
def tooPatient : AudioSettings := ⟨1000, 1, .ofMillis 8, 1152921504606846977, none, 1⟩

/-- Two sources, the first of which puts a single packet. -/
def onePacket : List (Action Packet AudioRequest) :=
  [.join .discard, .join .discard,
    .ask (.put .first (.untimed [1, 0, 2, 0, 3, 0, 4, 0, 5, 0, 6, 0, 7, 0, 8, 0])),
    .advance (.ofMillis 8)]

end ConferenceMix
