import ConferenceMix.Proofs.AudioBridge.Shortfall
import ConferenceMix.Proofs.Delivery

/-! # Seams between packets

The packets of a period are cut from a timeline: packet number `k` starts at `frameStart k`, the
number of sample frames that `k` intervals make up in whole milliseconds, and has as many frames as
one interval makes up in whole milliseconds. The two are rounded apart. Packets never overlap, but
they leave gaps unless the settings are `Seamless` (`AudioSettings.frameStart_steps_iff`), and unless
the samples of a packet can be shared out among the channels, packets end in the middle of a frame.
`AudioBridge.packets_meet_iff` says so of the packets that are delivered. -/

namespace ConferenceMix

open Pcm

namespace AudioSettings

variable {s : AudioSettings}

/-! ### Rounding -/

/-- The number of sample frames before packet number `k` of a period. -/
def frameStart (s : AudioSettings) (k : Nat) : Nat :=
  Nanos.millis (k * s.packetTime) * s.rate / 1000

/-- The packet time is a whole number of milliseconds in which a whole number of sample frames is
played. -/
def Seamless (s : AudioSettings) : Prop :=
  s.packetTime = .ofMillis s.packetTime.millis ∧ 1000 ∣ s.rate * s.packetTime.millis

instance (s : AudioSettings) : Decidable s.Seamless := inferInstanceAs (Decidable (_ ∧ _))

/-- The number of frames in a packet does not depend on the number of channels. -/
theorem packetSamples_div_channels (hf : s.Fits) (h : 0 < s.channels) :
    s.packetSamples / s.channels = s.rate * s.packetTime.millis / 1000 := by
  rw [hf.packetSamples_eq, Nat.div_div_eq_div_mul, Nat.mul_right_comm, Nat.mul_div_mul_right _ _ h]

/-- Seamless settings share the samples of a packet out among the channels. -/
theorem Seamless.channels_dvd (h : s.Seamless) (hf : s.Fits) : s.channels ∣ s.packetSamples := by
  obtain ⟨frames, hframes⟩ := h.2
  refine ⟨frames, ?_⟩
  rw [hf.packetSamples_eq, Nat.mul_right_comm, hframes, Nat.mul_assoc, Nat.mul_comm frames,
    Nat.mul_div_cancel_left _ (by omega)]

/-- A packet starts no earlier than the one before it ends. -/
theorem frameStart_add_le (s : AudioSettings) (k : Nat) :
    s.frameStart k + s.rate * s.packetTime.millis / 1000 ≤ s.frameStart (k + 1) := by
  have hmillis : Nanos.millis (k * s.packetTime) + s.packetTime.millis ≤
      Nanos.millis ((k + 1) * s.packetTime) := by
    rw [Nat.succ_mul]
    unfold Nanos.millis
    omega
  calc s.frameStart k + s.rate * s.packetTime.millis / 1000
      ≤ (Nanos.millis (k * s.packetTime) * s.rate + s.rate * s.packetTime.millis) / 1000 := by
        unfold frameStart
        omega
    _ = (Nanos.millis (k * s.packetTime) + s.packetTime.millis) * s.rate / 1000 := by
        rw [Nat.add_mul, Nat.mul_comm s.rate]
    _ ≤ s.frameStart (k + 1) := Nat.div_le_div_right (Nat.mul_le_mul_right _ hmillis)

theorem Seamless.frameStart_eq (h : s.Seamless) (k : Nat) :
    s.frameStart k = k * (s.rate * s.packetTime.millis / 1000) := by
  obtain ⟨hwhole, frames, hframes⟩ := h
  have hmillis : Nanos.millis (k * s.packetTime) = k * s.packetTime.millis := by
    rw [hwhole, Nanos.millis_ofMillis, Nanos.ofMillis, ← Nat.mul_assoc]
    exact Nat.mul_div_cancel _ (by omega)
  rw [frameStart, hmillis, Nat.mul_assoc, Nat.mul_comm _ s.rate, hframes, Nat.mul_left_comm,
    Nat.mul_div_cancel_left _ (by omega), Nat.mul_div_cancel_left _ (by omega)]

/-- After a milliard of packets no rounding is left. -/
theorem frameStart_milliard (s : AudioSettings) :
    s.frameStart 1000000000 = s.packetTime * s.rate := by
  have hmillis : Nanos.millis (1000000000 * s.packetTime) = 1000 * s.packetTime := by
    unfold Nanos.millis
    omega
  rw [frameStart, hmillis, Nat.mul_assoc, Nat.mul_div_cancel_left _ (by omega)]

/-- Settings are seamless if a milliard of packets has as many frames as are played meanwhile. -/
theorem seamless_of_milliard (hr : 0 < s.rate)
    (h : s.packetTime * s.rate = 1000000000 * (s.rate * s.packetTime.millis / 1000)) :
    s.Seamless := by
  have hwhole : 1000000 * s.packetTime.millis ≤ s.packetTime := Nat.mul_div_le ..
  have hframes : 1000 * (s.rate * s.packetTime.millis / 1000) ≤ s.rate * s.packetTime.millis :=
    Nat.mul_div_le ..
  have htime : s.packetTime ≤ 1000000 * s.packetTime.millis := by
    refine Nat.le_of_mul_le_mul_right ?_ hr
    calc s.packetTime * s.rate
        = 1000000 * (1000 * (s.rate * s.packetTime.millis / 1000)) := by
          rw [h, ← Nat.mul_assoc]
      _ ≤ 1000000 * (s.rate * s.packetTime.millis) := Nat.mul_le_mul_left _ hframes
      _ = 1000000 * s.packetTime.millis * s.rate := by
          rw [Nat.mul_comm s.rate, Nat.mul_assoc]
  have heq : s.packetTime = 1000000 * s.packetTime.millis := Nat.le_antisymm htime hwhole
  refine ⟨heq.trans (Nat.mul_comm ..), s.rate * s.packetTime.millis / 1000, ?_⟩
  have hmul : 1000000 * s.packetTime.millis * s.rate =
      1000000000 * (s.rate * s.packetTime.millis / 1000) := heq ▸ h
  rw [Nat.mul_assoc, Nat.mul_comm s.packetTime.millis] at hmul
  omega

/-- **Every packet starts where the one before it ends exactly for seamless settings.** -/
theorem frameStart_steps_iff (hr : 0 < s.rate) :
    (∀ k, s.frameStart (k + 1) = s.frameStart k + s.rate * s.packetTime.millis / 1000) ↔
      s.Seamless := by
  constructor
  · intro h
    have hsum : ∀ k, s.frameStart k = k * (s.rate * s.packetTime.millis / 1000) := by
      intro k
      induction k with
      | zero => simp [frameStart, Nanos.millis]
      | succ k ih => rw [h, ih, Nat.succ_mul]
    exact seamless_of_milliard hr (s.frameStart_milliard.symm.trans (hsum 1000000000))
  · intro h k
    rw [h.frameStart_eq, h.frameStart_eq, Nat.succ_mul]

end AudioSettings

/-! ### A source that stays alone -/

namespace Mixer

variable {κ σ π α β : Type} [Mixing κ σ π α β]

theorem entries_settle (m : Mixer κ σ π) : m.settle.1.roster.entries = m.roster.entries :=
  settle_preserves (g := fun m => m.roster.entries) entries_round (fun _ _ => rfl) m

variable {room : κ} {admission : Admission κ σ} {sink : Sink π} {n : Nat}

/-- A source comes and stays for `n` intervals. -/
def staying (room : κ) (sink : Sink π) (n : Nat) : List (Action π α) :=
  [.join sink, .advance (n * Mixing.interval room)]

/-- A source that is welcome in an empty room is alone in it. -/
theorem join_alone (hw : Mixing.welcome room [] = .ok admission) (sink : Sink π) :
    ((create room : Mixer κ σ π).act (.join sink)).mixer.roster.entries = [(.first, sink.name)] ∧
      ((create room : Mixer κ σ π).act (.join sink)).mixer.clock = 0 := by
  rcases (create room : Mixer κ σ π).join_eq_cases (β := β) sink with ⟨_, _, hno⟩ | ⟨_, _, _, he⟩
  · exact absurd hw (hno rfl admission)
  · have hmixer := congrArg Effect.mixer he
    exact ⟨congrArg (fun m => m.roster.entries) hmixer, congrArg clock hmixer⟩

theorem period_alone (hw : Mixing.welcome room [] = .ok admission) (sink : Sink π) (t : Nanos) :
    (create room : Mixer κ σ π).Period sink [.advance t] := by
  have hids : ∀ m : Mixer κ σ π, m.roster.entries = [(.first, sink.name)] → m.roster.ids ≠ [] := by
    intro m he
    rw [← Roster.map_fst_entries, he]
    exact List.cons_ne_nil _ _
  have hjoined := (entries_settle _).trans (join_alone hw sink).1
  refine ⟨rfl, fun as bs hsplit => ?_⟩
  rcases List.singleton_eq_append_iff.mp hsplit with ⟨rfl, _⟩ | ⟨rfl, _⟩
  · exact hids _ hjoined
  · exact hids _ ((entries_settle _).trans hjoined)

theorem clock_alone (hw : Mixing.welcome room [] = .ok admission) (sink : Sink π) (n : Nat) :
    ((create room : Mixer κ σ π).run (staying room sink n)).1.clock =
      n * Mixing.interval room := by
  let joined := ((create room : Mixer κ σ π).act (.join sink)).mixer
  calc ((create room : Mixer κ σ π).run (staying room sink n)).1.clock
      = joined.settle.1.clock + n * Mixing.interval room := clock_settle _
    _ = n * Mixing.interval room := by
        rw [clock_settle, (join_alone hw sink).2, Nat.zero_add]

/-- In every round the source is called. -/
theorem called_alone [LawfulMixing κ] (hw : Mixing.welcome room [] = .ok admission)
    {t : Tick κ σ π α} (ht : t ∈ (create room : Mixer κ σ π).history (staying room sink n)) :
    ∃ o ∈ t.log.offers, o.source = .first := by
  have hjoined := (join_alone hw sink).1
  have hentries : t.mixer.roster.entries = [(.first, sink.name)] := by
    rcases List.mem_append.mp ht with hm | hm
    · exact (eq_of_mem_dueTicks (g := fun m => m.roster.entries) entries_round (fun _ _ => rfl)
        hm).trans hjoined
    · rw [historyFrom, historyFrom, List.append_nil] at hm
      exact (eq_of_mem_dueTicks (g := fun m => m.roster.entries) entries_round (fun _ _ => rfl)
        hm).trans ((entries_settle _).trans hjoined)
  have hcalled := (t.mixer.called_round t.timeline).trans hentries
  obtain ⟨o, ho, he⟩ := List.mem_map.mp (hcalled ▸ List.mem_singleton_self _)
  exact ⟨o, ho, congrArg Prod.fst he⟩

/-- Nobody stops the mixer, so no round is missing. -/
theorem length_history_alone [SteadyMixing κ] (hw : Mixing.welcome room [] = .ok admission)
    (hpos : 0 < Mixing.interval room) (hs : sink.Passive) (n : Nat) :
    ((create room : Mixer κ σ π).history (staying room sink n)).length = n + 1 := by
  let m : Mixer κ σ π := create room
  have hrunning : (m.run (staying room sink n)).1.running = true := by
    refine (running_upheld.run (d := []) (l := .empty) ⟨Roster.passive_empty, rfl⟩ ?_).2
    intro a ha
    rcases List.mem_pair.mp ha with rfl | rfl
    · exact ⟨nofun, by rintro _ ⟨⟩; exact hs⟩
    · exact ⟨nofun, nofun⟩
  have hperiod : (m.run []).1.Period sink [.advance (n * Mixing.interval room)] :=
    period_alone hw sink _
  obtain ⟨count, hrounds, _, hcount⟩ := rounds_of_period hpos hperiod
  have hstamps := congrArg List.length ((log_run m (staying room sink n)).1.symm.trans hrounds)
  rw [List.length_map, List.length_map, List.length_range] at hstamps
  have hspan : (m.run (staying room sink n)).1.clock - m.clock = n * Mixing.interval room := by
    rw [clock_alone hw]
    exact Nat.sub_zero _
  calc (m.history (staying room sink n)).length
      = ((m.run (staying room sink n)).1.clock - m.clock) / Mixing.interval room + 1 :=
        hstamps.trans (hcount hrunning)
    _ = n + 1 := by rw [hspan, Nat.mul_div_cancel _ hpos]

end Mixer

/-! ### Packets that are delivered -/

theorem AudioSettings.packet_of_mem_offers {s : AudioSettings} {t : AudioTick}
    (h : s.Ready t.mixer.floor) {o : Offer Packet} (ho : o ∈ t.log.offers) :
    o.payload.samples.length = s.packetSamples ∧ o.payload.timestamp = t.stamp ∧
      o.payload.rate = s.rate ∧ o.payload.channels = s.channels := by
  rw [(Mixer.offer_of_payloads (payloads_tick h) ho).2]
  exact ⟨by simp [packet], rfl, rfl, rfl⟩

namespace AudioBridge

/-- All packets delivered in periods have the same number of samples for every channel. -/
def WholeFrames (b : AudioBridge) : Prop :=
  ∀ (before : List (Action Packet AudioRequest)) (sink : Sink Packet)
    (during : List (Action Packet AudioRequest)), (b.run before).1.Period sink during →
    ∀ t ∈ (b.run before).1.history (.join sink :: during), ∀ o ∈ t.log.offers,
      o.payload.samples.length = o.payload.frameCount * o.payload.channels

/-- Any two packets that are delivered to one source in two rounds of a period, one right after the
other, are related. -/
def Consecutive (R : Packet → Packet → Prop) (b : AudioBridge) : Prop :=
  ∀ (before : List (Action Packet AudioRequest)) (sink : Sink Packet)
    (during : List (Action Packet AudioRequest)), (b.run before).1.Period sink during →
    ∀ (k : Nat) (t t' : AudioTick),
      ((b.run before).1.history (.join sink :: during))[k]? = some t →
      ((b.run before).1.history (.join sink :: during))[k + 1]? = some t' →
      ∀ o ∈ t.log.offers, ∀ o' ∈ t'.log.offers, o'.source = o.source → R o.payload o'.payload

/-- Each packet starts where the one before it ends. -/
def Gapless (b : AudioBridge) : Prop :=
  b.Consecutive fun p p' => p'.position = p.position + p.frameCount

/-- No packet starts before the end of the one before it. -/
def WithoutOverlap (b : AudioBridge) : Prop :=
  b.Consecutive fun p p' => p.position + p.frameCount ≤ p'.position

variable {s : AudioSettings}

/-- What can be said of every packet of a period. -/
theorem packet_of_period (h : s.Accepted) (hf : s.Fits) (before : List (Action Packet AudioRequest))
    {sink : Sink Packet} {during : List (Action Packet AudioRequest)}
    (hp : ((Mixer.create s : AudioBridge).run before).1.Period sink during) {k : Nat}
    {t : AudioTick}
    (ht : (((Mixer.create s : AudioBridge).run before).1.history (.join sink :: during))[k]? =
      some t) {o : Offer Packet} (ho : o ∈ t.log.offers) :
    o.payload.samples.length = s.packetSamples ∧ o.payload.channels = s.channels ∧
      o.payload.position = s.frameStart k ∧
      o.payload.frameCount = s.rate * s.packetTime.millis / 1000 := by
  have hpos := AudioSettings.packetTime_pos h
  have hready : s.Ready t.mixer.floor := by
    obtain ⟨_, _, hk, hattainable⟩ :=
      s.attainable_kept.reachable .create (Mixer.reachable_run hpos before)
    have hk₀ : ((Mixer.create s : AudioBridge).run before).1.floor.Known
        ([] : List (Asked AudioRequest)) ([] : List AudioTick) := ⟨hk.numbered, nofun, nofun⟩
    obtain ⟨front, back, hsplit⟩ := List.append_of_mem (List.mem_of_getElem? ht)
    exact ((s.attainable_kept.historyFrom hk₀ hattainable fun _ _ => trivial).at_split
      hsplit).2.ready
  obtain ⟨_, hrounds, _⟩ := Mixer.rounds_of_period hpos hp
  have hstamp : t.stamp = k * s.packetTime := Mixer.stamp_of_rounds hrounds ht
  obtain ⟨hlength, htime, hrate, hchannels⟩ := AudioSettings.packet_of_mem_offers hready ho
  have hc := (AudioSettings.rate_and_channels_pos h).2
  refine ⟨hlength, hchannels, ?_, ?_⟩
  · rw [Packet.position, htime, hstamp, hrate, AudioSettings.frameStart]
  · rw [Packet.frameCount, hlength, hchannels, if_neg (Nat.ne_of_gt hc),
      AudioSettings.packetSamples_div_channels hf hc]

/-- A source that stays alone is called in as many rounds as it stays intervals, and once more. -/
theorem exists_offer_alone (h : s.Accepted) (hf : s.Fits) {k n : Nat} (hk : k ≤ n) :
    ∃ t : AudioTick, ((Mixer.create s : AudioBridge).history
        (.join .discard :: [.advance (n * s.packetTime)]))[k]? = some t ∧
      ∃ o ∈ t.log.offers, o.source = .first := by
  obtain ⟨admission, hw⟩ := AudioSettings.welcome_of_accepted h hf []
  have hpassive : (Sink.discard : Sink Packet).Passive := fun _ _ => rfl
  have hlength := Mixer.length_history_alone hw (AudioSettings.packetTime_pos h) hpassive n
  have hlt : k < ((Mixer.create s : AudioBridge).history
      (Mixer.staying s .discard n)).length := by omega
  exact ⟨_, List.getElem?_eq_getElem hlt, Mixer.called_alone hw (List.getElem_mem hlt)⟩

theorem period_discard (h : s.Accepted) (hf : s.Fits) (t : Nanos) :
    (Mixer.create s : AudioBridge).Period .discard [.advance t] := by
  obtain ⟨_, hw⟩ := AudioSettings.welcome_of_accepted h hf []
  exact Mixer.period_alone hw .discard t

theorem wholeFrames_iff (h : s.Accepted) (hf : s.Fits) :
    WholeFrames (Mixer.create s) ↔ s.channels ∣ s.packetSamples := by
  have hc := (AudioSettings.rate_and_channels_pos h).2
  constructor
  · intro hwhole
    have hp := period_discard h hf (0 * s.packetTime)
    obtain ⟨t, ht, o, ho, _⟩ := exists_offer_alone h hf (Nat.zero_le 0)
    obtain ⟨hlength, hchannels, _⟩ := packet_of_period h hf [] hp ht ho
    have hframes := hwhole [] .discard _ hp t (List.mem_of_getElem? ht) o ho
    rw [hlength, hchannels, Nat.mul_comm] at hframes
    exact ⟨_, hframes⟩
  · intro hdvd before sink during hp t ht o ho
    obtain ⟨k, hk⟩ := List.mem_iff_getElem?.mp ht
    obtain ⟨hlength, hchannels, _, hcount⟩ := packet_of_period h hf before hp hk ho
    rw [hlength, hchannels, hcount, ← AudioSettings.packetSamples_div_channels hf hc]
    exact (Nat.div_mul_cancel hdvd).symm

theorem gapless_iff (h : s.Accepted) (hf : s.Fits) : Gapless (Mixer.create s) ↔ s.Seamless := by
  rw [← AudioSettings.frameStart_steps_iff (AudioSettings.rate_and_channels_pos h).1]
  constructor
  · intro hgapless k
    have hp := period_discard h hf ((k + 1) * s.packetTime)
    obtain ⟨t, ht, o, ho, hsource⟩ := exists_offer_alone h hf (Nat.le_succ k)
    obtain ⟨t', ht', o', ho', hsource'⟩ := exists_offer_alone h hf (Nat.le_refl (k + 1))
    obtain ⟨_, _, hstart, hcount⟩ := packet_of_period h hf [] hp ht ho
    obtain ⟨_, _, hstart', _⟩ := packet_of_period h hf [] hp ht' ho'
    rw [← hstart, ← hstart', ← hcount]
    exact hgapless [] .discard _ hp k t t' ht ht' o ho o' ho' (hsource'.trans hsource.symm)
  · intro hsteps before sink during hp k t t' ht ht' o ho o' ho' _
    obtain ⟨_, _, hstart, hcount⟩ := packet_of_period h hf before hp ht ho
    obtain ⟨_, _, hstart', _⟩ := packet_of_period h hf before hp ht' ho'
    rw [hstart, hstart', hcount]
    exact hsteps k

/-- **Packets meet exactly when an interval is a whole number of milliseconds and of sample frames.**
A bridge with accepted settings whose sizes fit can be made. The packets it delivers in a period never
overlap. They are whole frames exactly when the channels share the samples of a packet evenly, and each
starts where the one before it ends exactly for seamless settings, which also make them whole frames. -/
theorem packets_meet_iff (h : s.Accepted) (hf : s.Fits) :
    ∃ b : AudioBridge, AudioBridge.create s = .ok b ∧ b.WithoutOverlap ∧
      (b.WholeFrames ↔ s.channels ∣ s.packetSamples) ∧ (b.Gapless ↔ s.Seamless) ∧
      (b.Gapless → b.WholeFrames) := by
  refine ⟨_, create_of_accepted h, ?_, wholeFrames_iff h hf, gapless_iff h hf, fun hgapless => ?_⟩
  · intro before sink during hp k t t' ht ht' o ho o' ho' _
    obtain ⟨_, _, hstart, hcount⟩ := packet_of_period h hf before hp ht ho
    obtain ⟨_, _, hstart', _⟩ := packet_of_period h hf before hp ht' ho'
    rw [hstart, hstart', hcount]
    exact s.frameStart_add_le k
  · exact (wholeFrames_iff h hf).mpr (((gapless_iff h hf).mp hgapless).channels_dvd hf)

theorem packets_meet_iff_seamless :
    ∃ b : AudioBridge, AudioBridge.create ⟨22050, 2, .ofMillis 20, 5, some 10, 1⟩ = .ok b ∧
      b.WholeFrames ∧ b.Gapless := by
  have ha : AudioSettings.Accepted ⟨22050, 2, .ofMillis 20, 5, some 10, 1⟩ := by decide
  obtain ⟨b, hb, _, hwhole, hgapless, _⟩ := packets_meet_iff ha (by decide)
  exact ⟨b, hb, hwhole.mpr (by decide), hgapless.mpr (by decide)⟩

/-- A packet of one millisecond that holds a frame and a half. The second channel is cut off, and
the third packet starts two frames after the second. -/
theorem packets_meet_not_always :
    ∃ b : AudioBridge, AudioSettings.Accepted ⟨1500, 2, .ofMillis 1, 1, none, 1⟩ ∧
      AudioBridge.create ⟨1500, 2, .ofMillis 1, 1, none, 1⟩ = .ok b ∧
      ((b.run [.join .discard, .advance (.ofMillis 2)]).2.offers.map fun o =>
        (o.payload.samples, o.payload.frameCount, o.payload.position)) =
          [([0, 0, 0], 1, 0), ([0, 0, 0], 1, 1), ([0, 0, 0], 1, 3)] ∧
      ¬ b.WholeFrames ∧ ¬ b.Gapless := by
  let b : AudioBridge := Mixer.create ⟨1500, 2, .ofMillis 1, 1, none, 1⟩
  have hp : b.Period .discard [.advance (.ofMillis 2)] := by
    refine ⟨by decide +kernel, ?_⟩
    intro as bs hs
    rcases List.singleton_eq_append_iff.mp hs with ⟨rfl, _⟩ | ⟨rfl, _⟩ <;> decide +kernel
  refine ⟨b, by decide, rfl, by decide +kernel, fun hwhole => ?_, fun hgapless => ?_⟩
  · exact absurd (hwhole [] .discard _ hp) (by decide +kernel)
  · have hoffers : ∀ k, k < 3 → ((b.history [.join .discard, .advance (.ofMillis 2)])[k]?.map
        fun t => t.log.offers) =
          some [⟨.first, "null", ⟨[0, 0, 0], .ofMillis k, 1500, 2, .first⟩, .taken⟩] := by
      decide +kernel
    obtain ⟨t, ht, hsecond⟩ := Option.map_eq_some_iff.mp (hoffers 1 (by omega))
    obtain ⟨t', ht', hthird⟩ := Option.map_eq_some_iff.mp (hoffers 2 (by omega))
    have ho : (⟨.first, "null", ⟨[0, 0, 0], .ofMillis 1, 1500, 2, .first⟩, .taken⟩ : Offer Packet) ∈
        t.log.offers := by
      rw [hsecond]
      exact List.mem_singleton_self _
    have ho' : (⟨.first, "null", ⟨[0, 0, 0], .ofMillis 2, 1500, 2, .first⟩, .taken⟩ :
        Offer Packet) ∈ t'.log.offers := by
      rw [hthird]
      exact List.mem_singleton_self _
    have hmeet := hgapless [] .discard _ hp 1 t t' ht ht' _ ho _ ho' rfl
    exact absurd hmeet (by decide)

end AudioBridge

end ConferenceMix
