import ConferenceMix.Proofs.Session.Deliveries
import ConferenceMix.Proofs.Session.Twins

/-! # Sinks that do not take their payloads

Two mixers agree (`Mixer.Agrees`) when they differ in nothing but their sinks, which have the same
names, and in the number of payloads that were not taken. Mixers whose sinks are all `Passive`, that
is, do not stop the mixer, remain in agreement whatever both are asked, even if the sinks of the
sources that join one and the other take different payloads (`Mixer.Agrees.run`).

`Mixer.faulted_run` says that the reports of payloads not taken are, one for one and in that order,
the offers that were not taken, and that the mixer has counted them. -/

namespace ConferenceMix

/-- The event reports that a sink did not take a payload. -/
def Event.isSinkFault : Event → Bool
  | sinkFault .. => true
  | _ => false

/-- The reports of offers report payloads that were not taken, and nothing else. -/
theorem isSinkFault_of_mem {π : Type} {os : List (Offer π)} {e : Event}
    (he : e ∈ os.filterMap Offer.event?) : e.isSinkFault = true := by
  obtain ⟨o, _, hevent⟩ := List.mem_filterMap.mp he
  obtain ⟨fault, _, rfl⟩ := Option.map_eq_some_iff.mp hevent
  rfl

theorem filter_not_isSinkFault {π : Type} (os : List (Offer π)) :
    (os.filterMap Offer.event?).filter (!·.isSinkFault) = [] := by
  refine List.filter_eq_nil_iff.mpr fun e he => ?_
  simp [isSinkFault_of_mem he]

/-! ### Passive sinks -/

/-- The sink never stops the mixer. -/
def Sink.Passive {π : Type} : Sink π → Prop
  | rule _ _ respond => ∀ n p, (respond n p).stops = false
  | mailbox .. => True

namespace Sink.Passive

variable {π : Type} {s : Sink π}

theorem write (h : s.Passive) (p : π) : (s.write p).1.Passive ∧ (s.write p).2.stops = false := by
  cases s with
  | rule name writes respond => exact ⟨h, h _ _⟩
  | mailbox name box =>
      obtain ⟨box', hsink, hstops⟩ := write_mailbox name box p
      rw [hsink, hstops]
      exact ⟨trivial, rfl⟩

theorem receive (h : s.Passive) : s.receive.2.Passive := by
  cases s with
  | rule => exact h
  | mailbox => trivial

theorem close (h : s.Passive) : s.close.Passive := by
  cases s with
  | rule => exact h
  | mailbox => trivial

end Sink.Passive

/-- Both actions register a source with a passive sink of the same name, or both are the same. -/
inductive Action.Alike {π α : Type} : Action π α → Action π α → Prop
  | join {sink sink' : Sink π} (h : sink.Passive) (h' : sink'.Passive)
      (hname : sink.name = sink'.name) : Alike (.join sink) (.join sink')
  | same {a : Action π α} (h : ∀ sink, a ≠ .join sink) : Alike a a

theorem Action.Alike.passive {π α : Type} {a b : Action π α} (h : a.Alike b) :
    (∀ sink, a = .join sink → sink.Passive) ∧ ∀ sink, b = .join sink → sink.Passive := by
  cases h with
  | join h h' _ =>
      constructor
      · rintro _ ⟨⟩
        exact h
      · rintro _ ⟨⟩
        exact h'
  | same h => exact ⟨fun sink he => absurd he (h sink), fun sink he => absurd he (h sink)⟩

/-- All sinks are passive. -/
def Roster.Passive {σ π : Type} (r : Roster σ π) : Prop := ∀ x ∈ r.members, x.sink.Passive

theorem Roster.passive_empty {σ π : Type} : (Roster.empty : Roster σ π).Passive :=
  fun _ h => absurd h List.not_mem_nil

namespace Roster.Passive

variable {σ π : Type} {r : Roster σ π}

theorem enrol (h : r.Passive) {sink : Sink π} (hs : sink.Passive) (seat : σ) :
    (r.enrol sink seat).Passive := by
  intro x hx
  rcases List.mem_append.mp hx with hm | hm
  · exact h x hm
  · rw [List.mem_singleton.mp hm]
    exact hs

theorem strike (h : r.Passive) (id : SourceId) : (r.strike id).Passive :=
  fun x hx => h x (List.eraseP_subset hx)

theorem modifySink (h : r.Passive) (id : SourceId) {f : Sink π → Sink π}
    (hf : ∀ s : Sink π, s.Passive → (f s).Passive) : (r.modifySink id f).Passive := by
  intro x hx
  obtain ⟨y, hy, rfl⟩ := List.mem_map.mp hx
  split
  · exact hf _ (h y hy)
  · exact h y hy

/-- Whether all sinks are passive can be told from the sinks. -/
theorem iff_sinks (r : Roster σ π) : r.Passive ↔ ∀ x ∈ r.sinks, x.2.Passive := by
  simp [Passive, sinks]

theorem reseat (h : r.Passive) (seats : List σ) : (r.reseat seats).Passive := by
  rw [iff_sinks, sinks_reseat, ← iff_sinks]
  exact h

theorem deliver (h : r.Passive) {ps : List π} (hl : ps.length = r.size) :
    (r.deliver ps).1.Passive ∧ ((r.deliver ps).2.any fun o => o.response.stops) = false := by
  have hw : ∀ (xs : List (SourceId × Sink π)) (ps : List π), (∀ x ∈ xs, x.2.Passive) →
      (∀ x ∈ List.zipWith written xs ps, x.2.Passive) ∧
        ((List.zipWith offered xs ps).any fun o => o.response.stops) = false := by
    intro xs ps hx
    induction xs generalizing ps with
    | nil => simp
    | cons x xs ih =>
        cases ps with
        | nil => simp
        | cons p ps =>
            obtain ⟨hsink, hstops⟩ := (hx x (List.mem_cons_self ..)).write p
            obtain ⟨hrest, hany⟩ := ih ps fun y hy => hx y (List.mem_cons_of_mem x hy)
            rw [List.zipWith_cons_cons, List.zipWith_cons_cons, List.any_cons, hany]
            refine ⟨fun y hy => ?_, by rw [Bool.or_false]; exact hstops⟩
            rcases List.mem_cons.mp hy with rfl | hm
            · exact hsink
            · exact hrest y hm
  obtain ⟨hoffers, hsinks⟩ := deliver_eq_zipWith hl
  rw [iff_sinks, hoffers, hsinks]
  exact hw r.sinks ps ((iff_sinks r).mp h)

end Roster.Passive

variable {κ σ π α β : Type}

namespace Mixer

variable {m : Mixer κ σ π} [Mixing κ σ π α β]

theorem passive_act (h : m.roster.Passive) {a : Action π α}
    (ha : ∀ sink, a = .join sink → sink.Passive) : (m.act a).mixer.roster.Passive := by
  cases a with
  | join sink =>
      show (m.join (β := β) sink).mixer.roster.Passive
      rcases m.join_cases (β := β) sink with he | ⟨admission, _, _, he⟩
      · rw [he]
        exact h
      · rw [he]
        exact h.enrol (ha sink rfl) _
  | leave id =>
      show (m.leave (β := β) id).mixer.roster.Passive
      rcases m.leave_cases (β := β) id with ⟨_, he⟩ | ⟨_, he⟩
      · rw [he]
        exact h
      · rw [he]
        exact h.strike id
  | receive id => exact h.modifySink id fun _ => Sink.Passive.receive
  | hangUp id => exact h.modifySink id fun _ => Sink.Passive.close
  | ask r => exact h.reseat _
  | advance t => exact h
  | stop => exact h

variable [LawfulMixing κ]

/-- A round does not stop a mixer whose sinks are passive. -/
theorem passive_round (h : m.roster.Passive) (t : Timeline) :
    (m.round t).1.roster.Passive ∧ (m.round t).1.running = m.running := by
  obtain ⟨hsinks, hstops⟩ := (h.reseat _).deliver (m.length_payloads_round t)
  refine ⟨hsinks, ?_⟩
  show (m.running && !_) = m.running
  rw [hstops, Bool.not_false, Bool.and_true]

theorem passive_upheld : Upheld (fun a : Action π α => ∀ sink, a = .join sink → sink.Passive)
    fun _ _ (m : Mixer κ σ π) => m.roster.Passive where
  act _ h ha := passive_act h ha
  timed _ h := h
  round t h := (passive_round h t).1

/-- A mixer with passive sinks that nobody stops keeps running. -/
theorem running_upheld :
    Upheld (fun a : Action π α => a ≠ .stop ∧ ∀ sink, a = .join sink → sink.Passive)
      fun _ _ (m : Mixer κ σ π) => m.roster.Passive ∧ m.running = true where
  act := by
    rintro _ _ m a ⟨hp, hr⟩ ⟨hstop, hjoin⟩
    refine ⟨passive_act hp hjoin, ?_⟩
    rw [running_act, hr, Bool.true_and]
    cases a with
    | stop => exact absurd rfl hstop
    | _ => rfl
  timed _ h := h
  round t h := ⟨(passive_round h.1 t).1, (passive_round h.1 t).2.trans h.2⟩

end Mixer

/-! ### Agreement -/

/-- The mixers differ in nothing but their sinks, which have the same names, and in the number of
payloads that were not taken. -/
structure Mixer.Agrees (m m' : Mixer κ σ π) : Prop where
  room : m.room = m'.room
  seated : m.roster.seated = m'.roster.seated
  upcoming : m.roster.upcoming = m'.roster.upcoming
  entries : m.roster.entries = m'.roster.entries
  clock : m.clock = m'.clock
  timeline : m.timeline = m'.timeline
  running : m.running = m'.running
  tally : { m.tally with sinkFaults := 0 } = { m'.tally with sinkFaults := 0 }

/-- The same rounds, the same payloads offered to the same sources at sinks of the same names, and
the same events but for the reports of payloads not taken. -/
structure Log.Agrees (k l : Log π) : Prop where
  rounds : k.rounds = l.rounds
  called : k.offers.map (fun o => (o.source, o.sink)) = l.offers.map fun o => (o.source, o.sink)
  payloads : k.offers.map Offer.payload = l.offers.map Offer.payload
  events : k.events.filter (!·.isSinkFault) = l.events.filter (!·.isSinkFault)

theorem Log.agrees_refl (l : Log π) : l.Agrees l := ⟨rfl, rfl, rfl, rfl⟩

theorem Log.Agrees.append {j k l m : Log π} (h : j.Agrees k) (h' : l.Agrees m) :
    (j ++ l).Agrees (k ++ m) where
  rounds := by simp only [Log.rounds_append, h.rounds, h'.rounds]
  called := by simp only [Log.offers_append, List.map_append, h.called, h'.called]
  payloads := by simp only [Log.offers_append, List.map_append, h.payloads, h'.payloads]
  events := by simp only [Log.events_append, List.filter_append, h.events, h'.events]

namespace Mixer

variable {m m' : Mixer κ σ π}

theorem agrees_refl (m : Mixer κ σ π) : m.Agrees m := ⟨rfl, rfl, rfl, rfl, rfl, rfl, rfl, rfl⟩

namespace Agrees

theorem floor (h : m.Agrees m') : m.floor = m'.floor := by
  simp only [Mixer.floor, h.room, h.seated, h.upcoming]

theorem seats (h : m.Agrees m') : m.roster.seats = m'.roster.seats := by
  rw [← Roster.map_snd_seated, ← Roster.map_snd_seated, h.seated]

theorem ids (h : m.Agrees m') : m.roster.ids = m'.roster.ids := by
  rw [← Roster.map_fst_seated, ← Roster.map_fst_seated, h.seated]

theorem size (h : m.Agrees m') : m.roster.size = m'.roster.size := by
  have hl := congrArg List.length h.ids
  rwa [Roster.ids, Roster.ids, List.length_map, List.length_map] at hl

theorem tally_of_sources (h : m.Agrees m') {n n' : Nat} (hn : n = n') :
    { m.tally with sources := n, sinkFaults := 0 } =
      { m'.tally with sources := n', sinkFaults := 0 } := by
  have htally := h.tally
  simp only [Tally.mk.injEq] at htally
  simp only [hn, htally]

variable [Mixing κ σ π α β]

/-! ### Actions -/

theorem join (h : m.Agrees m') {sink sink' : Sink π} (hname : sink.name = sink'.name) :
    (m.join (β := β) sink).mixer.Agrees (m'.join (β := β) sink').mixer ∧
      (m.join (β := β) sink).events = (m'.join (β := β) sink').events := by
  unfold Mixer.join
  rw [← h.room, ← h.seats, ← h.running, ← h.upcoming]
  cases Mixing.welcome m.room m.roster.seats with
  | error cause => exact ⟨h, rfl⟩
  | ok admission =>
      cases m.running with
      | false => exact ⟨h, rfl⟩
      | true =>
          have hseated : (m.roster.enrol sink admission.seat).seated =
              (m'.roster.enrol sink' admission.seat).seated := by
            simp only [Roster.seated_enrol, h.seated, h.upcoming]
          have hentries : (m.roster.enrol sink admission.seat).entries =
              (m'.roster.enrol sink' admission.seat).entries := by
            simp only [Roster.entries_enrol, h.entries, h.upcoming, hname]
          have hsize : (m.roster.enrol sink admission.seat).size =
              (m'.roster.enrol sink' admission.seat).size := by
            simp only [Roster.size_enrol, h.size]
          exact ⟨⟨rfl, hseated, congrArg SourceId.next h.upcoming, hentries, h.clock, h.timeline,
            rfl, tally_of_sources h hsize⟩, rfl⟩

theorem leave (h : m.Agrees m') (id : SourceId) :
    (m.leave (β := β) id).mixer.Agrees (m'.leave (β := β) id).mixer ∧
      (m.leave (β := β) id).events = (m'.leave (β := β) id).events := by
  have hfind : m.roster.find? id = none ↔ m'.roster.find? id = none := by
    rw [Roster.find?_eq_none_iff, Roster.find?_eq_none_iff, h.ids]
  unfold Mixer.leave
  cases hf : m.roster.find? id with
  | none =>
      rw [hfind.mp hf]
      exact ⟨h, rfl⟩
  | some found =>
      cases hf' : m'.roster.find? id with
      | none => exact absurd (hfind.mpr hf') (by simp [hf])
      | some found' =>
          have hseated : (m.roster.strike id).seated = (m'.roster.strike id).seated := by
            rw [Roster.seated_strike, Roster.seated_strike, h.seated]
          have hentries : (m.roster.strike id).entries = (m'.roster.strike id).entries := by
            rw [Roster.entries_strike, Roster.entries_strike, h.entries]
          have hsize := congrArg List.length hseated
          rw [Roster.seated, Roster.seated, List.length_map, List.length_map] at hsize
          exact ⟨⟨congrArg Mixing.depart h.room, hseated, h.upcoming, hentries, h.clock,
            h.timeline, h.running, tally_of_sources h hsize⟩, rfl⟩

/-- What is done to a sink makes no difference as long as it keeps its name. -/
theorem modifySink (h : m.Agrees m') (id : SourceId) {f : Sink π → Sink π}
    (hf : ∀ s, (f s).name = s.name) :
    Agrees { m with roster := m.roster.modifySink id f }
      { m' with roster := m'.roster.modifySink id f } where
  room := h.room
  seated := by simp only [Roster.seated_modifySink, h.seated]
  upcoming := h.upcoming
  entries := by simp only [Roster.entries_modifySink _ _ hf, h.entries]
  clock := h.clock
  timeline := h.timeline
  running := h.running
  tally := h.tally

variable [LawfulMixing κ]

theorem ask (h : m.Agrees m') (r : α) :
    (m.ask (β := β) r).mixer.Agrees (m'.ask (β := β) r).mixer ∧
      (m.ask (β := β) r).events = (m'.ask (β := β) r).events := by
  have hl := LawfulMixing.length_seats_serve m.room m.clock m.roster.seated r
  have htally := h.tally
  simp only [Tally.mk.injEq] at htally
  unfold Mixer.ask
  rw [← h.room, ← h.clock, ← h.seated]
  refine ⟨⟨rfl, ?_, h.upcoming, ?_, rfl, h.timeline, h.running, ?_⟩, rfl⟩
  · rw [Roster.seated_reseat hl, Roster.seated_reseat (h.seated ▸ hl), h.ids]
  · simp only [Roster.entries_reseat, h.entries]
  · simp only [htally]

theorem act (h : m.Agrees m') {a b : Action π α} (hab : a.Alike b) :
    (m.act a).mixer.Agrees (m'.act b).mixer ∧ (m.act a).events = (m'.act b).events := by
  cases hab with
  | join _ _ hname => exact h.join hname
  | same hn =>
      cases a with
      | join sink => exact absurd rfl (hn sink)
      | leave id => exact h.leave id
      | advance t =>
          exact ⟨⟨h.room, h.seated, h.upcoming, h.entries, congrArg (· + t) h.clock, h.timeline,
            h.running, h.tally⟩, rfl⟩
      | stop =>
          exact ⟨⟨h.room, h.seated, h.upcoming, h.entries, h.clock, h.timeline, rfl, h.tally⟩, rfl⟩
      | receive id => exact ⟨h.modifySink id Sink.name_receive, rfl⟩
      | hangUp id => exact ⟨h.modifySink id Sink.name_close, rfl⟩
      | ask r => exact h.ask r

/-! ### Rounds -/

theorem round (h : m.Agrees m') (hp : m.roster.Passive) (hp' : m'.roster.Passive) (t : Timeline) :
    (m.round t).1.Agrees (m'.round t).1 ∧ (m.round t).2.Agrees (m'.round t).2 := by
  have hmix : Mixing.mix m.room (t.due - t.start) m.roster.seated =
      Mixing.mix m'.room (t.due - t.start) m'.roster.seated := by rw [h.room, h.seated]
  have hfloor : (m.round t).1.floor = (m'.round t).1.floor := by
    rw [floor_round, floor_round, h.floor]
  have htally := h.tally
  simp only [Tally.mk.injEq] at htally
  constructor
  · refine ⟨congrArg Floor.room hfloor, congrArg Floor.seated hfloor,
      congrArg Floor.upcoming hfloor, ?_, h.clock, ?_, ?_, ?_⟩
    · rw [entries_round, entries_round, h.entries]
    · simp only [Mixer.round, h.room]
    · rw [(passive_round hp t).2, (passive_round hp' t).2, h.running]
    · simp only [Mixer.round, hmix, htally]
  · have hevents : ∀ m : Mixer κ σ π, (m.round t).2.events.filter (!·.isSinkFault) =
        (Mixing.mix m.room (t.due - t.start) m.roster.seated).events.filter (!·.isSinkFault) := by
      intro m
      show ((Mixing.mix m.room (t.due - t.start) m.roster.seated).events ++
        (m.round t).2.offers.filterMap Offer.event?).filter _ = _
      rw [List.filter_append, filter_not_isSinkFault, List.append_nil]
    refine ⟨rfl, ?_, ?_, ?_⟩
    · rw [called_round, called_round, h.entries]
    · rw [(m.offers_round t).2, (m'.offers_round t).2, hmix]
    · rw [hevents, hevents, hmix]

end Agrees

/-! ### Runs -/

variable [Mixing κ σ π α β] [LawfulMixing κ]

namespace Agrees

theorem rounds (h : m.Agrees m') (hp : m.roster.Passive) (hp' : m'.roster.Passive) (n : Nat) :
    (Mixer.rounds n m).1.Agrees (Mixer.rounds n m').1 ∧
      (Mixer.rounds n m).2.Agrees (Mixer.rounds n m').2 := by
  induction n generalizing m m' with
  | zero => exact ⟨h, Log.agrees_refl _⟩
  | succ n ih =>
      by_cases hr : m.running = true
      · cases ht : m.timeline with
        | none =>
            rw [rounds_of_idle _ (.inr ht), rounds_of_idle _ (.inr (h.timeline ▸ ht))]
            exact ⟨h, Log.agrees_refl _⟩
        | some t =>
            obtain ⟨hround, hlog⟩ := h.round hp hp' t
            obtain ⟨hrest, hlogs⟩ := ih hround (passive_round hp t).1 (passive_round hp' t).1
            rw [rounds_succ n hr ht, rounds_succ n (h.running ▸ hr) (h.timeline ▸ ht)]
            exact ⟨hrest, hlog.append hlogs⟩
      · have hr : m.running = false := by simpa using hr
        rw [rounds_of_idle _ (.inl hr), rounds_of_idle _ (.inl (h.running ▸ hr))]
        exact ⟨h, Log.agrees_refl _⟩

theorem schedule (h : m.Agrees m') : m.schedule = m'.schedule :=
  schedule_congr h.ids h.timeline h.clock

theorem settle (h : m.Agrees m') (hp : m.roster.Passive) (hp' : m'.roster.Passive) :
    m.settle.1.Agrees m'.settle.1 ∧ m.settle.2.Agrees m'.settle.2 := by
  have htimed : ∀ timeline,
      Agrees { m with timeline } { m' with timeline } := fun _ =>
    ⟨h.room, h.seated, h.upcoming, h.entries, h.clock, rfl, h.running, h.tally⟩
  by_cases hr : m.running = true
  · have hr' : m'.running = true := h.running ▸ hr
    cases hs : m.schedule with
    | none =>
        rw [settle_of_unscheduled hr hs, settle_of_unscheduled hr' (h.schedule ▸ hs)]
        exact ⟨htimed none, Log.agrees_refl _⟩
    | some t =>
        have hdue : m.dueRounds t = m'.dueRounds t := by simp only [dueRounds, h.clock, h.room]
        rw [settle_of_schedule hr hs, settle_of_schedule hr' (h.schedule ▸ hs), ← hdue]
        exact (htimed (some t)).rounds hp hp' _
  · have hr : m.running = false := by simpa using hr
    rw [settle_of_not_running hr, settle_of_not_running (h.running ▸ hr)]
    exact ⟨h, Log.agrees_refl _⟩

/-- **A sink that does not take its payloads makes no difference to anything else.** Mixers that
agree remain in agreement, and what happens is the same, when they are asked the same but for
sources that join with other passive sinks of the same names. -/
theorem run (h : m.Agrees m') (hp : m.roster.Passive) (hp' : m'.roster.Passive)
    {as bs : List (Action π α)} (hs : List.Forall₂ Action.Alike as bs) :
    (m.run as).1.Agrees (m'.run bs).1 ∧ (m.run as).2.Agrees (m'.run bs).2 := by
  induction hs generalizing m m' with
  | nil => exact ⟨h, Log.agrees_refl _⟩
  | @cons a b as bs hab _ ih =>
      obtain ⟨hact, hevents⟩ := h.act hab
      have hpa : (m.act a).mixer.roster.Passive := passive_act hp hab.passive.1
      have hpb : (m'.act b).mixer.roster.Passive := passive_act hp' hab.passive.2
      obtain ⟨hsettle, hlog⟩ := hact.settle hpa hpb
      have hps : ∀ {m : Mixer κ σ π}, m.roster.Passive → m.settle.1.roster.Passive := fun hp =>
        passive_upheld.settle (d := []) (l := .empty) hp
      obtain ⟨hrest, hlogs⟩ := ih hsettle (hps hpa) (hps hpb)
      have hstep : (m.step a).log.Agrees (m'.step b).log := by
        rw [log_step, log_step, hevents]
        exact (Log.agrees_refl _).append hlog
      exact ⟨hrest, hstep.append hlogs⟩

end Agrees

end Mixer

/-! ### Counting the payloads not taken -/

/-- A kind of mixing that leaves it to the mixer to report payloads that were not taken. -/
class DiscreetMixing (κ : Type) {σ π α β : outParam Type} [Mixing κ σ π α β] : Prop where
  discreet_mix : ∀ (room : κ) (stamp : Nanos) (seated : List (SourceId × σ)),
    (Mixing.mix room stamp seated).events.filter Event.isSinkFault = []
  discreet_welcome : ∀ {room : κ} {seats : List σ} {admission : Admission κ σ},
    Mixing.welcome room seats = .ok admission → admission.events.filter Event.isSinkFault = []
  discreet_serve : ∀ (room : κ) (now : Nanos) (seated : List (SourceId × σ)) (request : α),
    (Mixing.serve room now seated request).events.filter Event.isSinkFault = []

namespace Mixer

/-- The reports of payloads not taken are the offers that were not taken, one for one and in that
order, and the mixer has counted them. -/
structure Faulted (l : Log π) (m : Mixer κ σ π) : Prop where
  events : l.events.filter Event.isSinkFault = l.offers.filterMap Offer.event?
  tally : m.tally.sinkFaults = (l.offers.filterMap Offer.event?).length

variable [Mixing κ σ π α β] [DiscreetMixing κ]

/-- No action reports or counts a payload that was not taken. -/
theorem act_discreet (m : Mixer κ σ π) (a : Action π α) :
    (m.act a).events.filter Event.isSinkFault = [] ∧
      (m.act a).mixer.tally.sinkFaults = m.tally.sinkFaults :=
  ⟨filter_events_act (fun _ => rfl) (fun _ => rfl) DiscreetMixing.discreet_welcome
    DiscreetMixing.discreet_serve m a, (m.tally_act a).2.2⟩

theorem faulted_upheld :
    Upheld (fun _ : Action π α => True) fun _ l (m : Mixer κ σ π) => m.Faulted l where
  act {_ l m} a h _ := by
    obtain ⟨hevents, htally⟩ := m.act_discreet a
    constructor
    · rw [Log.events_append, Log.offers_append, List.filter_append, h.events]
      simp only [eventsOnly, hevents, List.append_nil]
    · rw [htally, h.tally, Log.offers_append]
      simp only [eventsOnly, List.append_nil]
  timed _ h := ⟨h.events, h.tally⟩
  round {_ l m} t h := by
    have hfaults : ((m.round t).2.offers.filterMap Offer.event?).filter Event.isSinkFault =
        (m.round t).2.offers.filterMap Offer.event? :=
      List.filter_eq_self.mpr fun e he => isSinkFault_of_mem he
    have hevents : (m.round t).2.events.filter Event.isSinkFault =
        (m.round t).2.offers.filterMap Offer.event? := by
      show ((Mixing.mix m.room (t.due - t.start) m.roster.seated).events ++
        (m.round t).2.offers.filterMap Offer.event?).filter _ = _
      rw [List.filter_append, DiscreetMixing.discreet_mix, hfaults, List.nil_append]
    constructor
    · rw [Log.events_append, Log.offers_append, List.filter_append, List.filterMap_append,
        h.events, hevents]
    · rw [Log.offers_append, List.filterMap_append, List.length_append, ← h.tally]
      rfl

/-- The reports of payloads not taken are the offers that were not taken. -/
theorem faulted_run (room : κ) (as : List (Action π α)) :
    ((create room : Mixer κ σ π).run as).1.Faulted ((create room : Mixer κ σ π).run as).2 :=
  faulted_upheld.run (P := fun _ l m => m.Faulted l) (d := []) (l := .empty) ⟨rfl, rfl⟩
    fun _ _ => trivial

/-- Sinks that do not take their payloads hurt only themselves in all runs of a mixer.

Two runs in which the same is asked, but for sources that join with other passive sinks of the same
names, end in mixers that agree, and the same happens in them. In every run, the reports of payloads
not taken are the offers that were not taken, one for one and in that order, and have been
counted. -/
structure Withstands (m : Mixer κ σ π) : Prop where
  unaffected : ∀ as bs : List (Action π α), List.Forall₂ Action.Alike as bs →
    (m.run as).1.Agrees (m.run bs).1 ∧ (m.run as).2.Agrees (m.run bs).2
  faulted : ∀ as : List (Action π α), (m.run as).1.Faulted (m.run as).2

theorem withstands_create [LawfulMixing κ] (room : κ) :
    (create room : Mixer κ σ π).Withstands where
  unaffected _ _ h := (agrees_refl _).run Roster.passive_empty Roster.passive_empty h
  faulted as := faulted_run room as

end Mixer

end ConferenceMix
