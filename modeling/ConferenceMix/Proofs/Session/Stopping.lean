import ConferenceMix.Proofs.Session.Moves
import ConferenceMix.Proofs.Session.Reports

/-! # What it means to stop

A mixer stops when it is asked to, or when a sink stops it in the course of a delivery
(`Mixer.running_act`, `Mixer.running_poll_iff`). A look that is a delivery carries out one whole round,
also if a sink stops the mixer (`Mixer.wholeRound_of_offers`). A mixer that has stopped is asked in
vain for more: looks at the clock do nothing, newcomers are turned away and leave no trace, and
moves neither mix nor deliver (`Mixer.still_follow`). Only leaving has its usual effect.
`Mixer.stopsForGood` says all of this about a mixer that always has the same answer for newcomers. -/

namespace ConferenceMix

namespace Mixer

variable {κ σ π α β : Type} [Mixing κ σ π α β]

/-! ### Stopping -/

/-- A look at the clock stops a mixer exactly when a sink does so in the course of it. -/
theorem running_poll_iff {m : Mixer κ σ π} (hr : m.running = true) :
    m.poll.1.running = false ↔ ∃ o ∈ m.poll.2.offers, o.response.stops = true := by
  rcases m.poll_cases with ⟨timeline, he⟩ | ⟨t, _, _, _, he⟩
  · rw [he]
    simp [hr, Log.empty]
  · rw [he]
    show (m.running && !(round { m with timeline := some t } t).2.offers.any _) = false ↔ _
    rw [hr, Bool.true_and, Bool.not_eq_false', List.any_eq_true]

/-- A look at the clock carries out one round, counts it, and offers every registered source its
payload, each once and in the order of registration. -/
structure WholeRound (m : Mixer κ σ π) : Prop where
  round : ∃ stamp, m.poll.2.rounds = [stamp]
  offered : m.poll.2.offers.map Offer.source = m.roster.ids
  counted : m.poll.1.tally.rounds = m.tally.rounds + 1
  registered : m.poll.1.roster.ids = m.roster.ids

/-- A look in which anything is offered carries out a whole round. -/
theorem wholeRound_of_offers [LawfulMixing κ] {m : Mixer κ σ π} {o : Offer π}
    (ho : o ∈ m.poll.2.offers) : m.WholeRound := by
  rcases m.poll_cases with ⟨timeline, he⟩ | ⟨t, _, _, _, he⟩
  · rw [he] at ho
    exact absurd ho List.not_mem_nil
  · let m' : Mixer κ σ π := { m with timeline := some t }
    refine ⟨⟨t.due - t.start, ?_⟩, ?_, ?_, ?_⟩
    · rw [he]
      rfl
    · rw [he]
      exact (m'.offers_round t).1
    · rw [he]
      rfl
    · rw [he]
      exact m'.ids_round t

/-! ### A mixer that has stopped -/

/-- Why a mixer that has stopped turns newcomers away: because it has stopped, unless there would be
no room for them anyway. -/
def refusal (m : Mixer κ σ π) : Fault :=
  match Mixing.welcome m.room m.roster.seats with
  | .ok _ => .stopped
  | .error cause => .misuse cause

/-- A mixer that has stopped turns everybody away, and nothing changes. -/
theorem act_join_of_stopped {m : Mixer κ σ π} (hr : m.running = false) (sink : Sink π) :
    m.act (.join sink) = ⟨m, .refused m.refusal, []⟩ := by
  unfold refusal
  cases hw : Mixing.welcome m.room m.roster.seats with
  | ok admission => simp [act, join, hw, hr]
  | error cause => simp [act, join, hw]

/-- Leaving a mixer has the same effect whether it runs or not. -/
theorem act_leave_of_mem {m : Mixer κ σ π} {id : SourceId} (h : id ∈ m.roster.ids) :
    m.act (.leave id : Action π α) = ⟨{ m with
      room := Mixing.depart m.room
      roster := m.roster.strike id
      tally := { m.tally with sources := (m.roster.strike id).size } },
      .done, [.sourceRemoved id]⟩ := by
  rcases m.leave_eq_cases (β := β) id with ⟨hn, _⟩ | ⟨_, he⟩
  · exact absurd h hn
  · exact he

/-- From one state to the other no round has taken place: nothing has been delivered or counted, and
no source has been reported to run short. The mixer is not running. -/
structure Still (m m' : Mixer κ σ π) (l : Log π) : Prop where
  running : m'.running = false
  rounds : l.rounds = []
  offers : l.offers = []
  silent : l.events.filter Event.isUnderrun = []
  counted : m'.tally.rounds = m.tally.rounds ∧ m'.tally.underruns = m.tally.underruns ∧
    m'.tally.sinkFaults = m.tally.sinkFaults

theorem still_refl {m : Mixer κ σ π} (hr : m.running = false) : m.Still m .empty :=
  ⟨hr, rfl, rfl, rfl, rfl, rfl, rfl⟩

omit [Mixing κ σ π α β] in
theorem Still.trans {m m' m'' : Mixer κ σ π} {k l : Log π} (h : m.Still m' k)
    (h' : m'.Still m'' l) : m.Still m'' (k ++ l) where
  running := h'.running
  rounds := by rw [Log.rounds_append, h.rounds, h'.rounds, List.append_nil]
  offers := by rw [Log.offers_append, h.offers, h'.offers, List.append_nil]
  silent := by rw [Log.events_append, List.filter_append, h.silent, h'.silent, List.append_nil]
  counted := by
    obtain ⟨hrounds, hunderruns, hfaults⟩ := h.counted
    obtain ⟨hrounds', hunderruns', hfaults'⟩ := h'.counted
    exact ⟨hrounds'.trans hrounds, hunderruns'.trans hunderruns, hfaults'.trans hfaults⟩

variable [ReportingMixing κ]

theorem still_move {m : Mixer κ σ π} (hr : m.running = false) (v : Move π α) :
    m.Still (m.move v).1 (m.move v).2 := by
  cases v with
  | act a =>
      refine ⟨?_, rfl, rfl, (m.act_silent a).1, m.tally_act a⟩
      show (m.act a).mixer.running = false
      rw [running_act, hr, Bool.false_and]
  | look =>
      rw [move, poll_of_not_running hr]
      exact still_refl hr

/-- **Stopping is final.** Whatever moves follow, no round takes place. -/
theorem still_follow {m : Mixer κ σ π} (hr : m.running = false) (vs : List (Move π α)) :
    m.Still (m.follow vs).1 (m.follow vs).2 := by
  induction vs generalizing m with
  | nil => exact still_refl hr
  | cons v vs ih => exact (still_move hr v).trans (ih (still_move hr v).running)

/-- Stopping is final whenever it happens in the course of any moves, and newcomers are turned away
with the given fault from then on.

A running mixer is stopped by a stop or by a sink, and in no other way; if it is a sink that does so,
the round is carried out for all sources nonetheless and counted once. Once it has stopped, no moves
make it carry out a round, a look at the clock does nothing at all, newcomers are turned away and
leave everything as it was, and sources are taken off the list and reported as ever. -/
structure StopsForGood (m : Mixer κ σ π) (fault : Fault) : Prop where
  stops : ∀ (vs : List (Move π α)) (v : Move π α), (m.follow vs).1.running = true →
    ((m.follow (vs ++ [v])).1.running = false ↔ v = .act .stop ∨
      v = .look ∧ ∃ o ∈ (m.follow vs).1.poll.2.offers, o.response.stops = true)
  finishes : ∀ vs : List (Move π α),
    (∃ o ∈ (m.follow vs).1.poll.2.offers, o.response.stops = true) → (m.follow vs).1.WholeRound
  still : ∀ vs ws : List (Move π α), (m.follow vs).1.running = false →
    (m.follow vs).1.Still ((m.follow vs).1.follow ws).1 ((m.follow vs).1.follow ws).2
  idle : ∀ vs : List (Move π α), (m.follow vs).1.running = false →
    (m.follow vs).1.poll = ((m.follow vs).1, .empty)
  refuses : ∀ (vs : List (Move π α)) (sink : Sink π), (m.follow vs).1.running = false →
    (m.follow vs).1.act (.join sink) = ⟨(m.follow vs).1, .refused fault, []⟩
  releases : ∀ (vs : List (Move π α)) (id : SourceId), (m.follow vs).1.running = false →
    id ∈ (m.follow vs).1.roster.ids →
      ((m.follow vs).1.act (.leave id)).mixer.roster = (m.follow vs).1.roster.strike id ∧
      ((m.follow vs).1.act (.leave id)).mixer.tally.sources =
        ((m.follow vs).1.roster.strike id).size ∧
      ((m.follow vs).1.act (.leave id)).events = [.sourceRemoved id]

theorem stopsForGood [LawfulMixing κ] {m : Mixer κ σ π} {fault : Fault}
    (hf : ∀ vs : List (Move π α), (m.follow vs).1.refusal = fault) : m.StopsForGood fault where
  stops vs v hr := by
    rw [follow_concat]
    cases v with
    | act a =>
        show (((m.follow vs).1).act a).mixer.running = false ↔ _
        rw [running_act, hr, Bool.true_and, Bool.not_eq_false']
        cases a <;> simp [Action.isStop]
    | look =>
        show (m.follow vs).1.poll.1.running = false ↔ _
        rw [running_poll_iff hr]
        simp
  finishes vs h := by
    obtain ⟨o, ho, _⟩ := h
    exact wholeRound_of_offers ho
  still vs ws hr := still_follow hr ws
  idle vs hr := poll_of_not_running hr
  refuses vs sink hr := hf vs ▸ act_join_of_stopped hr sink
  releases vs id _ hid := by
    rw [act_leave_of_mem hid]
    exact ⟨rfl, rfl, rfl⟩

end Mixer

end ConferenceMix
