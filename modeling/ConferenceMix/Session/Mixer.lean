import ConferenceMix.Session.Roster
import ConferenceMix.Nanos

/-! # Mixers

A `Mixer` calls a round of mixing once per interval as long as it runs and has sources, and delivers
what the round yields to every source's sink. What a round does, and what is kept for the room and
for each source, is the business of an instance of `Mixing`.

Time is the reading of a clock that moves on request. The timeline starts when a source joins a
mixer without any: round number `k` from then on is due `k` intervals after the start and carries
that span as its timestamp. When the last source leaves, the timeline is forgotten. `act` carries
out one request, `settle` all rounds that are due, and `step` the one and then the other. -/

namespace ConferenceMix

/-- When the timeline started, and when the next round is due. -/
structure Timeline where
  start : Nanos
  due : Nanos
deriving DecidableEq, Repr

/-- The counters of a mixer. -/
structure Tally where
  rounds : Nat
  sources : Nat
  overruns : Nat
  underruns : Nat
  sinkFaults : Nat
deriving DecidableEq, Repr

/-- A mixer: what it keeps for the room (`κ`), its sources with what it keeps for each (`σ`) and
their sinks for payloads (`π`), its clock and its counters. -/
structure Mixer (κ σ π : Type) where
  room : κ
  roster : Roster σ π
  clock : Nanos
  timeline : Option Timeline
  running : Bool
  tally : Tally

/-- What happened in a stretch of time: the timestamps of the rounds, the offers made to sinks, and
the events. -/
structure Log (π : Type) where
  rounds : List Nanos
  offers : List (Offer π)
  events : List Event
deriving DecidableEq, Repr

namespace Log

variable {π : Type}

/-- Nothing happened. -/
def empty : Log π := ⟨[], [], []⟩

/-- One stretch after another. -/
def append (a b : Log π) : Log π :=
  ⟨a.rounds ++ b.rounds, a.offers ++ b.offers, a.events ++ b.events⟩

instance : Append (Log π) := ⟨append⟩

theorem append_def (a b : Log π) :
    a ++ b = ⟨a.rounds ++ b.rounds, a.offers ++ b.offers, a.events ++ b.events⟩ := rfl

@[simp] theorem rounds_append (a b : Log π) : (a ++ b).rounds = a.rounds ++ b.rounds := rfl

@[simp] theorem offers_append (a b : Log π) : (a ++ b).offers = a.offers ++ b.offers := rfl

@[simp] theorem events_append (a b : Log π) : (a ++ b).events = a.events ++ b.events := rfl

@[simp] theorem empty_append (a : Log π) : empty ++ a = a := rfl

@[simp] theorem append_empty (a : Log π) : a ++ empty = a := by
  simp [append_def, empty]

theorem append_assoc (a b c : Log π) : a ++ b ++ c = a ++ (b ++ c) := by
  simp [append_def]

end Log

/-! ### Kinds of mixing -/

/-- How a room takes in a newcomer: the room, what is kept for the newcomer, and what is reported
after its arrival. -/
structure Admission (κ σ : Type) where
  room : κ
  seat : σ
  events : List Event

/-- What a round of mixing yields: the room, what is kept for each source, a payload for each, how
many sources ran short, and what is reported before the payloads are delivered. -/
structure Yield (κ σ π : Type) where
  room : κ
  seats : List σ
  payloads : List π
  underruns : Nat
  events : List Event

/-- What a request yields: the room, what is kept for each source, the answer, how many queues ran
over, and what is reported. -/
structure Service (κ σ β : Type) where
  room : κ
  seats : List σ
  answer : Except Fault β
  overruns : Nat
  events : List Event

/-- A kind of mixing, with requests in `α` and answers in `β`. -/
class Mixing (κ : Type) (σ π α β : outParam Type) where
  /-- The time from one round to the next. -/
  interval : κ → Nanos
  /-- Takes in a newcomer, given what is kept for the others. -/
  welcome : κ → List σ → Except Misuse (Admission κ σ)
  /-- The room after a source has left. -/
  depart : κ → κ
  /-- One round of mixing with the given timestamp. -/
  mix : κ → Nanos → List (SourceId × σ) → Yield κ σ π
  /-- Carries out a request at the given clock time. -/
  serve : κ → Nanos → List (SourceId × σ) → α → Service κ σ β

/-- What can be asked of a mixer. -/
inductive Action (π α : Type) where
  /-- Registers a source with the given sink. -/
  | join (sink : Sink π)
  /-- Takes a source off the list. -/
  | leave (id : SourceId)
  /-- Moves the clock. -/
  | advance (t : Nanos)
  /-- Ends all mixing. -/
  | stop
  /-- Takes the next payload out of the mailbox of a source. -/
  | receive (id : SourceId)
  /-- Closes the mailbox of a source. -/
  | hangUp (id : SourceId)
  /-- A request of the kind of mixing. -/
  | ask (request : α)

/-- What a mixer answers. -/
inductive Reply (π β : Type) where
  | done
  | joined (id : SourceId)
  | refused (fault : Fault)
  | received (payload : Option π)
  | answer (b : β)

/-- The effect of an action before any round: the mixer, the reply and the events. -/
structure Effect (κ σ π β : Type) where
  mixer : Mixer κ σ π
  reply : Reply π β
  events : List Event

/-- The outcome of an action and of the rounds that are due after it. -/
structure Outcome (κ σ π β : Type) where
  mixer : Mixer κ σ π
  reply : Reply π β
  log : Log π

namespace Mixer

variable {κ σ π α β : Type} [Mixing κ σ π α β]

/-- A running mixer without sources. -/
def create (room : κ) : Mixer κ σ π := ⟨room, .empty, 0, none, true, ⟨0, 0, 0, 0, 0⟩⟩

/-! ### Rounds -/

/-- The timeline with the present sources: none without sources, and otherwise the one there is or
one that starts now. -/
def schedule (m : Mixer κ σ π) : Option Timeline :=
  if m.roster.members.isEmpty then none else some (m.timeline.getD ⟨m.clock, m.clock⟩)

/-- The number of rounds that are due by now on a timeline. -/
def dueRounds (m : Mixer κ σ π) (t : Timeline) : Nat :=
  if m.clock < t.due then 0 else (m.clock - t.due) / Mixing.interval m.room + 1

/-- The round that is next on a timeline: the room mixes, and every source is offered its payload.
The round is finished and counted even if a sink stops the mixer in its course. -/
def round (m : Mixer κ σ π) (t : Timeline) : Mixer κ σ π × Log π :=
  let stamp := t.due - t.start
  let yielded := Mixing.mix m.room stamp m.roster.seated
  let delivered := (m.roster.reseat yielded.seats).deliver yielded.payloads
  let faults := delivered.2.filterMap Offer.event?
  ({ m with
      room := yielded.room
      roster := delivered.1
      timeline := some ⟨t.start, t.due + Mixing.interval m.room⟩
      running := m.running && !delivered.2.any fun o => o.response.stops
      tally :=
        { m.tally with
          rounds := m.tally.rounds + 1
          underruns := m.tally.underruns + yielded.underruns
          sinkFaults := m.tally.sinkFaults + faults.length } },
    ⟨[stamp], delivered.2, yielded.events ++ faults⟩)

/-- Up to `n` rounds one after another, as long as the mixer runs. -/
def rounds : Nat → Mixer κ σ π → Mixer κ σ π × Log π
  | 0, m => (m, .empty)
  | n + 1, m =>
      match m.running, m.timeline with
      | true, some t =>
          let first := m.round t
          let rest := rounds n first.1
          (rest.1, first.2 ++ rest.2)
      | _, _ => (m, .empty)

/-- All rounds that are due by now. -/
def settle (m : Mixer κ σ π) : Mixer κ σ π × Log π :=
  if m.running then
    match m.schedule with
    | none => ({ m with timeline := none }, .empty)
    | some t => rounds (m.dueRounds t) { m with timeline := some t }
  else (m, .empty)

/-! ### Actions -/

/-- Registers a source. A stopped mixer takes none. -/
def join (m : Mixer κ σ π) (sink : Sink π) : Effect κ σ π β :=
  match Mixing.welcome m.room m.roster.seats with
  | .error cause => ⟨m, .refused (.misuse cause), []⟩
  | .ok admission =>
      if m.running then
        let id := m.roster.upcoming
        let roster := m.roster.enrol sink admission.seat
        ⟨{ m with
            room := admission.room
            roster
            tally := { m.tally with sources := roster.size } },
          .joined id, .sourceAdded id :: admission.events⟩
      else ⟨m, .refused .stopped, []⟩

/-- Takes a source off the list, also after the mixer has stopped. -/
def leave (m : Mixer κ σ π) (id : SourceId) : Effect κ σ π β :=
  match m.roster.find? id with
  | none => ⟨m, .done, []⟩
  | some _ =>
      let roster := m.roster.strike id
      ⟨{ m with
          room := Mixing.depart m.room
          roster
          tally := { m.tally with sources := roster.size } },
        .done, [.sourceRemoved id]⟩

/-- Takes the next payload out of the mailbox of a source, also after it has left. -/
def receive (m : Mixer κ σ π) (id : SourceId) : Effect κ σ π β :=
  let payload := (m.roster.sink? id).bind fun sink => sink.receive.1
  ⟨{ m with roster := m.roster.modifySink id fun s => s.receive.2 }, .received payload, []⟩

/-- Closes the mailbox of a source. -/
def hangUp (m : Mixer κ σ π) (id : SourceId) : Effect κ σ π β :=
  ⟨{ m with roster := m.roster.modifySink id Sink.close }, .done, []⟩

/-- Carries out a request of the kind of mixing. -/
def ask (m : Mixer κ σ π) (request : α) : Effect κ σ π β :=
  let service := Mixing.serve m.room m.clock m.roster.seated request
  ⟨{ m with
      room := service.room
      roster := m.roster.reseat service.seats
      tally := { m.tally with overruns := m.tally.overruns + service.overruns } },
    match service.answer with
    | .ok b => .answer b
    | .error f => .refused f,
    service.events⟩

/-- Carries out an action, and no round. -/
def act (m : Mixer κ σ π) : Action π α → Effect κ σ π β
  | .join sink => m.join sink
  | .leave id => m.leave id
  | .advance t => ⟨{ m with clock := m.clock + t }, .done, []⟩
  | .stop => ⟨{ m with running := false }, .done, []⟩
  | .receive id => m.receive id
  | .hangUp id => m.hangUp id
  | .ask request => m.ask request

/-- Carries out an action and then all rounds that are due. -/
def step (m : Mixer κ σ π) (a : Action π α) : Outcome κ σ π β :=
  let effect := m.act a
  let settled := effect.mixer.settle
  ⟨settled.1, effect.reply, { settled.2 with events := effect.events ++ settled.2.events }⟩

/-- Carries out actions one after another, each with the rounds that are due after it. -/
def run (m : Mixer κ σ π) : List (Action π α) → Mixer κ σ π × Log π
  | [] => (m, .empty)
  | a :: as =>
      let first := m.step a
      let rest := run first.mixer as
      (rest.1, first.log ++ rest.2)

/-! ### Runs in parts -/

theorem rounds_succ (n : Nat) {m : Mixer κ σ π} {t : Timeline} (hr : m.running = true)
    (ht : m.timeline = some t) :
    rounds (n + 1) m =
      ((rounds n (m.round t).1).1, (m.round t).2 ++ (rounds n (m.round t).1).2) := by
  simp [rounds, hr, ht]

/-- No round takes place on a mixer that has stopped or has no timeline. -/
theorem rounds_of_idle (n : Nat) {m : Mixer κ σ π} (h : m.running = false ∨ m.timeline = none) :
    rounds n m = (m, .empty) := by
  cases n with
  | zero => rfl
  | succ n =>
      rcases h with h | h
      · simp [rounds, h]
      · simp [rounds, h]

/-- Rounds can be carried out in two parts. -/
theorem rounds_add (a b : Nat) (m : Mixer κ σ π) :
    rounds (a + b) m =
      ((rounds b (rounds a m).1).1, (rounds a m).2 ++ (rounds b (rounds a m).1).2) := by
  induction a generalizing m with
  | zero => simp [rounds]
  | succ a ih =>
      rw [Nat.succ_add]
      cases hr : m.running with
      | false => simp only [rounds_of_idle _ (.inl hr), Log.empty_append]
      | true =>
          cases ht : m.timeline with
          | none => simp only [rounds_of_idle _ (.inr ht), Log.empty_append]
          | some t =>
              rw [rounds_succ (a + b) hr ht, rounds_succ a hr ht, ih, Log.append_assoc]

/-- Actions can be carried out in two parts. -/
theorem run_append (m : Mixer κ σ π) (as bs : List (Action π α)) :
    m.run (as ++ bs) = (((m.run as).1.run bs).1, (m.run as).2 ++ ((m.run as).1.run bs).2) := by
  induction as generalizing m with
  | nil => simp [run]
  | cons a as ih => simp [run, ih, Log.append_assoc]

/-! ### What a stopped mixer does -/

theorem settle_of_not_running {m : Mixer κ σ π} (h : m.running = false) :
    m.settle = (m, .empty) := by
  simp [settle, h]

end Mixer

end ConferenceMix
