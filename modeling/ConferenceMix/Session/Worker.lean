import ConferenceMix.Session.Mixer

/-! # Workers

The rounds of a mixer are carried out by a worker of its own, apart from those who ask something of
the mixer. Moments can be told up to a limit, and clocks have a last reading `last`. Where a moment
would lie beyond, the one who needs it breaks off (`Breakable`): a request is then not answered, and a
worker is gone for good, although the mixer counts as running.

A round breaks off in the mixing, before anything is delivered, or after all is delivered, when the
time of the next round cannot be told. Neither is counted. As long as nothing breaks off
(`Worker.Unbroken`), a worker carries out what `Mixer.run` says. -/

namespace ConferenceMix

/-- What a round leaves behind that breaks off in the mixing: what is kept for each source, how many
sources have run short, and what has been reported. -/
structure Wreck (σ : Type) where
  seats : List σ
  underruns : Nat
  events : List Event

/-- A kind of mixing whose rounds and requests may break off. -/
class Breakable (κ : Type) (σ α : outParam Type) where
  /-- What a round with the given sources leaves behind if it breaks off. -/
  wreck? : κ → List (SourceId × σ) → Option (Wreck σ)
  /-- What is kept for each source after a request that breaks off. The clock shows the second of the
  given times, and the first is its last reading. -/
  spoil? : κ → Nanos → Nanos → List (SourceId × σ) → α → Option (List σ)

/-- A mixer, and whether its worker is still there. -/
structure Worker (κ σ π : Type) where
  mixer : Mixer κ σ π
  alive : Bool

/-- How an action and the rounds that are due after it went. There is no reply if the action broke
off. -/
structure Progress (κ σ π β : Type) where
  worker : Worker κ σ π
  reply : Option (Reply π β)
  log : Log π

variable {κ σ π α β : Type} [Mixing κ σ π α β] [Breakable κ σ α]

/-- Carries out an action and no round, or breaks off and leaves a mixer behind. -/
def Mixer.act? (last : Nanos) (m : Mixer κ σ π) :
    Action π α → Except (Mixer κ σ π) (Effect κ σ π β)
  | .advance t => if last < m.clock + t then .error m else .ok (m.act (.advance t))
  | .ask request =>
      match Breakable.spoil? m.room last m.clock m.roster.seated request with
      | some seats => .error { m with roster := m.roster.reseat seats }
      | none => .ok (m.act (.ask request))
  | a => .ok (m.act a)

namespace Worker

/-- The worker of a mixer that has just been made. -/
def start (m : Mixer κ σ π) : Worker κ σ π := ⟨m, true⟩

/-- The round that is next on a timeline, as far as it comes. -/
def round (last : Nanos) (m : Mixer κ σ π) (t : Timeline) : Worker κ σ π × Log π :=
  match Breakable.wreck? m.room m.roster.seated with
  | some wreck =>
      (⟨{ m with
          roster := m.roster.reseat wreck.seats
          tally := { m.tally with underruns := m.tally.underruns + wreck.underruns } }, false⟩,
        ⟨[], [], wreck.events⟩)
  | none =>
      let done := m.round t
      if last < t.due + Mixing.interval m.room then
        (⟨{ done.1 with
            timeline := m.timeline
            tally := { done.1.tally with rounds := m.tally.rounds } }, false⟩, done.2)
      else (start done.1, done.2)

/-- Up to `n` rounds one after another, as long as the mixer runs and the worker is there. -/
def rounds (last : Nanos) : Nat → Mixer κ σ π → Worker κ σ π × Log π
  | 0, m => (start m, .empty)
  | n + 1, m =>
      match m.running, m.timeline with
      | true, some t =>
          let first := round last m t
          if first.1.alive then
            let rest := rounds last n first.1.mixer
            (rest.1, first.2 ++ rest.2)
          else first
      | _, _ => (start m, .empty)

/-- All rounds that are due by now, if the worker is still there. -/
def settle (last : Nanos) (w : Worker κ σ π) : Worker κ σ π × Log π :=
  if w.alive && w.mixer.running then
    match w.mixer.schedule with
    | none => (start { w.mixer with timeline := none }, .empty)
    | some t => rounds last (w.mixer.dueRounds t) { w.mixer with timeline := some t }
  else (w, .empty)

/-- Carries out an action and then all rounds that are due. -/
def step (last : Nanos) (w : Worker κ σ π) (a : Action π α) : Progress κ σ π β :=
  match w.mixer.act? last a with
  | .error left =>
      let settled := settle last { w with mixer := left }
      ⟨settled.1, none, settled.2⟩
  | .ok effect =>
      let settled := settle last { w with mixer := effect.mixer }
      ⟨settled.1, some effect.reply,
        { settled.2 with events := effect.events ++ settled.2.events }⟩

/-- Carries out actions one after another, each with the rounds that are due after it. -/
def run (last : Nanos) (w : Worker κ σ π) : List (Action π α) → Worker κ σ π × Log π
  | [] => (w, .empty)
  | a :: as =>
      let first := w.step last a
      let rest := run last first.worker as
      (rest.1, first.log ++ rest.2)

/-- Nothing breaks off: every action is replied to, and the worker is there to the end. -/
def Unbroken (last : Nanos) (w : Worker κ σ π) : List (Action π α) → Prop
  | [] => w.alive = true
  | a :: as => (w.step last a).reply ≠ none ∧ Unbroken last (w.step last a).worker as

end Worker

end ConferenceMix
