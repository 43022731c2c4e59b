import ConferenceMix.Proofs.Session.Floor

/-! # The rounds of a run and what came before each

`Mixer.history` lists the rounds of a run as `Tick`s: the mixer as it goes into the round, and the
requests made before it, each with the sources registered at that time. `Mixer.log_run` says that
these are the rounds that the run carries out.

What every action and every round keeps holds all along a run: `Kept.history` concludes from a
`Kept` property what holds when each round begins, given the rounds before it. -/

namespace ConferenceMix

/-! ### Properties of each element and those before it -/

/-- Every element of a list satisfies `P`, given the elements before it; `done` come before all. -/
def Along {τ : Type} (P : List τ → τ → Prop) (done : List τ) : List τ → Prop
  | [] => True
  | t :: ts => P done t ∧ Along P (done ++ [t]) ts

section Along

variable {τ : Type} {P : List τ → τ → Prop}

theorem along_append {done as bs : List τ} :
    Along P done (as ++ bs) ↔ Along P done as ∧ Along P (done ++ as) bs := by
  induction as generalizing done with
  | nil => simp [Along]
  | cons a as ih => simp [Along, ih, and_assoc]

theorem Along.at_split {ts : List τ} (h : Along P [] ts) {before : List τ} {t : τ} {after : List τ}
    (hs : ts = before ++ t :: after) : P before t := by
  rw [hs, along_append] at h
  exact h.2.1

end Along

/-! ### Histories -/

/-- A request, and the sources that were registered when it was made. -/
structure Asked (α : Type) where
  sources : List SourceId
  request : α
deriving DecidableEq, Repr

/-- A round of a run: the requests made before it, the mixer that goes into it, and the timeline it
is on. -/
structure Tick (κ σ π α : Type) where
  asked : List (Asked α)
  mixer : Mixer κ σ π
  timeline : Timeline

namespace Tick

variable {κ σ π α β : Type}

/-- The sources registered at the round. -/
def sources (t : Tick κ σ π α) : List SourceId := t.mixer.roster.ids

theorem ids_floor (t : Tick κ σ π α) : t.mixer.floor.ids = t.sources := t.mixer.ids_floor

/-- The timestamp of the round. -/
def stamp (t : Tick κ σ π α) : Nanos := t.timeline.due - t.timeline.start

/-- What happens in the round. -/
def log [Mixing κ σ π α β] (t : Tick κ σ π α) : Log π := (t.mixer.round t.timeline).2

/-- The mixer that comes out of the round. -/
def after [Mixing κ σ π α β] (t : Tick κ σ π α) : Mixer κ σ π := (t.mixer.round t.timeline).1

/-- What the round yields. -/
def yield [Mixing κ σ π α β] (t : Tick κ σ π α) : Yield κ σ π :=
  Mixing.mix t.mixer.floor.room t.stamp t.mixer.floor.seated

end Tick

namespace Mixer

variable {κ σ π α β : Type} [Mixing κ σ π α β]

/-- Up to `n` rounds one after another, after the given requests. -/
def ticks (asked : List (Asked α)) : Nat → Mixer κ σ π → List (Tick κ σ π α)
  | 0, _ => []
  | n + 1, m =>
      match m.running, m.timeline with
      | true, some t => ⟨asked, m, t⟩ :: ticks asked n (m.round t).1
      | _, _ => []

/-- All rounds that are due by now, after the given requests. -/
def dueTicks (asked : List (Asked α)) (m : Mixer κ σ π) : List (Tick κ σ π α) :=
  if m.running then
    match m.schedule with
    | none => []
    | some t => ticks asked (m.dueRounds t) { m with timeline := some t }
  else []

/-- The request that an action makes, if any. -/
def asking (m : Mixer κ σ π) : Action π α → List (Asked α)
  | .ask r => [⟨m.roster.ids, r⟩]
  | _ => []

/-- The rounds of a run of a mixer to which the given requests have been made. -/
def historyFrom (asked : List (Asked α)) (m : Mixer κ σ π) :
    List (Action π α) → List (Tick κ σ π α)
  | [] => []
  | a :: as =>
      dueTicks (asked ++ m.asking a) (m.act a).mixer ++
        historyFrom (asked ++ m.asking a) (m.step a).mixer as

/-- The rounds of a run. -/
def history (m : Mixer κ σ π) (as : List (Action π α)) : List (Tick κ σ π α) := historyFrom [] m as

/-! ### The rounds of the history are those of the run -/

/-- The next round takes place, or there is none. -/
theorem rounds_succ_cases (asked : List (Asked α)) (n : Nat) (m : Mixer κ σ π) :
    (ticks asked (n + 1) m = [] ∧ rounds (n + 1) m = (m, .empty)) ∨
      ∃ t, ticks asked (n + 1) m = ⟨asked, m, t⟩ :: ticks asked n (m.round t).1 ∧
        rounds (n + 1) m =
          ((rounds n (m.round t).1).1, (m.round t).2 ++ (rounds n (m.round t).1).2) := by
  cases hr : m.running with
  | false => exact .inl ⟨by simp [ticks, hr], rounds_of_idle _ (.inl hr)⟩
  | true =>
      cases ht : m.timeline with
      | none => exact .inl ⟨by simp [ticks, ht], rounds_of_idle _ (.inr ht)⟩
      | some t => exact .inr ⟨t, by simp [ticks, hr, ht], rounds_succ n hr ht⟩

/-- Rounds are due on some timeline, or there are none. -/
theorem settle_cases (asked : List (Asked α)) (m : Mixer κ σ π) :
    (m.dueTicks asked = [] ∧ m.settle.1.floor = m.floor ∧ m.settle.2 = .empty) ∨
      ∃ t, m.dueTicks asked = ticks asked (m.dueRounds t) { m with timeline := some t } ∧
        m.settle = rounds (m.dueRounds t) { m with timeline := some t } := by
  cases hr : m.running with
  | false => exact .inl (by simp [dueTicks, settle, hr])
  | true =>
      cases ht : m.schedule with
      | none => exact .inl (by simp [dueTicks, settle, hr, ht, floor])
      | some t => exact .inr ⟨t, by simp [dueTicks, hr, ht], by simp [settle, hr, ht]⟩

/-- The log lists the timestamps and the offers of the rounds. -/
def Logs (l : Log π) (ts : List (Tick κ σ π α)) : Prop :=
  l.rounds = ts.map Tick.stamp ∧ l.offers = ts.flatMap fun t => t.log.offers

theorem logs_append {k l : Log π} {ss ts : List (Tick κ σ π α)} (hk : Logs k ss) (hl : Logs l ts) :
    Logs (k ++ l) (ss ++ ts) := by
  constructor
  · rw [Log.rounds_append, List.map_append, hk.1, hl.1]
  · rw [Log.offers_append, List.flatMap_append, hk.2, hl.2]

theorem log_rounds (asked : List (Asked α)) (n : Nat) (m : Mixer κ σ π) :
    Logs (rounds n m).2 (ticks asked n m) := by
  induction n generalizing m with
  | zero => exact ⟨rfl, rfl⟩
  | succ n ih =>
      rcases rounds_succ_cases asked n m with ⟨ht, hr⟩ | ⟨t, ht, hr⟩
      · rw [ht, hr]
        exact ⟨rfl, rfl⟩
      · have hfirst : Logs (m.round t).2 [Tick.mk asked m t] := by
          refine ⟨rfl, ?_⟩
          rw [List.flatMap_singleton]
          rfl
        rw [ht, hr]
        exact logs_append hfirst (ih (m.round t).1)

theorem log_settle (asked : List (Asked α)) (m : Mixer κ σ π) :
    Logs m.settle.2 (dueTicks asked m) := by
  rcases settle_cases asked m with ⟨ht, _, hl⟩ | ⟨t, ht, hs⟩
  · rw [ht, hl]
    exact ⟨rfl, rfl⟩
  · rw [ht, hs]
    exact log_rounds asked _ _

theorem log_runFrom (asked : List (Asked α)) (m : Mixer κ σ π) (as : List (Action π α)) :
    Logs (m.run as).2 (historyFrom asked m as) := by
  induction as generalizing asked m with
  | nil => exact ⟨rfl, rfl⟩
  | cons a as ih => exact logs_append (log_settle _ _) (ih _ _)

/-- The rounds of the history are the rounds of the run. -/
theorem log_run (m : Mixer κ σ π) (as : List (Action π α)) : Logs (m.run as).2 (m.history as) :=
  log_runFrom [] m as

end Mixer

/-! ### What a run keeps -/

variable {κ σ π α β : Type} [Mixing κ σ π α β]

/-- The requests and the rounds so far belong to a floor: they are about sources that have already
been given a number, and the floor itself is numbered. -/
structure Floor.Known (asked : List (Asked α)) (done : List (Tick κ σ π α)) (f : Floor κ σ) :
    Prop where
  numbered : f.Numbered
  asked : ∀ a ∈ asked, ∀ id ∈ a.sources, id < f.upcoming
  heard : ∀ t ∈ done, ∀ id ∈ t.sources, id < f.upcoming

/-- A property of the requests so far, the rounds so far and the floor that every action and every
round keeps, as long as the actions are allowed. -/
structure Kept (Allowed : Action π α → Prop)
    (P : List (Asked α) → List (Tick κ σ π α) → Floor κ σ → Prop) : Prop where
  enter : ∀ {asked done f sink admission}, f.Known asked done → P asked done f →
    Allowed (.join sink) → Mixing.welcome f.room (f.seated.map Prod.snd) = .ok admission →
    P asked done (f.enter admission)
  exit : ∀ {asked done f id}, f.Known asked done → P asked done f → id ∈ f.ids →
    P asked done (f.exit id)
  ask : ∀ {asked done f now r}, f.Known asked done → P asked done f → Allowed (.ask r) →
    P (asked ++ [⟨f.ids, r⟩]) done
      (f.become (Mixing.serve f.room now f.seated r).room
        (Mixing.serve f.room now f.seated r).seats)
  round : ∀ (t : Tick κ σ π α) {done}, t.mixer.floor.Known t.asked done →
    P t.asked done t.mixer.floor →
    P t.asked (done ++ [t]) (t.mixer.floor.become t.yield.room t.yield.seats)

theorem Floor.known_create (room : κ) : (Mixer.create room : Mixer κ σ π).floor.Known
    ([] : List (Asked α)) ([] : List (Tick κ σ π α)) :=
  ⟨Mixer.numbered_create room, fun _ h => absurd h List.not_mem_nil,
    fun _ h => absurd h List.not_mem_nil⟩

theorem Floor.known_kept [LawfulMixing κ] (Allowed : Action π α → Prop) :
    Kept Allowed fun asked done (f : Floor κ σ) => f.Known asked done where
  enter := by
    intro asked done f sink admission h _ _ _
    have hnext : ∀ id, id < f.upcoming → id < f.upcoming.next := fun id hid =>
      SourceId.lt_of_lt_of_lt hid f.upcoming.lt_next
    exact ⟨h.numbered.enter admission, fun a ha id hid => hnext id (h.asked a ha id hid),
      fun t ht id hid => hnext id (h.heard t ht id hid)⟩
  exit := by
    intro asked done f id h _ _
    exact ⟨h.numbered.exit id, h.asked, h.heard⟩
  ask := by
    intro asked done f now r h _ _
    have hseats := LawfulMixing.length_seats_serve f.room now f.seated r
    refine ⟨h.numbered.become hseats _, ?_, h.heard⟩
    intro a ha id hid
    rcases List.mem_append.mp ha with hm | hm
    · exact h.asked a hm id hid
    · rw [List.mem_singleton.mp hm] at hid
      exact h.numbered.handedOut id hid
  round := by
    intro t done h _
    refine ⟨h.numbered.become (LawfulMixing.length_seats_mix _ t.stamp _) _, h.asked, ?_⟩
    intro u hu id hid
    rcases List.mem_append.mp hu with hm | hm
    · exact h.heard u hm id hid
    · rw [List.mem_singleton.mp hm, ← Tick.ids_floor] at hid
      exact h.numbered.handedOut id hid

namespace Kept

variable [LawfulMixing κ] {Allowed : Action π α → Prop}
  {P : List (Asked α) → List (Tick κ σ π α) → Floor κ σ → Prop}

/-- What holds when a round begins, given the rounds before it. -/
def AtTick (P : List (Asked α) → List (Tick κ σ π α) → Floor κ σ → Prop)
    (done : List (Tick κ σ π α)) (t : Tick κ σ π α) : Prop :=
  t.mixer.floor.Known t.asked done ∧ P t.asked done t.mixer.floor

theorem act (h : Kept Allowed P) {asked : List (Asked α)} {done : List (Tick κ σ π α)}
    {m : Mixer κ σ π} (hk : m.floor.Known asked done) (hp : P asked done m.floor)
    {a : Action π α} (ha : Allowed a) :
    P (asked ++ m.asking a) done (m.act a).mixer.floor := by
  rcases m.floor_act_cases a with ⟨hn, he⟩ | ⟨sink, admission, rfl, hw, he⟩ | ⟨id, rfl, hm, he⟩ |
    ⟨r, rfl, he⟩
  · have hask : m.asking a = [] := by
      cases a with
      | ask r => exact absurd rfl (hn r)
      | _ => rfl
    rw [hask, List.append_nil, he]
    exact hp
  · rw [he, show m.asking (.join sink) = [] from rfl, List.append_nil]
    exact h.enter hk hp ha hw
  · rw [he, show m.asking (.leave id) = [] from rfl, List.append_nil]
    exact h.exit hk hp hm
  · rw [he, show m.asking (.ask r) = [⟨m.floor.ids, r⟩] by rw [m.ids_floor]; rfl]
    exact h.ask hk hp ha

theorem ticks (h : Kept Allowed P) {asked : List (Asked α)} {done : List (Tick κ σ π α)} (n : Nat)
    {m : Mixer κ σ π} (hk : m.floor.Known asked done) (hp : P asked done m.floor) :
    Along (AtTick P) done (m.ticks asked n) ∧
      P asked (done ++ m.ticks asked n) (Mixer.rounds n m).1.floor := by
  induction n generalizing done m with
  | zero =>
      rw [Mixer.ticks, List.append_nil]
      exact ⟨trivial, hp⟩
  | succ n ih =>
      rcases Mixer.rounds_succ_cases asked n m with ⟨ht, hr⟩ | ⟨t, ht, hr⟩
      · rw [ht, hr, List.append_nil]
        exact ⟨trivial, hp⟩
      · let tick : Tick κ σ π α := ⟨asked, m, t⟩
        have he : (m.round t).1.floor = tick.mixer.floor.become tick.yield.room tick.yield.seats :=
          m.floor_round t
        have hk₁ : (m.round t).1.floor.Known asked (done ++ [tick]) := by
          rw [he]
          exact (Floor.known_kept Allowed).round tick hk hk
        have hp₁ : P asked (done ++ [tick]) (m.round t).1.floor := by
          rw [he]
          exact h.round tick hk hp
        -- the other rounds follow this one
        obtain ⟨hal, hend⟩ := ih hk₁ hp₁
        rw [List.append_assoc] at hend
        rw [ht, hr]
        exact ⟨⟨⟨hk, hp⟩, hal⟩, hend⟩

theorem settle (h : Kept Allowed P) {asked : List (Asked α)} {done : List (Tick κ σ π α)}
    {m : Mixer κ σ π} (hk : m.floor.Known asked done) (hp : P asked done m.floor) :
    Along (AtTick P) done (m.dueTicks asked) ∧
      P asked (done ++ m.dueTicks asked) m.settle.1.floor := by
  rcases m.settle_cases asked with ⟨ht, hf, _⟩ | ⟨t, ht, hs⟩
  · rw [ht, hf, List.append_nil]
    exact ⟨trivial, hp⟩
  · rw [ht, hs]
    exact h.ticks _ (m := { m with timeline := some t }) hk hp

theorem historyFrom (h : Kept Allowed P) {asked : List (Asked α)} {done : List (Tick κ σ π α)}
    {m : Mixer κ σ π} (hk : m.floor.Known asked done) (hp : P asked done m.floor)
    {as : List (Action π α)} (ha : ∀ a ∈ as, Allowed a) :
    Along (AtTick P) done (m.historyFrom asked as) := by
  induction as generalizing asked done m with
  | nil => trivial
  | cons a as ih =>
      have ha₁ := ha a (List.mem_cons_self ..)
      have hk₁ := (Floor.known_kept Allowed).act hk hk ha₁
      have hp₁ := h.act hk hp ha₁
      obtain ⟨hal, hp₂⟩ := h.settle hk₁ hp₁
      have hk₂ := ((Floor.known_kept Allowed).settle hk₁ hk₁).2
      exact along_append.mpr ⟨hal, ih hk₂ hp₂ fun b hb => ha b (List.mem_cons_of_mem a hb)⟩

/-- **What every action and every round keeps holds whenever a round begins.** -/
theorem history (h : Kept Allowed P) {room : κ}
    (hp : P [] [] (Mixer.create room : Mixer κ σ π).floor) {as : List (Action π α)}
    (ha : ∀ a ∈ as, Allowed a) {before : List (Tick κ σ π α)} {t : Tick κ σ π α}
    {after : List (Tick κ σ π α)}
    (hs : (Mixer.create room : Mixer κ σ π).history as = before ++ t :: after) :
    t.mixer.floor.Known t.asked before ∧ P t.asked before t.mixer.floor := by
  exact (h.historyFrom (Floor.known_create room) hp ha).at_split hs

end Kept

end ConferenceMix
