import ConferenceMix.Proofs.Session.Cadence

/-! # What has been asked of a mixer

`Mixer.deeds` lists the actions of a run, each with the mixer it was asked of. A property of what has
been asked, of what has happened and of the mixer is `Upheld` when every action, every setting of
the timeline and every round keep it; it then holds after every run (`Upheld.run`).

Who is registered can be told from the actions and their replies alone: `admitted` are all sources
that a number was handed out to, and `registered` those of them that have not been asked to leave.
`Mixer.enlisted_run` says that the roster lists exactly these, and that the numbers ascend all along
the run. `Mixer.tallied_run` says that a mixer knows how many sources it has and how many rounds it
has carried out. -/

namespace ConferenceMix

/-- An action, and the mixer that it is asked of. -/
structure Deed (κ σ π α : Type) where
  mixer : Mixer κ σ π
  action : Action π α

variable {κ σ π α β : Type} [Mixing κ σ π α β]

namespace Mixer

/-- The actions of a run, each with the mixer that it is asked of. -/
def deeds (m : Mixer κ σ π) : List (Action π α) → List (Deed κ σ π α)
  | [] => []
  | a :: as => ⟨m, a⟩ :: deeds (m.step a).mixer as

theorem deeds_append (m : Mixer κ σ π) (as bs : List (Action π α)) :
    m.deeds (as ++ bs) = m.deeds as ++ (m.run as).1.deeds bs := by
  induction as generalizing m with
  | nil => rfl
  | cons a as ih => exact congrArg (Deed.mk m a :: ·) (ih _)

/-- What happens in an action itself are its events. -/
def eventsOnly (events : List Event) : Log π := ⟨[], [], events⟩

theorem log_step (m : Mixer κ σ π) (a : Action π α) :
    (m.step a).log = eventsOnly (m.act a).events ++ (m.act a).mixer.settle.2 := rfl

end Mixer

/-! ### What a run upholds -/

/-- A property of what has been asked, of what has happened and of the mixer, that every allowed
action, every setting of the timeline and every round keep. -/
structure Upheld (Allowed : Action π α → Prop)
    (P : List (Deed κ σ π α) → Log π → Mixer κ σ π → Prop) : Prop where
  act : ∀ {d l m} (a : Action π α), P d l m → Allowed a →
    P (d ++ [⟨m, a⟩]) (l ++ Mixer.eventsOnly (m.act a).events) (m.act a).mixer
  timed : ∀ {d l m} (timeline : Option Timeline), P d l m → P d l { m with timeline }
  round : ∀ {d l m} (t : Timeline), P d l m → P d (l ++ (m.round t).2) (m.round t).1

namespace Upheld

variable {Allowed : Action π α → Prop} {P : List (Deed κ σ π α) → Log π → Mixer κ σ π → Prop}
  {d : List (Deed κ σ π α)} {l : Log π} {m : Mixer κ σ π}

theorem rounds (h : Upheld Allowed P) (n : Nat) (hp : P d l m) :
    P d (l ++ (Mixer.rounds n m).2) (Mixer.rounds n m).1 := by
  induction n generalizing l m with
  | zero => rwa [Mixer.rounds, Log.append_empty]
  | succ n ih =>
      rcases Mixer.rounds_succ_cases [] n m with ⟨_, hr⟩ | ⟨t, _, hr⟩
      · rwa [hr, Log.append_empty]
      · rw [hr, ← Log.append_assoc]
        exact ih (h.round t hp)

theorem settle (h : Upheld Allowed P) (hp : P d l m) : P d (l ++ m.settle.2) m.settle.1 := by
  cases hr : m.running with
  | false => rwa [Mixer.settle_of_not_running hr, Log.append_empty]
  | true =>
      cases hs : m.schedule with
      | none =>
          rw [Mixer.settle_of_unscheduled hr hs, Log.append_empty]
          exact h.timed none hp
      | some t =>
          rw [Mixer.settle_of_schedule hr hs]
          exact h.rounds _ (h.timed (some t) hp)

theorem step (h : Upheld Allowed P) (hp : P d l m) {a : Action π α} (ha : Allowed a) :
    P (d ++ [⟨m, a⟩]) (l ++ (m.step a).log) (m.step a).mixer := by
  rw [Mixer.log_step, ← Log.append_assoc]
  exact h.settle (h.act a hp ha)

/-- **What every action and every round upholds holds after every run.** -/
theorem run (h : Upheld Allowed P) (hp : P d l m) {as : List (Action π α)}
    (ha : ∀ a ∈ as, Allowed a) : P (d ++ m.deeds as) (l ++ (m.run as).2) (m.run as).1 := by
  induction as generalizing d l m with
  | nil =>
      rw [Mixer.deeds, Mixer.run, List.append_nil, Log.append_empty]
      exact hp
  | cons a as ih =>
      have hstep := h.step hp (ha a (List.mem_cons_self ..))
      have hrest := ih hstep fun b hb => ha b (List.mem_cons_of_mem a hb)
      rw [List.append_assoc, Log.append_assoc] at hrest
      exact hrest

end Upheld

/-- What is kept on the floor is upheld by the mixer. -/
theorem Kept.upheld [LawfulMixing κ] {Allowed : Action π α → Prop}
    {P : List (Asked α) → List (Tick κ σ π α) → Floor κ σ → Prop} (h : Kept Allowed P) :
    Upheld Allowed fun _ _ (m : Mixer κ σ π) =>
      ∃ asked done, m.floor.Known asked done ∧ P asked done m.floor where
  act := by
    rintro ds l m a ⟨asked, done, hk, hp⟩ ha
    exact ⟨asked ++ m.asking a, done, (Floor.known_kept Allowed).act hk hk ha, h.act hk hp ha⟩
  timed := fun _ hp => hp
  round := by
    rintro ds l m t ⟨asked, done, hk, hp⟩
    let tick : Tick κ σ π α := ⟨asked, m, t⟩
    rw [Mixer.floor_round]
    exact ⟨asked, done ++ [tick], (Floor.known_kept Allowed).round tick hk hk, h.round tick hk hp⟩

/-! ### Who is registered -/

namespace Sink

variable {π : Type}

theorem name_receive (s : Sink π) : s.receive.2.name = s.name := by
  cases s <;> rfl

theorem name_close (s : Sink π) : s.close.name = s.name := by
  cases s <;> rfl

end Sink

namespace Roster

variable {σ π : Type}

/-- The sources in the order of registration, each with the name of its sink. -/
def entries (r : Roster σ π) : List (SourceId × String) :=
  r.members.map fun x => (x.id, x.sink.name)

theorem map_fst_entries (r : Roster σ π) : r.entries.map Prod.fst = r.ids := by
  simp [entries, ids]

theorem entries_enrol (r : Roster σ π) (sink : Sink π) (seat : σ) :
    (r.enrol sink seat).entries = r.entries ++ [(r.upcoming, sink.name)] := by
  simp [entries, enrol]

theorem entries_strike (r : Roster σ π) (id : SourceId) :
    (r.strike id).entries = r.entries.eraseP fun x => x.1 = id := by
  simp only [entries, strike, List.eraseP_map]
  rfl

theorem entries_modifySink (r : Roster σ π) (id : SourceId) {f : Sink π → Sink π}
    (hf : ∀ s, (f s).name = s.name) : (r.modifySink id f).entries = r.entries := by
  simp only [entries, modifySink, List.map_map]
  apply List.map_congr_left
  intro x _
  simp only [Function.comp]
  split
  · rw [hf]
  · rfl

theorem entries_reseat (r : Roster σ π) (seats : List σ) :
    (r.reseat seats).entries = r.entries := by
  have h : ∀ (ms : List (Member σ π)) (ss : List σ),
      (assign ms ss).map (fun x => (x.id, x.sink.name)) = ms.map fun x => (x.id, x.sink.name) := by
    intro ms ss
    fun_induction assign ms ss with
    | case1 m ms s ss ih => exact congrArg ((m.id, m.sink.name) :: ·) ih
    | case2 => rfl
    | case3 => rfl
  exact h r.members seats

theorem entries_deliver (r : Roster σ π) (payloads : List π) :
    (r.deliver payloads).1.entries = r.entries := by
  have h : ∀ (ms : List (Member σ π)) (ps : List π),
      (offerAll ms ps).1.map (fun x => (x.id, x.sink.name)) =
        ms.map fun x => (x.id, x.sink.name) := by
    intro ms ps
    fun_induction offerAll ms ps with
    | case1 m ms p ps written rest ih =>
        rw [List.map_cons, List.map_cons, ← ih]
        exact congrArg (fun name => (m.id, name) :: _) (m.sink.name_write p)
    | case2 => rfl
  exact h r.members payloads

end Roster

namespace Deed

/-- The source that an action registers: the number it is answered with, and the name of its
sink. -/
def admits (d : Deed κ σ π α) : Option (SourceId × String) :=
  match d.action, (d.mixer.act d.action).reply with
  | .join sink, .joined id => some (id, sink.name)
  | _, _ => none

theorem admits_join (m : Mixer κ σ π) (sink : Sink π) :
    admits ⟨m, .join sink⟩ = match (m.join (β := β) sink).reply with
      | .joined id => some (id, sink.name)
      | _ => none := by
  unfold admits Mixer.act
  dsimp only
  cases (m.join (β := β) sink).reply <;> rfl

/-- The sources that are registered after an action, given those before it. -/
def update (entries : List (SourceId × String)) (d : Deed κ σ π α) : List (SourceId × String) :=
  match d.action with
  | .leave id => entries.eraseP fun x => x.1 = id
  | _ => entries ++ d.admits.toList

end Deed

/-- The sources that have ever been registered, in that order. -/
def admitted (ds : List (Deed κ σ π α)) : List (SourceId × String) := ds.filterMap Deed.admits

/-- The sources that have been registered and have not left, in the order of registration. -/
def registered (ds : List (Deed κ σ π α)) : List (SourceId × String) := ds.foldl Deed.update []

theorem admitted_append (ds : List (Deed κ σ π α)) (d : Deed κ σ π α) :
    admitted (ds ++ [d]) = admitted ds ++ d.admits.toList := by
  rw [admitted, List.filterMap_append, admitted]
  cases h : d.admits <;> simp [h]

theorem registered_append (ds : List (Deed κ σ π α)) (d : Deed κ σ π α) :
    registered (ds ++ [d]) = d.update (registered ds) := by
  rw [registered, List.foldl_append]
  rfl

namespace Mixer

variable {m : Mixer κ σ π}

theorem entries_round (m : Mixer κ σ π) (t : Timeline) :
    (m.round t).1.roster.entries = m.roster.entries := by
  simp only [round, Roster.entries_deliver, Roster.entries_reseat]

theorem entries_leave (m : Mixer κ σ π) (id : SourceId) :
    (m.leave (β := β) id).mixer.roster.entries = m.roster.entries.eraseP fun x => x.1 = id := by
  rcases m.leave_eq_cases (β := β) id with ⟨hn, he⟩ | ⟨_, he⟩
  · rw [he, List.eraseP_of_forall_not]
    intro x hx hid
    refine hn ?_
    rw [← m.roster.map_fst_entries, ← of_decide_eq_true hid]
    exact List.mem_map_of_mem hx
  · rw [he]
    exact m.roster.entries_strike id

/-- What an action does to the list of sources: a source gets the next number and stands last, a
source is taken off, or all stays as it is. -/
theorem entries_act_cases (m : Mixer κ σ π) (a : Action π α) :
    (∃ sink, a = .join sink ∧ Deed.admits ⟨m, a⟩ = some (m.roster.upcoming, sink.name) ∧
        (m.act a).mixer.roster.entries = m.roster.entries ++ [(m.roster.upcoming, sink.name)] ∧
        (m.act a).mixer.roster.upcoming = m.roster.upcoming.next) ∨
      (∃ id, a = .leave id ∧
        (m.act a).mixer.roster.entries = m.roster.entries.eraseP (fun x => x.1 = id) ∧
        (m.act a).mixer.roster.upcoming = m.roster.upcoming) ∨
      ((∀ id, a ≠ .leave id) ∧ Deed.admits ⟨m, a⟩ = none ∧
        (m.act a).mixer.roster.entries = m.roster.entries ∧
        (m.act a).mixer.roster.upcoming = m.roster.upcoming) := by
  cases a with
  | join sink =>
      rw [Deed.admits_join]
      unfold act
      dsimp only
      rcases m.join_eq_cases (β := β) sink with ⟨fault, he, _⟩ | ⟨admission, _, _, he⟩
      · rw [he]
        exact .inr (.inr ⟨nofun, rfl, rfl, rfl⟩)
      · rw [he]
        exact .inl ⟨sink, rfl, rfl, m.roster.entries_enrol sink admission.seat, rfl⟩
  | leave id =>
      refine .inr (.inl ⟨id, rfl, m.entries_leave id, ?_⟩)
      show (m.leave (β := β) id).mixer.roster.upcoming = _
      rcases m.leave_eq_cases (β := β) id with ⟨_, he⟩ | ⟨_, he⟩
      · rw [he]
      · rw [he]
        rfl
  | receive id =>
      exact .inr (.inr ⟨nofun, rfl, m.roster.entries_modifySink id Sink.name_receive, rfl⟩)
  | hangUp id =>
      exact .inr (.inr ⟨nofun, rfl, m.roster.entries_modifySink id Sink.name_close, rfl⟩)
  | ask r => exact .inr (.inr ⟨nofun, rfl, m.roster.entries_reseat _, rfl⟩)
  | advance t => exact .inr (.inr ⟨nofun, rfl, rfl, rfl⟩)
  | stop => exact .inr (.inr ⟨nofun, rfl, rfl, rfl⟩)

/-- The roster lists those who have been registered and have not left. The numbers of all that have
ever been registered ascend, and the next one is above all of them. -/
structure Enlisted (ds : List (Deed κ σ π α)) (m : Mixer κ σ π) : Prop where
  entries : m.roster.entries = registered ds
  sublist : (registered ds).Sublist (admitted ds)
  ascending : ((admitted ds).map Prod.fst).Pairwise (· < ·)
  handedOut : ∀ x ∈ admitted ds, x.1 < m.roster.upcoming

theorem enlisted_create (room : κ) :
    (create room : Mixer κ σ π).Enlisted ([] : List (Deed κ σ π α)) :=
  ⟨rfl, .slnil, .nil, nofun⟩

/-- A source that is registered gets the next number and stands last. -/
theorem Enlisted.admit {ds : List (Deed κ σ π α)} (h : m.Enlisted ds) {d : Deed κ σ π α}
    {next : Mixer κ σ π} {x : SourceId × String} (hnumber : x.1 = m.roster.upcoming)
    (hadmits : d.admits = some x) (hupdate : d.update (registered ds) = registered ds ++ [x])
    (hentries : next.roster.entries = m.roster.entries ++ [x])
    (hup : next.roster.upcoming = m.roster.upcoming.next) : next.Enlisted (ds ++ [d]) := by
  have hadm : admitted (ds ++ [d]) = admitted ds ++ [x] := by
    rw [admitted_append, hadmits]
    rfl
  have hreg : registered (ds ++ [d]) = registered ds ++ [x] := by
    rw [registered_append, hupdate]
  constructor
  · rw [hentries, hreg, h.entries]
  · rw [hreg, hadm]
    exact h.sublist.append (List.Sublist.refl _)
  · rw [hadm, List.map_append]
    refine List.pairwise_append.mpr ⟨h.ascending, List.pairwise_singleton _ _, ?_⟩
    intro i hi j hj
    obtain ⟨y, hy, rfl⟩ := List.mem_map.mp hi
    rw [List.mem_singleton.mp hj, hnumber]
    exact h.handedOut y hy
  · intro y hy
    rw [hadm] at hy
    rw [hup]
    rcases List.mem_append.mp hy with hm | hm
    · exact SourceId.lt_of_lt_of_lt (h.handedOut y hm) m.roster.upcoming.lt_next
    · rw [List.mem_singleton.mp hm, hnumber]
      exact m.roster.upcoming.lt_next

/-- Without a new source the roster can only lose some. -/
theorem Enlisted.keep {ds : List (Deed κ σ π α)} (h : m.Enlisted ds) {d : Deed κ σ π α}
    {next : Mixer κ σ π} (hadmits : d.admits = none)
    (hupdate : (d.update (registered ds)).Sublist (registered ds))
    (hentries : next.roster.entries = d.update (registered ds))
    (hup : next.roster.upcoming = m.roster.upcoming) : next.Enlisted (ds ++ [d]) := by
  have hadm : admitted (ds ++ [d]) = admitted ds := by
    rw [admitted_append, hadmits]
    exact List.append_nil _
  constructor
  · rw [hentries, registered_append]
  · rw [registered_append, hadm]
    exact hupdate.trans h.sublist
  · rw [hadm]
    exact h.ascending
  · rw [hadm, hup]
    exact h.handedOut

theorem Enlisted.act {ds : List (Deed κ σ π α)} (h : m.Enlisted ds) (a : Action π α) :
    (m.act a).mixer.Enlisted (ds ++ [⟨m, a⟩]) := by
  rcases m.entries_act_cases a with ⟨sink, rfl, hadmits, hentries, hup⟩ | ⟨id, rfl, hentries, hup⟩ |
    ⟨hn, hadmits, hentries, hup⟩
  · refine h.admit rfl hadmits ?_ hentries hup
    rw [Deed.update, hadmits]
    rfl
  · refine h.keep rfl List.eraseP_sublist ?_ hup
    rw [hentries, h.entries]
    rfl
  · have hupdate : Deed.update (registered ds) ⟨m, a⟩ = registered ds := by
      rw [Deed.update, hadmits]
      cases a with
      | leave id => exact absurd rfl (hn id)
      | _ => exact List.append_nil _
    refine h.keep hadmits (hupdate.symm ▸ List.Sublist.refl _) ?_ hup
    rw [hentries, h.entries, hupdate]

theorem enlisted_upheld :
    Upheld (fun _ : Action π α => True) fun ds _ (m : Mixer κ σ π) => m.Enlisted ds where
  act a h _ := h.act a
  timed _ h := ⟨h.entries, h.sublist, h.ascending, h.handedOut⟩
  round t h := ⟨(entries_round _ t).trans h.entries, h.sublist, h.ascending, h.handedOut⟩

/-- The roster lists those who have been registered and have not left. -/
theorem enlisted_run (room : κ) (as : List (Action π α)) :
    ((create room : Mixer κ σ π).run as).1.Enlisted ((create room).deeds as) :=
  enlisted_upheld.run (l := .empty) (enlisted_create room) fun _ _ => trivial

/-! ### Counting sources and rounds -/

/-- The mixer has counted its sources and its rounds. -/
structure Tallied (l : Log π) (m : Mixer κ σ π) : Prop where
  sources : m.tally.sources = m.roster.size
  rounds : m.tally.rounds = l.rounds.length

theorem Tallied.act {l : Log π} (h : m.Tallied l) (a : Action π α) :
    (m.act a).mixer.Tallied (l ++ eventsOnly (m.act a).events) := by
  have hlog : (l ++ eventsOnly (m.act a).events).rounds = l.rounds := List.append_nil _
  refine ⟨?_, by rw [hlog, (m.tally_act a).1, h.rounds]⟩
  cases a with
  | join sink =>
      show (m.join (β := β) sink).mixer.tally.sources = (m.join (β := β) sink).mixer.roster.size
      rcases m.join_cases (β := β) sink with he | ⟨admission, _, _, he⟩
      · rw [he, h.sources]
      · rw [he]
  | leave id =>
      show (m.leave (β := β) id).mixer.tally.sources = (m.leave (β := β) id).mixer.roster.size
      rcases m.leave_cases (β := β) id with ⟨_, he⟩ | ⟨_, he⟩
      · rw [he, h.sources]
      · rw [he]
  | ask r => exact h.sources.trans (m.roster.size_reseat _).symm
  | receive id => exact h.sources.trans (List.length_map _).symm
  | hangUp id => exact h.sources.trans (List.length_map _).symm
  | advance t => exact h.sources
  | stop => exact h.sources

theorem tallied_upheld :
    Upheld (fun _ : Action π α => True) fun _ l (m : Mixer κ σ π) => m.Tallied l where
  act a h _ := h.act a
  timed _ h := ⟨h.sources, h.rounds⟩
  round {_ l m} t h := by
    constructor
    · have hids := congrArg List.length (m.ids_round t)
      rw [Roster.ids, Roster.ids, List.length_map, List.length_map] at hids
      exact h.sources.trans hids.symm
    · show m.tally.rounds + 1 = (l.rounds ++ [t.due - t.start]).length
      rw [h.rounds, List.length_append, List.length_singleton]

/-- A mixer knows how many sources it has and how many rounds it has carried out. -/
theorem tallied_run (room : κ) (as : List (Action π α)) :
    ((create room : Mixer κ σ π).run as).1.Tallied ((create room : Mixer κ σ π).run as).2 :=
  tallied_upheld.run (P := fun _ l m => m.Tallied l) (d := []) (l := .empty) ⟨rfl, rfl⟩
    fun _ _ => trivial

end Mixer

end ConferenceMix
