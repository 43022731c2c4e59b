import ConferenceMix.Session.Mixer

/-! # What actions and rounds do to the sources of a mixer

Mixing works on the `Floor` of a mixer: what is kept for the room, the sources with what is kept
for each, and the number of the next source. An action leaves the floor as it is, lets one source in
or out, or gives new seats to all (`Mixer.floor_act_cases`); a round gives new seats to all
(`Mixer.floor_round`). All that comes of joining and leaving, replies and events included, is in
`Mixer.join_eq_cases` and `Mixer.leave_eq_cases`. A floor is `Numbered` when its sources stand in the
order of their numbers, all of which have been handed out; no source is then listed twice. -/

namespace ConferenceMix

namespace SourceId

theorem lt_of_lt_of_lt {a b c : SourceId} (hab : a < b) (hbc : b < c) : a < c :=
  Nat.lt_trans hab hbc

theorem ne_of_lt {a b : SourceId} (h : a < b) : a ≠ b := by
  rintro rfl
  exact Nat.lt_irrefl _ h

end SourceId

/-- In a list without repeated keys, an element is found by its key. -/
theorem find?_of_nodup_keys {τ : Type} {l : List (SourceId × τ)} (h : (l.map Prod.fst).Nodup)
    {x : SourceId × τ} (hx : x ∈ l) : (l.find? fun t => t.1 = x.1) = some x := by
  induction l with
  | nil => cases hx
  | cons y ys ih =>
      rw [List.map_cons, List.nodup_cons] at h
      rcases List.mem_cons.mp hx with rfl | hm
      · simp
      · have hne : y.1 ≠ x.1 := fun he => h.1 (he ▸ List.mem_map_of_mem hm)
        rw [List.find?_cons_of_neg (by simpa using hne)]
        exact ih h.2 hm

/-! ### The seats of a roster -/

namespace Roster

variable {σ π : Type} {r : Roster σ π}

theorem map_fst_seated (r : Roster σ π) : r.seated.map Prod.fst = r.ids := by
  simp [seated, ids]

theorem map_snd_seated (r : Roster σ π) : r.seated.map Prod.snd = r.seats := by
  simp [seated, seats]

theorem seated_enrol (r : Roster σ π) (sink : Sink π) (seat : σ) :
    (r.enrol sink seat).seated = r.seated ++ [(r.upcoming, seat)] := by
  simp [seated, enrol]

theorem seated_strike (r : Roster σ π) (id : SourceId) :
    (r.strike id).seated = r.seated.eraseP fun x => x.1 = id := by
  simp only [seated, strike, List.eraseP_map]
  rfl

theorem seated_modifySink (r : Roster σ π) (id : SourceId) (f : Sink π → Sink π) :
    (r.modifySink id f).seated = r.seated := by
  simp only [seated, modifySink, List.map_map]
  apply List.map_congr_left
  intro m _
  simp only [Function.comp]
  split <;> rfl

theorem seated_deliver (r : Roster σ π) (payloads : List π) :
    (r.deliver payloads).1.seated = r.seated := by
  have h : ∀ (ms : List (Member σ π)) (ps : List π),
      (offerAll ms ps).1.map (fun m => (m.id, m.seat)) = ms.map fun m => (m.id, m.seat) := by
    intro ms ps
    fun_induction offerAll ms ps with
    | case1 m ms p ps written rest ih => exact congrArg ((m.id, m.seat) :: ·) ih
    | case2 => rfl
  exact h r.members payloads

/-- With a seat for every source, each source gets the one at its place. -/
theorem seated_reseat {seats : List σ} (h : seats.length = r.seated.length) :
    (r.reseat seats).seated = r.ids.zip seats := by
  have ha : ∀ (ms : List (Member σ π)) (ss : List σ), ss.length = ms.length →
      (assign ms ss).map (fun m => (m.id, m.seat)) = (ms.map Member.id).zip ss := by
    intro ms ss hl
    induction ms generalizing ss with
    | nil =>
        cases ss with
        | nil => rfl
        | cons s ss => simp at hl
    | cons m ms ih =>
        cases ss with
        | nil => simp at hl
        | cons s ss =>
            simp only [assign, List.map_cons, List.zip_cons_cons]
            rw [ih ss (by simpa using hl)]
  exact ha r.members seats (by simpa [seated] using h)

theorem find?_eq_none_iff (r : Roster σ π) (id : SourceId) : r.find? id = none ↔ id ∉ r.ids := by
  simp only [find?, List.find?_eq_none, ids, List.mem_map, decide_eq_true_eq]
  constructor
  · rintro h ⟨m, hm, he⟩
    exact h m hm he
  · intro h m hm he
    exact h ⟨m, hm, he⟩

end Roster

/-! ### Floors -/

/-- What mixing works on: what is kept for the room, the sources in the order of registration with
what is kept for each, and the number of the next source. -/
structure Floor (κ σ : Type) where
  room : κ
  seated : List (SourceId × σ)
  upcoming : SourceId

namespace Floor

variable {κ σ π α β : Type}

/-- The sources in the order of registration. -/
def ids (f : Floor κ σ) : List SourceId := f.seated.map Prod.fst

/-- What is kept for a source, if it is registered. -/
def seat? (f : Floor κ σ) (id : SourceId) : Option σ :=
  (f.seated.find? fun x => x.1 = id).map Prod.snd

/-- A newcomer is let in behind the others. -/
def enter (f : Floor κ σ) (a : Admission κ σ) : Floor κ σ :=
  ⟨a.room, f.seated ++ [(f.upcoming, a.seat)], f.upcoming.next⟩

/-- A source goes. -/
def exit [Mixing κ σ π α β] (f : Floor κ σ) (id : SourceId) : Floor κ σ :=
  ⟨Mixing.depart f.room, f.seated.eraseP fun x => x.1 = id, f.upcoming⟩

/-- The room changes, and every source gets the seat at its place. -/
def become (f : Floor κ σ) (room : κ) (seats : List σ) : Floor κ σ :=
  ⟨room, f.ids.zip seats, f.upcoming⟩

/-- The sources stand in the order of their numbers, all of which have been handed out. -/
structure Numbered (f : Floor κ σ) : Prop where
  ascending : f.ids.Pairwise (· < ·)
  handedOut : ∀ id ∈ f.ids, id < f.upcoming

theorem Numbered.nodup {f : Floor κ σ} (h : f.Numbered) : f.ids.Nodup :=
  h.ascending.imp SourceId.ne_of_lt

theorem Numbered.seat?_eq {f : Floor κ σ} (h : f.Numbered) {x : SourceId × σ} (hx : x ∈ f.seated) :
    f.seat? x.1 = some x.2 := by
  rw [seat?, find?_of_nodup_keys h.nodup hx]
  rfl

theorem seat?_eq_none {f : Floor κ σ} {id : SourceId} (h : id ∉ f.ids) : f.seat? id = none := by
  rw [seat?, Option.map_eq_none_iff, List.find?_eq_none]
  intro x hx he
  have hid : x.1 = id := by simpa using he
  exact h (hid ▸ List.mem_map_of_mem hx)

theorem ids_enter (f : Floor κ σ) (a : Admission κ σ) :
    (f.enter a).ids = f.ids ++ [f.upcoming] := by
  simp [ids, enter]

theorem ids_exit_sublist [Mixing κ σ π α β] (f : Floor κ σ) (id : SourceId) :
    (f.exit id).ids.Sublist f.ids :=
  List.eraseP_sublist.map Prod.fst

theorem ids_become {f : Floor κ σ} {seats : List σ} (h : seats.length = f.seated.length)
    (room : κ) : (f.become room seats).ids = f.ids := by
  simp only [ids, become]
  rw [List.map_fst_zip]
  simp [h]

theorem become_map (f : Floor κ σ) (room : κ) (g : SourceId × σ → σ) :
    f.become room (f.seated.map g) = ⟨room, f.seated.map fun x => (x.1, g x), f.upcoming⟩ := by
  rw [become, ids, List.zip_map']

theorem become_mapIdx (f : Floor κ σ) (room : κ) (g : Nat → SourceId × σ → σ) :
    f.become room (f.seated.mapIdx g) =
      ⟨room, f.seated.mapIdx fun i x => (x.1, g i x), f.upcoming⟩ := by
  have hzip : f.ids.zip (f.seated.mapIdx g) = f.seated.mapIdx fun i x => (x.1, g i x) := by
    apply List.ext_getElem <;> simp [ids]
  rw [become, hzip]

/-- All sources keep their seats. -/
theorem become_seats (f : Floor κ σ) (room : κ) :
    f.become room (f.seated.map Prod.snd) = ⟨room, f.seated, f.upcoming⟩ := by
  rw [become_map]
  exact congrArg (Floor.mk room · f.upcoming) (List.map_id' _)

theorem Numbered.enter {f : Floor κ σ} (h : f.Numbered) (a : Admission κ σ) :
    (f.enter a).Numbered := by
  constructor
  · rw [ids_enter]
    refine List.pairwise_append.mpr ⟨h.ascending, List.pairwise_singleton _ _, ?_⟩
    intro i hi j hj
    rw [List.mem_singleton.mp hj]
    exact h.handedOut i hi
  · intro id hid
    rw [ids_enter] at hid
    rcases List.mem_append.mp hid with hm | hm
    · exact SourceId.lt_of_lt_of_lt (h.handedOut id hm) f.upcoming.lt_next
    · rw [List.mem_singleton.mp hm]
      exact f.upcoming.lt_next

theorem Numbered.exit [Mixing κ σ π α β] {f : Floor κ σ} (h : f.Numbered) (id : SourceId) :
    (f.exit id).Numbered :=
  ⟨h.ascending.sublist (ids_exit_sublist f id),
    fun i hi => h.handedOut i ((ids_exit_sublist f id).subset hi)⟩

theorem Numbered.become {f : Floor κ σ} (h : f.Numbered) {seats : List σ}
    (hs : seats.length = f.seated.length) (room : κ) : (f.become room seats).Numbered := by
  constructor
  · rw [ids_become hs]
    exact h.ascending
  · rw [ids_become hs]
    exact h.handedOut

end Floor

/-- A kind of mixing that has a seat and a payload for every source, no more and no less. -/
class LawfulMixing (κ : Type) {σ π α β : outParam Type} [Mixing κ σ π α β] : Prop where
  length_seats_mix : ∀ (room : κ) (stamp : Nanos) (seated : List (SourceId × σ)),
    (Mixing.mix room stamp seated).seats.length = seated.length
  length_payloads_mix : ∀ (room : κ) (stamp : Nanos) (seated : List (SourceId × σ)),
    (Mixing.mix room stamp seated).payloads.length = seated.length
  length_seats_serve : ∀ (room : κ) (now : Nanos) (seated : List (SourceId × σ)) (request : α),
    (Mixing.serve room now seated request).seats.length = seated.length

/-- The action ends all mixing. -/
def Action.isStop {π α : Type} : Action π α → Bool
  | stop => true
  | _ => false

namespace Mixer

variable {κ σ π α β : Type} [Mixing κ σ π α β]

/-- The floor of a mixer. -/
def floor (m : Mixer κ σ π) : Floor κ σ := ⟨m.room, m.roster.seated, m.roster.upcoming⟩

theorem ids_floor (m : Mixer κ σ π) : m.floor.ids = m.roster.ids := m.roster.map_fst_seated

/-- On a numbered floor, no source is listed twice. -/
theorem nodup_ids {m : Mixer κ σ π} (h : m.floor.Numbered) : m.roster.ids.Nodup :=
  m.ids_floor ▸ h.nodup

theorem numbered_create (room : κ) : (create room : Mixer κ σ π).floor.Numbered :=
  ⟨List.Pairwise.nil, fun _ h => absurd h List.not_mem_nil⟩

/-- All that comes of a source's request to join: it is turned away and nothing happens, or it is
registered. A running mixer turns away only those who are not welcome. -/
theorem join_eq_cases (m : Mixer κ σ π) (sink : Sink π) :
    (∃ fault, m.join (β := β) sink = ⟨m, .refused fault, []⟩ ∧
        (m.running = true → ∀ a, Mixing.welcome m.room m.roster.seats ≠ .ok a)) ∨
      ∃ admission, Mixing.welcome m.room m.roster.seats = .ok admission ∧ m.running = true ∧
        m.join (β := β) sink = ⟨{ m with
          room := admission.room
          roster := m.roster.enrol sink admission.seat
          tally := { m.tally with sources := (m.roster.enrol sink admission.seat).size } },
          .joined m.roster.upcoming, .sourceAdded m.roster.upcoming :: admission.events⟩ := by
  unfold join
  cases hw : Mixing.welcome m.room m.roster.seats with
  | error cause => exact .inl ⟨_, rfl, fun _ => nofun⟩
  | ok admission =>
      cases hr : m.running with
      | false => exact .inl ⟨_, rfl, nofun⟩
      | true => exact .inr ⟨admission, rfl, rfl, rfl⟩

/-- A source is registered, or nothing happens. -/
theorem join_cases (m : Mixer κ σ π) (sink : Sink π) :
    (m.join (β := β) sink).mixer = m ∨
      ∃ admission, Mixing.welcome m.room m.roster.seats = .ok admission ∧ m.running = true ∧
        (m.join (β := β) sink).mixer = { m with
          room := admission.room
          roster := m.roster.enrol sink admission.seat
          tally := { m.tally with sources := (m.roster.enrol sink admission.seat).size } } := by
  rcases m.join_eq_cases (β := β) sink with ⟨_, he, _⟩ | ⟨admission, hw, hr, he⟩
  · exact .inl (congrArg Effect.mixer he)
  · exact .inr ⟨admission, hw, hr, congrArg Effect.mixer he⟩

/-- All that comes of taking a source off the list: nothing, if it is not registered. -/
theorem leave_eq_cases (m : Mixer κ σ π) (id : SourceId) :
    (id ∉ m.roster.ids ∧ m.leave (β := β) id = ⟨m, .done, []⟩) ∨
      (id ∈ m.roster.ids ∧ m.leave (β := β) id = ⟨{ m with
          room := Mixing.depart m.room
          roster := m.roster.strike id
          tally := { m.tally with sources := (m.roster.strike id).size } },
          .done, [.sourceRemoved id]⟩) := by
  unfold leave
  cases hf : m.roster.find? id with
  | none => exact .inl ⟨(m.roster.find?_eq_none_iff id).mp hf, rfl⟩
  | some found =>
      refine .inr ⟨Decidable.byContradiction fun hn => ?_, rfl⟩
      rw [(m.roster.find?_eq_none_iff id).mpr hn] at hf
      cases hf

/-- A registered source is taken off the list, or nothing happens. -/
theorem leave_cases (m : Mixer κ σ π) (id : SourceId) :
    (id ∉ m.roster.ids ∧ (m.leave (β := β) id).mixer = m) ∨
      (id ∈ m.roster.ids ∧ (m.leave (β := β) id).mixer = { m with
        room := Mixing.depart m.room
        roster := m.roster.strike id
        tally := { m.tally with sources := (m.roster.strike id).size } }) := by
  rcases m.leave_eq_cases (β := β) id with ⟨hn, he⟩ | ⟨hm, he⟩
  · exact .inl ⟨hn, congrArg Effect.mixer he⟩
  · exact .inr ⟨hm, congrArg Effect.mixer he⟩

/-- Of all actions, only a stop stops a mixer, and nothing makes one run again. -/
theorem running_act (m : Mixer κ σ π) (a : Action π α) :
    (m.act a).mixer.running = (m.running && !a.isStop) := by
  cases a with
  | join sink =>
      refine Eq.trans ?_ (Bool.and_true _).symm
      rcases m.join_cases (β := β) sink with he | ⟨_, _, _, he⟩
      · exact congrArg running he
      · exact (congrArg running he).trans rfl
  | leave id =>
      refine Eq.trans ?_ (Bool.and_true _).symm
      rcases m.leave_cases (β := β) id with ⟨_, he⟩ | ⟨_, he⟩
      · exact congrArg running he
      · exact (congrArg running he).trans rfl
  | stop => exact (Bool.and_false _).symm
  | _ => exact (Bool.and_true _).symm

/-- Rounds, underruns and payloads that were not taken are not counted in actions. -/
theorem tally_act (m : Mixer κ σ π) (a : Action π α) :
    (m.act a).mixer.tally.rounds = m.tally.rounds ∧
      (m.act a).mixer.tally.underruns = m.tally.underruns ∧
      (m.act a).mixer.tally.sinkFaults = m.tally.sinkFaults := by
  cases a with
  | join sink =>
      unfold act
      dsimp only
      rcases m.join_cases (β := β) sink with he | ⟨_, _, _, he⟩ <;> simp [he]
  | leave id =>
      unfold act
      dsimp only
      rcases m.leave_cases (β := β) id with ⟨_, he⟩ | ⟨_, he⟩ <;> simp [he]
  | _ => exact ⟨rfl, rfl, rfl⟩

/-- An action does not report what is reported neither of sources that come and go, nor when one is
welcomed, nor when a request is served. -/
theorem filter_events_act {p : Event → Bool} (hadded : ∀ id, p (.sourceAdded id) = false)
    (hremoved : ∀ id, p (.sourceRemoved id) = false)
    (hwelcome : ∀ {room : κ} {seats : List σ} {admission : Admission κ σ},
      Mixing.welcome room seats = .ok admission → admission.events.filter p = [])
    (hserve : ∀ (room : κ) (now : Nanos) (seated : List (SourceId × σ)) (r : α),
      (Mixing.serve room now seated r).events.filter p = [])
    (m : Mixer κ σ π) (a : Action π α) : (m.act a).events.filter p = [] := by
  cases a with
  | join sink =>
      unfold act
      dsimp only
      rcases m.join_eq_cases (β := β) sink with ⟨_, he, _⟩ | ⟨admission, hw, _, he⟩
      · rw [he]
        rfl
      · rw [he]
        simp [hadded, hwelcome hw]
  | leave id =>
      unfold act
      dsimp only
      rcases m.leave_eq_cases (β := β) id with ⟨_, he⟩ | ⟨_, he⟩
      · rw [he]
        rfl
      · rw [he]
        simp [hremoved]
  | ask r => exact hserve m.room m.clock m.roster.seated r
  | _ => rfl

/-- What an action does to the floor. -/
theorem floor_act_cases [LawfulMixing κ] (m : Mixer κ σ π) (a : Action π α) :
    ((∀ r, a ≠ .ask r) ∧ (m.act a).mixer.floor = m.floor) ∨
      (∃ sink admission, a = .join sink ∧
        Mixing.welcome m.floor.room (m.floor.seated.map Prod.snd) = .ok admission ∧
        (m.act a).mixer.floor = m.floor.enter admission) ∨
      (∃ id, a = .leave id ∧ id ∈ m.floor.ids ∧ (m.act a).mixer.floor = m.floor.exit id) ∨
      (∃ r, a = .ask r ∧ (m.act a).mixer.floor =
        m.floor.become (Mixing.serve m.floor.room m.clock m.floor.seated r).room
          (Mixing.serve m.floor.room m.clock m.floor.seated r).seats) := by
  cases a with
  | join sink =>
      rcases m.join_cases (β := β) sink with he | ⟨admission, hw, _, he⟩
      · exact .inl ⟨fun r => nofun, congrArg floor he⟩
      · refine .inr (.inl ⟨sink, admission, rfl, ?_, ?_⟩)
        · rw [show m.floor.seated.map Prod.snd = m.roster.seats from m.roster.map_snd_seated]
          exact hw
        · refine (congrArg floor he).trans ?_
          simp only [floor, Floor.enter, Roster.seated_enrol]
          rfl
  | leave id =>
      rcases m.leave_cases (β := β) id with ⟨_, he⟩ | ⟨hm, he⟩
      · exact .inl ⟨fun r => nofun, congrArg floor he⟩
      · refine .inr (.inr (.inl ⟨id, rfl, ?_, ?_⟩))
        · rw [ids_floor]
          exact hm
        · refine (congrArg floor he).trans ?_
          simp only [floor, Floor.exit, Roster.seated_strike]
          rfl
  | advance t => exact .inl ⟨fun r => nofun, rfl⟩
  | stop => exact .inl ⟨fun r => nofun, rfl⟩
  | receive id =>
      refine .inl ⟨fun r => nofun, ?_⟩
      simp only [act, receive, floor, Roster.seated_modifySink]
      rfl
  | hangUp id =>
      refine .inl ⟨fun r => nofun, ?_⟩
      simp only [act, hangUp, floor, Roster.seated_modifySink]
      rfl
  | ask r =>
      refine .inr (.inr (.inr ⟨r, rfl, ?_⟩))
      have hl := LawfulMixing.length_seats_serve m.room m.clock m.roster.seated r
      simp only [act, ask, floor, Floor.become, Floor.ids, Roster.seated_reseat hl,
        Roster.map_fst_seated]
      rfl

/-- What a round does to the floor. -/
theorem floor_round [LawfulMixing κ] (m : Mixer κ σ π) (t : Timeline) :
    (m.round t).1.floor =
      m.floor.become (Mixing.mix m.floor.room (t.due - t.start) m.floor.seated).room
        (Mixing.mix m.floor.room (t.due - t.start) m.floor.seated).seats := by
  have hl := LawfulMixing.length_seats_mix m.room (t.due - t.start) m.roster.seated
  simp only [round, floor, Floor.become, Floor.ids, Roster.seated_deliver,
    Roster.seated_reseat hl, Roster.map_fst_seated]
  rfl

/-- In a round, every source is offered its own payload, in the order of registration. -/
theorem offers_round [LawfulMixing κ] (m : Mixer κ σ π) (t : Timeline) :
    (m.round t).2.offers.map Offer.source = m.roster.ids ∧
      (m.round t).2.offers.map Offer.payload =
        (Mixing.mix m.room (t.due - t.start) m.roster.seated).payloads := by
  have hl := LawfulMixing.length_payloads_mix m.room (t.due - t.start) m.roster.seated
  have hs := m.roster.size_reseat (Mixing.mix m.room (t.due - t.start) m.roster.seated).seats
  have h := Roster.sources_offerAll
    (m.roster.reseat (Mixing.mix m.room (t.due - t.start) m.roster.seated).seats).members
    (Mixing.mix m.room (t.due - t.start) m.roster.seated).payloads (by
      rw [hl]
      simpa [Roster.size, Roster.seated] using hs.symm)
  refine ⟨h.1.trans ?_, h.2⟩
  exact m.roster.ids_reseat _

theorem offered_round [LawfulMixing κ] (m : Mixer κ σ π) (t : Timeline) :
    (m.round t).2.offers.map (fun o => (o.source, o.payload)) =
      m.roster.ids.zip (Mixing.mix m.room (t.due - t.start) m.roster.seated).payloads := by
  obtain ⟨hsources, hpayloads⟩ := m.offers_round t
  rw [← hsources, ← hpayloads]
  exact List.zip_map'.symm

/-- When the payloads go by the sources, each source is offered the one that goes with it. -/
theorem offer_of_payloads [LawfulMixing κ] {m : Mixer κ σ π} {t : Timeline} {g : SourceId → π}
    (hg : (Mixing.mix m.floor.room (t.due - t.start) m.floor.seated).payloads = m.roster.ids.map g)
    {o : Offer π} (ho : o ∈ (m.round t).2.offers) :
    o.source ∈ m.roster.ids ∧ o.payload = g o.source := by
  have hpairs : (m.round t).2.offers.map (fun o => (o.source, o.payload)) =
      m.roster.ids.map fun id => (id, g id) := by
    calc (m.round t).2.offers.map (fun o => (o.source, o.payload))
        = m.roster.ids.zip (Mixing.mix m.room (t.due - t.start) m.roster.seated).payloads :=
          m.offered_round t
      _ = (m.roster.ids.map fun id => id).zip (m.roster.ids.map g) := by
          rw [List.map_id']
          exact congrArg _ hg
      _ = m.roster.ids.map fun id => (id, g id) := List.zip_map'
  have hmem : (o.source, o.payload) ∈ m.roster.ids.map fun id => (id, g id) :=
    hpairs ▸ List.mem_map_of_mem ho
  obtain ⟨id, hid, he⟩ := List.mem_map.mp hmem
  obtain ⟨rfl, hpayload⟩ := Prod.mk.inj he
  exact ⟨hid, hpayload.symm⟩

end Mixer

end ConferenceMix
