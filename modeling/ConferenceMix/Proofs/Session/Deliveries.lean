import ConferenceMix.Proofs.Session.Deeds

/-! # Who is called in a round, and with what

When the payloads of a kind of mixing are `Addressed` to the sources in turn, a round is a `Delivery`:
the sinks of the registered sources are called in the order of registration, each once, with a payload
for that source. `Mixer.deliversOnce_create` says so of every round of every run that is not broken off,
in terms of the actions and their replies: those who are called are those who have been registered and
have not left. After a source has left, nothing is delivered to it or addressed to it again. -/

namespace ConferenceMix

variable {κ σ π α β : Type}

/-- The payloads of this kind of mixing are addressed to the sources in the order of registration and
carry the timestamp of the round. -/
structure Addressed (κ : Type) {σ π α β : Type} [Mixing κ σ π α β] (recipient : π → SourceId)
    (timestamp : π → Nanos) : Prop where
  recipients : ∀ (room : κ) (stamp : Nanos) (seated : List (SourceId × σ)),
    (Mixing.mix room stamp seated).payloads.map recipient = seated.map Prod.fst
  timestamps : ∀ (room : κ) (stamp : Nanos) (seated : List (SourceId × σ)),
    ∀ p ∈ (Mixing.mix room stamp seated).payloads, timestamp p = stamp

/-! ### Writing to all sinks -/

namespace Roster

/-- The sources in the order of registration, each with its sink. -/
def sinks (r : Roster σ π) : List (SourceId × Sink π) := r.members.map fun x => (x.id, x.sink)

/-- A payload offered to the sink of a source. -/
def offered (x : SourceId × Sink π) (p : π) : Offer π := ⟨x.1, x.2.name, p, (x.2.write p).2⟩

/-- The sink of a source after a payload has been written to it. -/
def written (x : SourceId × Sink π) (p : π) : SourceId × Sink π := (x.1, (x.2.write p).1)

theorem sinks_reseat (r : Roster σ π) (seats : List σ) : (r.reseat seats).sinks = r.sinks := by
  have h : ∀ (ms : List (Member σ π)) (ss : List σ),
      (assign ms ss).map (fun x => (x.id, x.sink)) = ms.map fun x => (x.id, x.sink) := by
    intro ms ss
    fun_induction assign ms ss with
    | case1 m ms s ss ih => exact congrArg ((m.id, m.sink) :: ·) ih
    | case2 => rfl
    | case3 => rfl
  exact h r.members seats

/-- With a payload for every source, each sink is written to once, in the order of registration. -/
theorem deliver_eq_zipWith {r : Roster σ π} {ps : List π} (h : ps.length = r.size) :
    (r.deliver ps).2 = List.zipWith offered r.sinks ps ∧
      (r.deliver ps).1.sinks = List.zipWith written r.sinks ps := by
  have ha : ∀ (ms : List (Member σ π)) (ps : List π), ps.length = ms.length →
      (offerAll ms ps).2 = List.zipWith offered (ms.map fun x => (x.id, x.sink)) ps ∧
        (offerAll ms ps).1.map (fun x => (x.id, x.sink)) =
          List.zipWith written (ms.map fun x => (x.id, x.sink)) ps := by
    intro ms ps hl
    induction ms generalizing ps with
    | nil => exact ⟨rfl, rfl⟩
    | cons m ms ih =>
        cases ps with
        | nil => simp at hl
        | cons p ps =>
            obtain ⟨hoffers, hsinks⟩ := ih ps (by simpa using hl)
            simp only [offerAll, List.map_cons, List.zipWith_cons_cons, hoffers, hsinks]
            exact ⟨rfl, rfl⟩
  exact ha r.members ps h

/-- With a payload for every source, each is called once, in the order of registration. -/
theorem called_deliver {r : Roster σ π} {ps : List π} (h : ps.length = r.size) :
    (r.deliver ps).2.map (fun o => (o.source, o.sink)) = r.entries := by
  have ha : ∀ (ms : List (Member σ π)) (ps : List π), ps.length = ms.length →
      (offerAll ms ps).2.map (fun o => (o.source, o.sink)) =
        ms.map fun x => (x.id, x.sink.name) := by
    intro ms ps hl
    induction ms generalizing ps with
    | nil => rfl
    | cons m ms ih =>
        cases ps with
        | nil => simp at hl
        | cons p ps => exact congrArg ((m.id, m.sink.name) :: ·) (ih ps (by simpa using hl))
  exact ha r.members ps h

end Roster

variable [Mixing κ σ π α β]

/-! ### Rounds -/

theorem Mixer.length_payloads_round [LawfulMixing κ] (m : Mixer κ σ π) (t : Timeline) :
    (Mixing.mix m.room (t.due - t.start) m.roster.seated).payloads.length =
      (m.roster.reseat (Mixing.mix m.room (t.due - t.start) m.roster.seated).seats).size := by
  rw [LawfulMixing.length_payloads_mix, Roster.size_reseat]
  exact List.length_map _

/-- In a round, each sink is written to once, in the order of registration. -/
theorem Mixer.written_round [LawfulMixing κ] (m : Mixer κ σ π) (t : Timeline) :
    (m.round t).2.offers = List.zipWith Roster.offered m.roster.sinks
        (Mixing.mix m.room (t.due - t.start) m.roster.seated).payloads ∧
      (m.round t).1.roster.sinks = List.zipWith Roster.written m.roster.sinks
        (Mixing.mix m.room (t.due - t.start) m.roster.seated).payloads := by
  obtain ⟨hoffers, hsinks⟩ := Roster.deliver_eq_zipWith (m.length_payloads_round t)
  rw [Roster.sinks_reseat] at hoffers hsinks
  exact ⟨hoffers, hsinks⟩

/-- In a round, the registered sources are called, each once, in the order of registration. -/
theorem Mixer.called_round [LawfulMixing κ] (m : Mixer κ σ π) (t : Timeline) :
    (m.round t).2.offers.map (fun o => (o.source, o.sink)) = m.roster.entries :=
  (Roster.called_deliver (m.length_payloads_round t)).trans (m.roster.entries_reseat _)

/-- In a round, the sinks of the registered sources are called with payloads, in the order of
registration and each once. Every payload is addressed to the source whose sink is called, and
carries the timestamp of the round. -/
structure Tick.Delivery (recipient : π → SourceId) (timestamp : π → Nanos) (t : Tick κ σ π α)
    (payloads : List π) : Prop where
  addressed : payloads.map recipient = t.sources
  stamped : ∀ p ∈ payloads, timestamp p = t.stamp
  offers : t.log.offers = List.zipWith Roster.offered t.mixer.roster.sinks payloads
  sinks : t.after.roster.sinks = List.zipWith Roster.written t.mixer.roster.sinks payloads

namespace Addressed

variable [LawfulMixing κ] {recipient : π → SourceId} {timestamp : π → Nanos}

theorem delivery (h : Addressed κ recipient timestamp) (t : Tick κ σ π α) :
    t.Delivery recipient timestamp t.yield.payloads := by
  obtain ⟨hoffers, hsinks⟩ := t.mixer.written_round t.timeline
  exact ⟨(h.recipients _ t.stamp _).trans t.ids_floor, h.timestamps _ t.stamp _, hoffers, hsinks⟩

/-- Whatever is offered in a round is offered to a registered source and addressed to it. -/
theorem of_mem_offers (h : Addressed κ recipient timestamp) {m : Mixer κ σ π} {t : Timeline}
    {o : Offer π} (ho : o ∈ (m.round t).2.offers) :
    o.source ∈ m.roster.ids ∧ recipient o.payload = o.source := by
  obtain ⟨hsources, hpayloads⟩ := m.offers_round t
  have hrecipients : (m.round t).2.offers.map (fun o => recipient o.payload) =
      (m.round t).2.offers.map Offer.source := by
    have hmap := congrArg (List.map recipient) hpayloads
    rw [List.map_map, h.recipients, Roster.map_fst_seated, ← hsources] at hmap
    exact hmap
  exact ⟨hsources ▸ List.mem_map_of_mem ho, List.map_inj_left.mp hrecipients o ho⟩

end Addressed

/-! ### The rounds of a run -/

namespace Mixer

theorem historyFrom_append (asked : List (Asked α)) (m : Mixer κ σ π) (as : List (Action π α)) :
    ∃ asked', ∀ bs, m.historyFrom asked (as ++ bs) =
      m.historyFrom asked as ++ (m.run as).1.historyFrom asked' bs := by
  induction as generalizing asked m with
  | nil => exact ⟨asked, fun _ => rfl⟩
  | cons a as ih =>
      obtain ⟨asked', h⟩ := ih (asked ++ m.asking a) (m.step a).mixer
      refine ⟨asked', fun bs => ?_⟩
      rw [List.cons_append, historyFrom, h bs, historyFrom, List.append_assoc]
      rfl

/-- What every single round leaves alone is the same in all rounds that are due. -/
theorem eq_of_mem_dueTicks {γ : Type} {g : Mixer κ σ π → γ} (hg : ∀ m t, g (m.round t).1 = g m)
    (ht : ∀ (m : Mixer κ σ π) timeline, g { m with timeline } = g m) {asked : List (Asked α)}
    {m : Mixer κ σ π} {u : Tick κ σ π α} (hu : u ∈ m.dueTicks asked) : g u.mixer = g m := by
  have hticks : ∀ (n : Nat) (m : Mixer κ σ π), u ∈ ticks asked n m → g u.mixer = g m := by
    intro n
    induction n with
    | zero => exact fun _ h => absurd h List.not_mem_nil
    | succ n ih =>
        intro m hm
        rcases rounds_succ_cases asked n m with ⟨he, _⟩ | ⟨t, he, _⟩
        · rw [he] at hm
          cases hm
        · rw [he] at hm
          rcases List.mem_cons.mp hm with rfl | hm
          · rfl
          · exact (ih _ hm).trans (hg m t)
  rcases m.settle_cases asked with ⟨he, _, _⟩ | ⟨t, he, _⟩
  · rw [he] at hu
    cases hu
  · rw [he] at hu
    exact (hticks _ _ hu).trans (ht m (some t))

/-! ### Who has left -/

theorem map_fst_eraseP {τ : Type} (l : List (SourceId × τ)) (id : SourceId) :
    (l.eraseP fun x => x.1 = id).map Prod.fst = (l.map Prod.fst).erase id := by
  rw [List.erase_eq_eraseP', List.eraseP_map]
  rfl

/-- The source has left: it has had its number and is not registered. -/
structure Gone (id : SourceId) (m : Mixer κ σ π) : Prop where
  absent : id ∉ m.roster.ids
  handedOut : id < m.roster.upcoming

theorem Gone.act {id : SourceId} {m : Mixer κ σ π} (h : m.Gone id) (a : Action π α) :
    (m.act a).mixer.Gone id := by
  have habsent := h.absent
  rw [← m.roster.map_fst_entries] at habsent
  rcases m.entries_act_cases a with ⟨sink, _, _, he, hup⟩ | ⟨i, _, he, hup⟩ | ⟨_, _, he, hup⟩
  · constructor
    · rw [← Roster.map_fst_entries, he, List.map_append, List.mem_append, not_or]
      exact ⟨habsent, fun hm => SourceId.ne_of_lt h.handedOut (List.mem_singleton.mp hm)⟩
    · rw [hup]
      exact SourceId.lt_of_lt_of_lt h.handedOut m.roster.upcoming.lt_next
  · constructor
    · rw [← Roster.map_fst_entries, he, map_fst_eraseP]
      exact fun hm => habsent (List.mem_of_mem_erase hm)
    · rw [hup]
      exact h.handedOut
  · constructor
    · rw [← Roster.map_fst_entries, he]
      exact habsent
    · rw [hup]
      exact h.handedOut

/-- A source that has had its number is gone once it is asked to leave. -/
theorem gone_leave {m : Mixer κ σ π} (hn : m.roster.ids.Nodup) {id : SourceId}
    (hid : id < m.roster.upcoming) : (m.act (.leave id : Action π α)).mixer.Gone id := by
  rcases m.entries_act_cases (.leave id) with ⟨_, he, _⟩ | ⟨i, hi, he, hup⟩ | ⟨hne, _⟩
  · cases he
  · cases hi
    constructor
    · rw [← Roster.map_fst_entries, he, map_fst_eraseP, Roster.map_fst_entries]
      exact hn.not_mem_erase
    · rw [hup]
      exact hid
  · exact absurd rfl (hne id)

theorem Enlisted.gone {ds : List (Deed κ σ π α)} {m : Mixer κ σ π} (h : m.Enlisted ds)
    {x : SourceId × String} (hx : x ∈ admitted ds) :
    (m.act (.leave x.1)).mixer.Gone x.1 := by
  have hn : m.roster.ids.Nodup := by
    rw [← Roster.map_fst_entries, h.entries]
    exact (h.ascending.sublist (h.sublist.map Prod.fst)).imp SourceId.ne_of_lt
  exact gone_leave hn (h.handedOut x hx)

variable [LawfulMixing κ] {recipient : π → SourceId} {timestamp : π → Nanos}

theorem gone_upheld (h : Addressed κ recipient timestamp) (id : SourceId) :
    Upheld (fun _ : Action π α => True) fun _ l (m : Mixer κ σ π) =>
      m.Gone id ∧ ∀ o ∈ l.offers, o.source ≠ id ∧ recipient o.payload ≠ id where
  act {ds l m} a hp _ := by
    refine ⟨hp.1.act a, fun o ho => hp.2 o ?_⟩
    rcases List.mem_append.mp ho with hm | hm
    · exact hm
    · exact absurd hm List.not_mem_nil
  timed _ hp := ⟨⟨hp.1.absent, hp.1.handedOut⟩, hp.2⟩
  round {ds l m} t hp := by
    refine ⟨⟨by rw [ids_round]; exact hp.1.absent, hp.1.handedOut⟩, fun o ho => ?_⟩
    rcases List.mem_append.mp ho with hm | hm
    · exact hp.2 o hm
    · obtain ⟨hsource, hrecipient⟩ := h.of_mem_offers hm
      have hne : o.source ≠ id := fun he => hp.1.absent (he ▸ hsource)
      exact ⟨hne, hrecipient ▸ hne⟩

/-! ### Every round of every run -/

variable [Breakable κ σ α]

/-- A mixer delivers exactly once, and to exactly the registered sources, in all runs that are not
broken off. Its worker carries these out.

The offers of a run are those of its rounds. Each action adds rounds in which those are called who
have been registered and have not left, this action included; each of them is called once, in the
order of registration, with a payload addressed to it that carries the timestamp of the round. The
numbers of all sources ever registered ascend, and after a source has been asked to leave, nothing
is delivered to it or addressed to it. -/
structure DeliversOnce (last : Nanos) (recipient : π → SourceId) (timestamp : π → Nanos)
    (m : Mixer κ σ π) : Prop where
  carried : ∀ as : List (Action π α), (Worker.start m).Unbroken last as →
    (Worker.start m).run last as = (Worker.start (m.run as).1, (m.run as).2)
  logged : ∀ as : List (Action π α), (Worker.start m).Unbroken last as →
    Logs (m.run as).2 (m.history as)
  called : ∀ (as : List (Action π α)) (a : Action π α),
    (Worker.start m).Unbroken last (as ++ [a]) → ∃ rounds,
      m.history (as ++ [a]) = m.history as ++ rounds ∧
        ∀ t ∈ rounds, t.log.offers.map (fun o => (o.source, o.sink)) =
          registered (m.deeds (as ++ [a]))
  delivered : ∀ as : List (Action π α), (Worker.start m).Unbroken last as →
    ∀ t ∈ m.history as, ∃ payloads, t.Delivery recipient timestamp payloads
  ascending : ∀ as : List (Action π α), (Worker.start m).Unbroken last as →
    ((admitted (m.deeds as)).map Prod.fst).Pairwise (· < ·)
  gone : ∀ (before : List (Action π α)) (x : SourceId × String) (after : List (Action π α)),
    (Worker.start m).Unbroken last (before ++ .leave x.1 :: after) →
    x ∈ admitted (m.deeds before) →
      ∀ o ∈ ((m.run before).1.run (.leave x.1 :: after)).2.offers,
        o.source ≠ x.1 ∧ recipient o.payload ≠ x.1

theorem deliversOnce_create (h : Addressed κ recipient timestamp) (room : κ) (last : Nanos) :
    (create room : Mixer κ σ π).DeliversOnce last recipient timestamp where
  carried _ hu := hu.run_eq
  logged as _ := log_run _ as
  called as a _ := by
    let m : Mixer κ σ π := create room
    obtain ⟨asked, happend⟩ := historyFrom_append [] m as
    have henlisted := (enlisted_run room as).act a
    refine ⟨_, happend [a], fun t ht => ?_⟩
    have hdue : t ∈ ((m.run as).1.act a).mixer.dueTicks (asked ++ (m.run as).1.asking a) := by
      rw [historyFrom, historyFrom, List.append_nil] at ht
      exact ht
    rw [deeds_append]
    refine (t.mixer.called_round t.timeline).trans ?_
    exact (eq_of_mem_dueTicks (g := fun m => m.roster.entries) entries_round (fun _ _ => rfl)
      hdue).trans henlisted.entries
  delivered as _ t _ := ⟨_, h.delivery t⟩
  ascending as _ := (enlisted_run room as).ascending
  gone before x after _ hx := by
    let m := ((create room : Mixer κ σ π).run before).1
    have hupheld := gone_upheld h x.1
    -- the source is gone before any round takes place
    have hleft : (m.act (.leave x.1)).mixer.Gone x.1 ∧
        ∀ o ∈ (eventsOnly (π := π) (m.act (.leave x.1)).events).offers,
          o.source ≠ x.1 ∧ recipient o.payload ≠ x.1 :=
      ⟨(enlisted_run room before).gone hx, nofun⟩
    have hstep := hupheld.settle (d := []) hleft
    have hrun := hupheld.run (d := []) hstep fun a (_ : a ∈ after) => trivial
    exact hrun.2

end Mixer

end ConferenceMix
