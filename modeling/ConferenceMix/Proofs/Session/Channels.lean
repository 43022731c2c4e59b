import ConferenceMix.Proofs.Session.Deposits
import ConferenceMix.Proofs.Session.Mailboxes
import ConferenceMix.Proofs.Session.Refusals

/-! # Payloads on their way to a receiver

A source may have a mailbox for its sink. Its receiver takes payloads out, or goes away, at any time
between the rounds, also when the source has left (`Mixer.sink?_act`); what it has got is what the
mixer has answered it (`receipts`). Neither what is asked of a mixer nor a round loses a payload
(`Mixer.Conveying.act`, `Mixer.Conveying.round`).

What a source is offered is what its rounds yield for it (`Mixer.offersTo_follow`).
`Mixer.losesNothing_create` concludes that the receiver has got all of it or will get it, but for
the payloads that were refused, each of which is reported and counted once. -/

namespace ConferenceMix

variable {π : Type}

/-! ### Receivers -/

/-- The offers made to a source. -/
def Log.offersTo (l : Log π) (id : SourceId) : List (Offer π) :=
  l.offers.filter fun o => o.source = id

/-- The payloads that a source's sink took. -/
def Log.acceptedBy (l : Log π) (id : SourceId) : List π :=
  (l.offersTo id).filterMap Offer.accepted?

theorem Log.offersTo_append (k l : Log π) (id : SourceId) :
    (k ++ l).offersTo id = k.offersTo id ++ l.offersTo id := by
  rw [offersTo, Log.offers_append, List.filter_append]
  rfl

theorem Log.acceptedBy_append (k l : Log π) (id : SourceId) :
    (k ++ l).acceptedBy id = k.acceptedBy id ++ l.acceptedBy id := by
  rw [acceptedBy, Log.offersTo_append, List.filterMap_append]
  rfl

section

variable {κ σ α β : Type} [Mixing κ σ π α β]

/-- The payload that a mixer hands to the receiver for a source when an action is carried out. -/
def Deed.receipt? (id : SourceId) (d : Deed κ σ π α) : Option π :=
  match d.action, (d.mixer.act d.action).reply with
  | .receive i, .received payload => if i = id then payload else none
  | _, _ => none

/-- The payloads that the receiver for a source has got. -/
def receipts (id : SourceId) (ds : List (Deed κ σ π α)) : List π := ds.filterMap (Deed.receipt? id)

theorem receipts_append (id : SourceId) (ds : List (Deed κ σ π α)) (d : Deed κ σ π α) :
    receipts id (ds ++ [d]) = receipts id ds ++ (d.receipt? id).toList := by
  rw [receipts, List.filterMap_append]
  cases hd : d.receipt? id <;> simp [hd, receipts]

end

namespace Mixer

variable {κ σ α β : Type} [Mixing κ σ π α β] {m : Mixer κ σ π} {id : SourceId}

/-! ### Sinks -/

/-- What is asked of a mixer is done to the sink of a source, whether it is registered or has left.
Only a source that comes has none before. -/
theorem sink?_act (hn : m.roster.ids.Nodup) {a : Action π α}
    (hid : id < m.roster.upcoming ∨ ¬ id < (m.act a).mixer.roster.upcoming) :
    (m.act a).mixer.roster.sink? id = (m.roster.sink? id).map fun s => a.adjust id s := by
  have hsame : m.roster.sink? id = (m.roster.sink? id).map fun s => s := by
    rw [Option.map_id']
  cases a with
  | join sink =>
      change _ ∨ ¬ id < (m.join (β := β) sink).mixer.roster.upcoming at hid
      show (m.join (β := β) sink).mixer.roster.sink? id = _
      rcases m.join_cases (β := β) sink with he | ⟨admission, _, _, he⟩
      · rw [he]
        exact hsame
      · rw [he] at hid ⊢
        have hne : id ≠ m.roster.upcoming := by
          rintro rfl
          rcases hid with hlt | hnew
          · exact SourceId.ne_of_lt hlt rfl
          · exact hnew m.roster.upcoming.lt_next
        exact (Roster.sink?_enrol hne sink admission.seat).trans hsame
  | leave i =>
      show (m.leave (β := β) i).mixer.roster.sink? id = _
      rcases m.leave_cases (β := β) i with ⟨_, he⟩ | ⟨_, he⟩
      · rw [he]
        exact hsame
      · rw [he]
        exact (Roster.sink?_strike hn i).trans hsame
  | receive i => exact m.roster.sink?_modifySink i id fun s => s.receive.2
  | hangUp i => exact m.roster.sink?_modifySink i id Sink.close
  | ask r => exact (m.roster.sink?_reseat _ id).trans hsame
  | advance t => exact hsame
  | stop => exact hsame

/-- What the receiver gets is what the action takes out of the mailbox. -/
theorem receipt?_of_sink? {name : String} {box : Mailbox π}
    (h : m.roster.sink? id = some (.mailbox name box)) (a : Action π α) :
    (⟨m, a⟩ : Deed κ σ π α).receipt? id = a.takes? id box := by
  cases a with
  | receive i =>
      by_cases hi : i = id
      · subst hi
        simp [Deed.receipt?, act, receive, h, Sink.receive, Action.takes?]
      · simp [Deed.receipt?, act, receive, hi, Action.takes?]
  | _ => rfl

theorem receipt?_of_none (h : m.roster.sink? id = none) (a : Action π α) :
    (⟨m, a⟩ : Deed κ σ π α).receipt? id = none := by
  cases a with
  | receive i =>
      by_cases hi : i = id
      · subst hi
        simp [Deed.receipt?, act, receive, h]
      · simp [Deed.receipt?, act, receive, hi]
  | _ => rfl

/-! ### Before a source comes -/

/-- Nothing has been offered to a source or received for it before it has its number. -/
structure Unheard (ds : List (Deed κ σ π α)) (l : Log π) (m : Mixer κ σ π) : Prop where
  numbered : m.floor.Numbered
  sink : ∀ i, ¬ i < m.roster.upcoming → m.roster.sink? i = none
  received : ∀ i, ¬ i < m.roster.upcoming → receipts i ds = []
  offers : ∀ i, ¬ i < m.roster.upcoming → l.offersTo i = []

theorem offersTo_eventsOnly (es : List Event) (i : SourceId) :
    (eventsOnly es : Log π).offersTo i = [] := rfl

theorem upcoming_act (m : Mixer κ σ π) (a : Action π α) {i : SourceId}
    (h : i < m.roster.upcoming) : i < (m.act a).mixer.roster.upcoming := by
  rcases m.entries_act_cases a with ⟨_, _, _, _, hup⟩ | ⟨_, _, _, hup⟩ | ⟨_, _, _, hup⟩
  · rw [hup]
    exact SourceId.lt_of_lt_of_lt h m.roster.upcoming.lt_next
  · rwa [hup]
  · rwa [hup]

theorem sink?_round_of_notMem [LawfulMixing κ] (h : id ∉ m.roster.ids) (t : Timeline) :
    (m.round t).1.roster.sink? id = m.roster.sink? id := by
  have hafter : id ∉ (m.round t).1.roster.ids := by rwa [ids_round]
  rw [Roster.sink?_of_notMem h, Roster.sink?_of_notMem hafter]
  rfl

theorem offersTo_round_of_notMem [LawfulMixing κ] (h : id ∉ m.roster.ids) (t : Timeline) :
    (m.round t).2.offersTo id = [] := by
  refine List.filter_eq_nil_iff.mpr fun o ho he => h ?_
  rw [← of_decide_eq_true he, ← (m.offers_round t).1]
  exact List.mem_map_of_mem ho

theorem Unheard.notMem {ds : List (Deed κ σ π α)} {l : Log π} (h : m.Unheard ds l)
    (hid : ¬ id < m.roster.upcoming) : id ∉ m.roster.ids :=
  fun hm => hid (h.numbered.handedOut id (m.ids_floor ▸ hm))

/-- What is asked before a source has its number is of no concern to its receiver. -/
theorem Unheard.act {ds : List (Deed κ σ π α)} {l : Log π} (h : m.Unheard ds l)
    (hid : ¬ id < m.roster.upcoming) (a : Action π α) :
    receipts id (ds ++ [⟨m, a⟩]) = [] ∧
      (l ++ eventsOnly (m.act a).events).offersTo id = [] := by
  constructor
  · rw [receipts_append, h.received id hid, receipt?_of_none (h.sink id hid)]
    rfl
  · rw [Log.offersTo_append, h.offers id hid, offersTo_eventsOnly, List.append_nil]

theorem unheard_upheld [LawfulMixing κ] :
    Upheld (fun _ : Action π α => True) fun ds l (m : Mixer κ σ π) => m.Unheard ds l where
  act {ds l m} a h _ := by
    have hnew : ∀ i, ¬ i < (m.act a).mixer.roster.upcoming → ¬ i < m.roster.upcoming :=
      fun i hi hlt => hi (m.upcoming_act a hlt)
    refine ⟨numbered_act h.numbered a, fun i hi => ?_, fun i hi => (h.act (hnew i hi) a).1,
      fun i hi => (h.act (hnew i hi) a).2⟩
    rw [sink?_act (nodup_ids h.numbered) (.inr hi), h.sink i (hnew i hi)]
    rfl
  timed _ h := ⟨h.numbered, h.sink, h.received, h.offers⟩
  round {ds l m} t h := by
    refine ⟨numbered_round h.numbered t, fun i hi => ?_, h.received, fun i hi => ?_⟩
    · exact (sink?_round_of_notMem (h.notMem hi) t).trans (h.sink i hi)
    · rw [Log.offersTo_append, h.offers i hi, offersTo_round_of_notMem (h.notMem hi),
        List.append_nil]

theorem unheard_create (room : κ) :
    (create room : Mixer κ σ π).Unheard ([] : List (Deed κ σ π α)) .empty :=
  ⟨numbered_create room, fun _ _ => rfl, fun _ _ => rfl, fun _ _ => rfl⟩

/-! ### While it is there, and afterwards -/

/-- A source has its mailbox, also when it has left. The mailbox has kept what it accepted, and the
source has been offered its payloads nowhere else. -/
structure Conveying (id : SourceId) (name : String) (capacity : Nat) (taken : List π) (l : Log π)
    (m : Mixer κ σ π) : Prop where
  numbered : m.floor.Numbered
  handedOut : id < m.roster.upcoming
  kept : ∃ box : Mailbox π, box.capacity = capacity ∧ box.Keeps taken (l.acceptedBy id) ∧
    m.roster.sink? id = some (.mailbox name box)
  offers : ∀ o ∈ l.offersTo id, o.sink = name ∧ o.response.OfMailbox

variable {name : String} {capacity : Nat} {ds : List (Deed κ σ π α)} {l : Log π}

/-- **Whatever is asked, no payload is lost.** -/
theorem Conveying.act [LawfulMixing κ] (h : m.Conveying id name capacity (receipts id ds) l)
    (a : Action π α) :
    (m.act a).mixer.Conveying id name capacity (receipts id (ds ++ [⟨m, a⟩]))
      (l ++ eventsOnly (m.act a).events) := by
  obtain ⟨box, hcapacity, hkeeps, hsink⟩ := h.kept
  have hoffers : (l ++ eventsOnly (m.act a).events).offersTo id = l.offersTo id := by
    rw [Log.offersTo_append, offersTo_eventsOnly, List.append_nil]
  refine ⟨numbered_act h.numbered a, m.upcoming_act a h.handedOut, ⟨a.treat id box, ?_, ?_, ?_⟩, ?_⟩
  · rw [Action.capacity_treat, hcapacity]
  · rw [receipts_append, receipt?_of_sink? hsink, Log.acceptedBy, hoffers]
    exact Action.keeps_treat hkeeps id a
  · rw [sink?_act (nodup_ids h.numbered) (.inl h.handedOut), hsink, Option.map_some,
      Action.adjust_mailbox]
  · rw [hoffers]
    exact h.offers

/-- In a round, a registered source is offered one payload. -/
theorem offersTo_round [LawfulMixing κ] {sink : Sink π} (h : m.floor.Numbered)
    (hm : (id, sink) ∈ m.roster.sinks) (t : Timeline) :
    ∃ p, (m.round t).2.offersTo id = [Roster.offered (id, sink) p] ∧
      Roster.written (id, sink) p ∈ (m.round t).1.roster.sinks := by
  obtain ⟨hoffers, hsinks⟩ := m.written_round t
  have hlength : (Mixing.mix m.room (t.due - t.start) m.roster.seated).payloads.length =
      m.roster.sinks.length := by
    rw [LawfulMixing.length_payloads_mix, Roster.seated, Roster.sinks, List.length_map,
      List.length_map]
  obtain ⟨p, hoffered, hwritten⟩ := Roster.written_to hlength hm
  rw [← hoffers] at hoffered
  rw [← hsinks] at hwritten
  refine ⟨p, ?_, hwritten⟩
  have hn : ((m.round t).2.offers.map Offer.source).Nodup := by
    rw [(m.offers_round t).1]
    exact nodup_ids h
  exact filter_key_of_nodup hn hoffered

/-- **What is accepted in a round is queued, and what is not is refused.** -/
theorem Conveying.round [LawfulMixing κ] {taken : List π}
    (h : m.Conveying id name capacity taken l) (t : Timeline) :
    (m.round t).1.Conveying id name capacity taken (l ++ (m.round t).2) := by
  obtain ⟨box, hcapacity, hkeeps, hsink⟩ := h.kept
  have hnumbered := numbered_round h.numbered t
  by_cases hid : id ∈ m.roster.ids
  · obtain ⟨p, hoffers, hwritten⟩ :=
      offersTo_round h.numbered (Roster.mem_sinks_of_sink? hid hsink) t
    obtain ⟨box', hbox, hcapacity', hkeeps', hresponse⟩ := hkeeps.write id name p
    have haccepted : (m.round t).2.acceptedBy id =
        (Roster.offered (id, .mailbox name box) p).accepted?.toList := by
      rw [Log.acceptedBy, hoffers]
      cases ho : (Roster.offered (id, .mailbox name box) p).accepted? <;> simp [ho]
    refine ⟨hnumbered, h.handedOut, ⟨box', hcapacity'.trans hcapacity, ?_, ?_⟩, fun o ho => ?_⟩
    · rw [Log.acceptedBy_append, haccepted]
      exact hkeeps'
    · exact Roster.sink?_of_mem_sinks (nodup_ids hnumbered) (hbox ▸ hwritten)
    · rw [Log.offersTo_append, hoffers] at ho
      rcases List.mem_append.mp ho with ho | ho
      · exact h.offers o ho
      · rw [List.mem_singleton.mp ho]
        exact ⟨rfl, hresponse⟩
  · have hnone := offersTo_round_of_notMem hid t
    refine ⟨hnumbered, h.handedOut,
      ⟨box, hcapacity, ?_, (sink?_round_of_notMem hid t).trans hsink⟩, ?_⟩
    · rw [Log.acceptedBy_append, Log.acceptedBy, Log.acceptedBy, hnone]
      exact (List.append_nil _).symm ▸ hkeeps
    · rw [Log.offersTo_append, hnone, List.append_nil]
      exact h.offers

theorem conveying_upheld [LawfulMixing κ] (id : SourceId) (name : String) (capacity : Nat) :
    Upheld (fun _ : Action π α => True) fun ds l (m : Mixer κ σ π) =>
      m.Conveying id name capacity (receipts id ds) l where
  act a h _ := h.act a
  timed _ h := ⟨h.numbered, h.handedOut, h.kept, h.offers⟩
  round t h := h.round t

end Mixer

/-! ### What is offered and what is reported -/

/-- The payload that a round yields for a source, if the source is registered. -/
def Tick.payload? {κ σ α β : Type} [Mixing κ σ π α β] (id : SourceId) (t : Tick κ σ π α) :
    Option π :=
  ((t.sources.zip t.yield.payloads).find? fun x => x.1 = id).map Prod.snd

/-- A source that is registered at a round is offered the payload that the round yields for it,
once, and no other source is. -/
theorem Tick.offersTo_log {κ σ α β : Type} [Mixing κ σ π α β] [LawfulMixing κ]
    {t : Tick κ σ π α} (h : t.mixer.floor.Numbered) (id : SourceId) :
    (t.log.offersTo id).map Offer.payload = (t.payload? id).toList := by
  have hsources : t.log.offers.map Offer.source = t.sources :=
    (t.mixer.offers_round t.timeline).1
  have hpairs : t.log.offers.map (fun o => (o.source, o.payload)) =
      t.sources.zip t.yield.payloads := t.mixer.offered_round t.timeline
  have hn : (t.log.offers.map Offer.source).Nodup := hsources ▸ Mixer.nodup_ids h
  by_cases hid : id ∈ t.sources
  · obtain ⟨o, ho, rfl⟩ : ∃ o ∈ t.log.offers, o.source = id :=
      List.mem_map.mp (hsources.symm ▸ hid)
    have hkeys : ((t.sources.zip t.yield.payloads).map Prod.fst).Nodup := by
      rw [← hpairs, List.map_map]
      exact hn
    have hmem : (o.source, o.payload) ∈ t.sources.zip t.yield.payloads := by
      rw [← hpairs]
      exact List.mem_map_of_mem ho
    rw [Log.offersTo, filter_key_of_nodup hn ho, Tick.payload?, find?_of_nodup_keys hkeys hmem]
    rfl
  · have hnone : (t.sources.zip t.yield.payloads).find? (fun x => x.1 = id) = none := by
      refine List.find?_eq_none.mpr fun x hx he => hid ?_
      exact of_decide_eq_true he ▸ (List.of_mem_zip hx).1
    rw [Tick.payload?, hnone]
    exact congrArg (List.map Offer.payload) (Mixer.offersTo_round_of_notMem hid t.timeline)

/-- The reports about a source's sink are those of the payloads that the sink did not take. -/
theorem Mixer.Faulted.events_of {κ σ : Type} {l : Log π} {m : Mixer κ σ π} (h : m.Faulted l)
    (id : SourceId) : l.events.filter (fun e => e.source? = some id && e.isSinkFault) =
      (l.offersTo id).filterMap Offer.event? := by
  have hone : ∀ o : Offer π, o.event?.filter (fun e => e.source? = some id) =
      if decide (o.source = id) then o.event? else none := by
    intro o
    unfold Offer.event?
    cases o.response.fault with
    | none => simp
    | some f => simp [Event.source?, Option.filter]
  rw [← List.filter_filter, h.events, List.filter_filterMap, Log.offersTo, List.filterMap_filter]
  exact congrArg (List.filterMap · l.offers) (funext hone)

namespace Mixer

variable {κ σ α β : Type} [Mixing κ σ π α β] [LawfulMixing κ]

/-- The mixers that go into the rounds of moves are numbered like the first. -/
theorem numbered_of_mem_ticksOf {asked : List (Asked α)} {m : Mixer κ σ π}
    (h : m.floor.Numbered) {vs : List (Move π α)} {t : Tick κ σ π α}
    (ht : t ∈ m.ticksOf asked vs) : t.mixer.floor.Numbered := by
  induction vs generalizing asked m with
  | nil => cases ht
  | cons v vs ih =>
      cases v with
      | act a => exact ih (numbered_act h a) ht
      | look =>
          rcases m.dueTick?_cases asked with ⟨hn, timeline, he⟩ | ⟨u, hu, he⟩
          · rw [ticksOf, hn, he] at ht
            exact ih (m := { m with timeline }) h ht
          · rw [ticksOf, hu, he] at ht
            rcases List.mem_cons.mp ht with rfl | hm
            · exact h
            · exact ih (numbered_round h u) hm

/-- What is offered to a source is what its rounds yield for it. -/
theorem offersTo_follow {m : Mixer κ σ π} (h : m.floor.Numbered) (asked : List (Asked α))
    (vs : List (Move π α)) (id : SourceId) : ((m.follow vs).2.offersTo id).map Offer.payload =
      (m.ticksOf asked vs).filterMap (Tick.payload? id) := by
  rw [Log.offersTo, (m.log_follow asked vs).2, List.filter_flatMap, List.map_flatMap,
    List.filterMap_eq_flatMap_toList, List.flatMap_def, List.flatMap_def]
  refine congrArg List.flatten (List.map_congr_left fun t ht => ?_)
  exact Tick.offersTo_log (numbered_of_mem_ticksOf h ht) id

/-- Nothing gets lost silently on its way from a mixer to the receiver for a source.

The source has come in the course of the moves with an empty mailbox of the given name and capacity,
and may have left. What has been offered to it is what its rounds have yielded for it. The mailbox is
at hand, with no more than it can hold; as long as the receiver is there, the payloads that it has
got so far and those that are queued are together, in this order, those that were not refused. The
next payload that the receiver gets is the first of the queue, and the next one that is offered will
be refused exactly if the mailbox is full or closed. No payload has been refused for another reason,
and each of those that were is reported once, in that order, and counted. -/
structure Conveys (m : Mixer κ σ π) (vs : List (Move π α)) (id : SourceId) (name : String)
    (capacity : Nat) : Prop where
  offered : ((m.follow vs).2.offersTo id).map Offer.payload =
    (m.ticksOf [] vs).filterMap (Tick.payload? id)
  kept : ∃ box, (m.follow vs).1.roster.box? id = some box ∧ box.capacity = capacity ∧
    box.Keeps (receipts id (m.deedsOf vs)) ((m.follow vs).2.acceptedBy id) ∧
    ((m.follow vs).1.act (.receive id)).reply = .received box.receive.1 ∧
    ∀ o ∈ (m.follow vs).1.poll.2.offersTo id, o.response.fault = box.refusal?
  refused : ∀ o ∈ (m.follow vs).2.offersTo id, o.sink = name ∧ ∀ f, o.response.fault = some f →
    f.message = "channel full" ∨ f.message = "channel closed"
  reported : (m.follow vs).2.events.filter (fun e => e.source? = some id && e.isSinkFault) =
    ((m.follow vs).2.offersTo id).filterMap Offer.event?
  counted : (m.follow vs).1.tally.sinkFaults =
    ((m.follow vs).2.events.filter Event.isSinkFault).length

/-- Whatever moves come before and after a source with an empty mailbox, nothing gets lost silently
on its way to the receiver. -/
def LosesNothing (m : Mixer κ σ π) : Prop :=
  ∀ (before after : List (Move π α)) (name : String) (box : Mailbox π) (id : SourceId),
    box.queue = [] → ((m.follow before).1.act (.join (.mailbox name box))).reply = .joined id →
      m.Conveys (before ++ .act (.join (.mailbox name box)) :: after) id name box.capacity

omit [LawfulMixing κ] in
/-- A source that has just come has its mailbox at its sink. -/
theorem place_join {m : Mixer κ σ π} {sink : Sink π} {id : SourceId}
    (h : (m.act (.join sink)).reply = .joined id) :
    id = m.roster.upcoming ∧ (id, sink) ∈ (m.act (.join sink)).mixer.roster.sinks := by
  unfold act at h ⊢
  dsimp only at h ⊢
  rcases m.join_eq_cases (β := β) sink with ⟨fault, he, _⟩ | ⟨admission, _, _, he⟩
  · rw [he] at h
    cases h
  · rw [he] at h ⊢
    cases h
    refine ⟨rfl, ?_⟩
    rw [Roster.sinks, Roster.enrol, List.map_append]
    exact List.mem_append_right _ (List.mem_singleton_self _)

/-- With an empty mailbox a source starts to be conveyed to. -/
theorem Unheard.conveying {m : Mixer κ σ π} {ds : List (Deed κ σ π α)} {l : Log π}
    (h : m.Unheard ds l) {name : String} {box : Mailbox π} (hempty : box.queue = [])
    {id : SourceId} (hj : (m.act (.join (.mailbox name box))).reply = .joined id) :
    (m.act (.join (.mailbox name box))).mixer.Conveying id name box.capacity
      (receipts id (ds ++ [⟨m, .join (.mailbox name box)⟩]))
      (l ++ eventsOnly (m.act (.join (.mailbox name box))).events) := by
  obtain ⟨rfl, hplace⟩ := place_join hj
  obtain ⟨hreceipts, hoffers⟩ :=
    h.act (fun hlt => SourceId.ne_of_lt hlt rfl) (.join (.mailbox name box))
  have hnumbered := numbered_act h.numbered (.join (.mailbox name box) : Action π α)
  have hid := Roster.map_fst_sinks _ ▸ List.mem_map_of_mem (f := Prod.fst) hplace
  refine ⟨hnumbered, hnumbered.handedOut _ ((ids_floor _).symm ▸ hid),
    ⟨box, rfl, ?_, Roster.sink?_of_mem_sinks (nodup_ids hnumbered) hplace⟩, ?_⟩
  · rw [hreceipts, Log.acceptedBy, hoffers]
    exact Mailbox.keeps_of_empty hempty
  · rw [hoffers]
    exact nofun

omit [LawfulMixing κ] in
/-- The receiver gets the payload in front. -/
theorem reply_receive {m : Mixer κ σ π} {id : SourceId} {name : String} {box : Mailbox π}
    (h : m.roster.sink? id = some (.mailbox name box)) :
    (m.act (.receive id)).reply = .received box.receive.1 := by
  simp only [Mixer.act, Mixer.receive, h, Option.bind_some, Sink.receive]

/-- A look at the clock offers the source a payload that is refused exactly when the mailbox is full
or closed. -/
theorem fault_poll {m : Mixer κ σ π} (h : m.floor.Numbered) {id : SourceId} {name : String}
    {box : Mailbox π} (hb : box.queue.length ≤ box.capacity)
    (hsink : m.roster.sink? id = some (.mailbox name box)) :
    ∀ o ∈ m.poll.2.offersTo id, o.response.fault = box.refusal? := by
  intro o ho
  rcases m.poll_cases with ⟨timeline, he⟩ | ⟨t, _, _, _, he⟩
  · rw [he] at ho
    cases ho
  · rw [he] at ho
    by_cases hid : id ∈ m.roster.ids
    · obtain ⟨p, hoffers, _⟩ := offersTo_round (m := { m with timeline := some t }) h
        (Roster.mem_sinks_of_sink? hid hsink) t
      rw [hoffers] at ho
      rw [List.mem_singleton.mp ho]
      exact box.fault_offered hb id name p
    · rw [offersTo_round_of_notMem (m := { m with timeline := some t }) hid t] at ho
      cases ho

theorem conveys_of_conveying [DiscreetMixing κ] {room : κ} {vs : List (Move π α)} {id : SourceId}
    {name : String} {capacity : Nat}
    (h : ((create room : Mixer κ σ π).follow vs).1.Conveying id name capacity
      (receipts id ((create room : Mixer κ σ π).deedsOf vs))
      ((create room : Mixer κ σ π).follow vs).2) :
    (create room : Mixer κ σ π).Conveys vs id name capacity := by
  have hfaulted : ((create room : Mixer κ σ π).follow vs).1.Faulted
      ((create room : Mixer κ σ π).follow vs).2 :=
    faulted_upheld.follow (P := fun _ l m => m.Faulted l) (d := []) (l := .empty) ⟨rfl, rfl⟩
      fun _ _ => trivial
  obtain ⟨box, hcapacity, hkeeps, hsink⟩ := h.kept
  refine ⟨offersTo_follow (numbered_create room) [] vs id, ⟨box, ?_, hcapacity, hkeeps,
    reply_receive hsink, fault_poll h.numbered hkeeps.bounded hsink⟩, fun o ho => ?_,
    hfaulted.events_of id, ?_⟩
  · rw [Roster.box?, hsink]
    rfl
  · exact ⟨(h.offers o ho).1, fun f => (h.offers o ho).2.message⟩
  · rw [hfaulted.tally, hfaulted.events]

/-- **Nothing gets lost silently on its way to a receiver.** -/
theorem losesNothing_create [DiscreetMixing κ] (room : κ) :
    (create room : Mixer κ σ π).LosesNothing := by
  intro before after name box id hempty hjoined
  let m₀ : Mixer κ σ π := create room
  have hunheard : (m₀.follow before).1.Unheard (m₀.deedsOf before) (m₀.follow before).2 :=
    unheard_upheld.follow (l := .empty) (unheard_create room) fun _ _ => trivial
  have hend := (conveying_upheld id name box.capacity).follow (hunheard.conveying hempty hjoined)
    fun a (_ : .act a ∈ after) => trivial
  refine conveys_of_conveying ?_
  rw [deedsOf_append, follow_append, follow_cons]
  rw [List.append_assoc, Log.append_assoc] at hend
  exact hend

end Mixer

end ConferenceMix
