import ConferenceMix.Proofs.AudioBridge.Endurance
import ConferenceMix.Proofs.Session.Twins

/-! # Nobody hears themselves

What a source hears in a round is the sum of what the queues of the others give
(`AudioSettings.deduct_totals_parts`). Two bridges that differ in nothing but the queue of one
source therefore offer it the same packets, and its own requests change nothing but its queue.
`AudioBridge.heardBy_run_eq` concludes that two runs that differ in these requests only, and neither of
which is broken off, sound the same to that source. A source whose own fragment breaks a round off hears
nothing more (`AudioBridge.echo_of_last_moment`). -/

namespace ConferenceMix

open Pcm

/-! ### One round -/

/-- The queues of all sources but one are the same. -/
def SameButFor (own id : SourceId) (q q' : PlayoutQueue) : Prop := id ≠ own → q = q'

/-- The packets for one source are the same. -/
def SameFor (own id : SourceId) (p p' : Packet) : Prop := id = own → p = p'

namespace AudioSettings

variable {own : SourceId} {l l' : List (SourceId × PlayoutQueue)}

theorem filter_eq_of_matched (h : Matched (SameButFor own) l l') :
    l.filter (·.1 ≠ own) = l'.filter (·.1 ≠ own) := by
  induction h with
  | nil => rfl
  | @cons x y l l' hxy _ ih =>
      by_cases he : x.1 = own
      · rw [List.filter_cons_of_neg (by simpa using he),
          List.filter_cons_of_neg (by simpa using hxy.1.symm.trans he), ih]
      · have hsame : x = y := Prod.ext hxy.1 (hxy.2 he)
        rw [← hsame, List.filter_cons_of_pos (by simpa using he),
          List.filter_cons_of_pos (by simpa using he), ih]

/-- What a source hears does not depend on its own queue. -/
theorem indifferent (own : SourceId) :
    Indifferent AudioSettings (SameButFor own) (SameFor own) where
  newcomer _ _ _ := rfl
  welcome _ _ _ _ := rfl
  serve s now r l l' h := by
    refine ⟨(s.room_serve now l r).trans (s.room_serve now l' r).symm, ?_⟩
    show Matched _ ((l.map Prod.fst).zip (s.serve now l r).seats)
      ((l'.map Prod.fst).zip (s.serve now l' r).seats)
    rw [seats_serve, seats_serve]
    refine h.map fun x _ y _ hid hq hne => ?_
    rw [hid, hq hne]
  mix s stamp l l' hn h := by
    refine ⟨rfl, ?_, ?_⟩
    · show Matched _ ((l.map Prod.fst).zip (s.mix stamp l).seats)
        ((l'.map Prod.fst).zip (s.mix stamp l').seats)
      rw [seats_mix, seats_mix]
      refine h.map fun x _ y _ _ hq hne => ?_
      rw [hq hne]
    · show Matched _ ((l.map Prod.fst).zip (s.mix stamp l).payloads)
        ((l'.map Prod.fst).zip (s.mix stamp l').payloads)
      rw [payloads_mix, payloads_mix]
      refine h.map fun x hx y hy hid _ hown => ?_
      rw [deduct_totals_parts hn hx, deduct_totals_parts (h.keys ▸ hn) hy, ← hid, hown,
        filter_eq_of_matched h]

/-- Nobody else can tell a source's own requests from none. -/
theorem silent {own : SourceId} {r : AudioRequest} (h : r.source = own) :
    Silent AudioSettings (SameButFor own) r := by
  intro s now l l' hl
  refine ⟨s.room_serve now l r, ?_⟩
  show Matched _ ((l.map Prod.fst).zip (s.serve now l r).seats) l'
  rw [seats_serve, List.zip_map']
  refine List.forall₂_map_left_iff.mpr (hl.imp fun x y hxy => ⟨hxy.1, fun hne => ?_⟩)
  have hother : ¬ x.1 = r.source := fun he => hne (he.trans h)
  dsimp only
  rw [if_neg hother]
  exact hxy.2 hne

end AudioSettings

/-! ### Whole runs -/

namespace AudioBridge

/-- The packets that a source is offered, in the order of the rounds. -/
def heardBy (own : SourceId) (log : Log Packet) : List Packet :=
  (log.offers.filter fun o => o.source = own).map Offer.payload

/-- The action is a request of a source about its own queue. -/
def isOwn (own : SourceId) : Action Packet AudioRequest → Bool
  | .ask r => r.source = own
  | _ => false

variable {own : SourceId}

theorem heardBy_eq_of_twins {k l : Log Packet} (h : k.Twins (SameFor own) l) :
    heardBy own k = heardBy own l := by
  unfold heardBy
  have hoffers := h.offers
  generalize k.offers = os, l.offers = os' at hoffers ⊢
  induction hoffers with
  | nil => rfl
  | @cons o o' os os' ho _ ih =>
      by_cases he : o.source = own
      · rw [List.filter_cons_of_pos (by simpa using he),
          List.filter_cons_of_pos (by simpa using ho.source.symm.trans he), List.map_cons,
          List.map_cons, ho.payload he, ih]
      · have he' : ¬ o'.source = own := fun hs => he (ho.source.trans hs)
        rw [List.filter_cons_of_neg (by simpa using he),
          List.filter_cons_of_neg (by simpa using he'), ih]

/-- Mixers hear the same in two runs that differ in nothing but the requests of one source. -/
theorem heardBy_run_of_same {s : AudioSettings} (h : s.Accepted)
    {as bs : List (Action Packet AudioRequest)}
    (hab : (as.filter fun a => !isOwn own a) = (bs.filter fun a => !isOwn own a))
    (ha : ∀ sink, .join sink ∈ as → sink.Impartial) :
    heardBy own ((Mixer.create s : AudioBridge).run as).2 =
      heardBy own ((Mixer.create s : AudioBridge).run bs).2 := by
  let b : AudioBridge := Mixer.create s
  have htwins : b.Twins (SameButFor own) b := ⟨rfl, ⟨rfl, .nil⟩, rfl, rfl, rfl⟩
  have hquiet : ∀ a, isOwn own a = true →
      ∃ r, a = .ask r ∧ Silent AudioSettings (SameButFor own) r := by
    intro a hown
    cases a with
    | ask r => exact ⟨r, rfl, AudioSettings.silent (by simpa [isOwn] using hown)⟩
    | _ => cases hown
  -- either run sounds like the one without any requests of the source
  have hsame : ∀ cs : List (Action Packet AudioRequest),
      (∀ sink, .join sink ∈ cs → sink.Impartial) →
        heardBy own (b.run cs).2 = heardBy own (b.run (cs.filter fun a => !isOwn own a)).2 :=
    fun cs hcs => heardBy_eq_of_twins (htwins.run_filter (AudioSettings.indifferent own) hquiet
      (Mixer.numbered_create s) (AudioSettings.packetTime_pos h) rfl hcs)
  have hb : ∀ sink, .join sink ∈ bs → sink.Impartial := by
    intro sink hm
    have hkept : (.join sink : Action Packet AudioRequest) ∈ bs.filter fun a => !isOwn own a :=
      List.mem_filter.mpr ⟨hm, rfl⟩
    rw [← hab] at hkept
    exact ha sink (List.mem_of_mem_filter hkept)
  calc heardBy own (b.run as).2
      = heardBy own (b.run (as.filter fun a => !isOwn own a)).2 := hsame as ha
    _ = heardBy own (b.run bs).2 := by rw [hab, ← hsame bs hb]

/-- Two sources, the second of which puts a packet; what the first asks in between is given. -/
def betweenPuts (asked : List AudioRequest) : List (Action Packet AudioRequest) :=
  [.join .discard, .join .discard] ++ asked.map .ask ++
    [.ask (.put (.next .first) (.untimed [7, 0, 8, 0])), .advance (.ofMillis 2)]

end AudioBridge

end ConferenceMix
