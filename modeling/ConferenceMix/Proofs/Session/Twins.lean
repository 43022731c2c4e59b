import ConferenceMix.Proofs.Session.Cadence
import Mathlib.Data.List.Forall2

/-! # Two mixers side by side

Two mixers are `Twins` when they agree in everything but what they keep for the sources, which is
related source by source, and what has been written to the sinks. A kind of mixing is `Indifferent`
when what is so related makes no difference to it, except for payloads that are related in turn.
Twins then remain twins whatever both of them are asked (`Mixer.Twins.step`), and also when only
one of them is asked something `Silent`, which changes no more than what need only be related
(`Mixer.Twins.step_silent`). `Mixer.Twins.run_filter` concludes that silent requests can be left out
of a run. -/

namespace ConferenceMix

/-! ### Sinks -/

namespace Sink

variable {π : Type}

/-- Whether the sink stops the mixer does not depend on what it is offered. -/
def Impartial : Sink π → Prop
  | rule _ _ respond => ∀ n p p', (respond n p).stops = (respond n p').stops
  | mailbox .. => True

/-- The sinks stop the mixer in the same writes, whatever each is offered. -/
inductive Twins : Sink π → Sink π → Prop
  | rule {name name' writes respond respond'}
      (h : ∀ n p p', (respond n p).stops = (respond' n p').stops) :
      Twins (.rule name writes respond) (.rule name' writes respond')
  | mailbox {name name' box box'} : Twins (.mailbox name box) (.mailbox name' box')

theorem Impartial.twins {s : Sink π} (h : s.Impartial) : s.Twins s := by
  cases s with
  | rule => exact .rule h
  | mailbox => exact .mailbox

variable {s s' : Sink π}

/-- Writing to a mailbox does not stop the mixer. -/
theorem write_mailbox (name : String) (box : Mailbox π) (p : π) :
    ∃ box', ((mailbox name box).write p).1 = mailbox name box' ∧
      ((mailbox name box).write p).2.stops = false := by
  cases hb : box.send p with
  | ok box' => exact ⟨box', by simp [write, hb], by simp [write, hb, Response.taken]⟩
  | error f => exact ⟨box, by simp [write, hb], by simp [write, hb, Response.refused]⟩

theorem Twins.write (h : s.Twins s') (p p' : π) :
    (s.write p).1.Twins (s'.write p').1 ∧ (s.write p).2.stops = (s'.write p').2.stops := by
  cases h with
  | rule h => exact ⟨.rule h, h _ _ _⟩
  | @mailbox name name' box box' =>
      obtain ⟨_, hsink, hstops⟩ := write_mailbox name box p
      obtain ⟨_, hsink', hstops'⟩ := write_mailbox name' box' p'
      rw [hsink, hsink', hstops, hstops']
      exact ⟨.mailbox, rfl⟩

theorem Twins.receive (h : s.Twins s') : s.receive.2.Twins s'.receive.2 := by
  cases h with
  | rule h => exact .rule h
  | mailbox => exact .mailbox

theorem Twins.close (h : s.Twins s') : s.close.Twins s'.close := by
  cases h with
  | rule h => exact .rule h
  | mailbox => exact .mailbox

end Sink

/-! ### Sources -/

/-- The lists have the same keys in the same order, and what goes with them is related key by
key. -/
abbrev Matched {τ : Type} (R : SourceId → τ → τ → Prop) :
    List (SourceId × τ) → List (SourceId × τ) → Prop :=
  List.Forall₂ fun x y => x.1 = y.1 ∧ R x.1 x.2 y.2

theorem Matched.keys {τ : Type} {R : SourceId → τ → τ → Prop} {l l' : List (SourceId × τ)}
    (h : Matched R l l') : l.map Prod.fst = l'.map Prod.fst := by
  have hkeys : List.Forall₂ (· = ·) (l.map Prod.fst) (l'.map Prod.fst) :=
    List.forall₂_map_left_iff.mpr (List.forall₂_map_right_iff.mpr (h.imp fun _ _ hxy => hxy.1))
  rwa [List.forall₂_eq_eq_eq] at hkeys

theorem Matched.map {τ υ : Type} {R : SourceId → τ → τ → Prop} {R' : SourceId → υ → υ → Prop}
    {l l' : List (SourceId × τ)} (h : Matched R l l') {f f' : SourceId × τ → υ}
    (hf : ∀ x ∈ l, ∀ y ∈ l', x.1 = y.1 → R x.1 x.2 y.2 → R' x.1 (f x) (f' y)) :
    Matched R' ((l.map Prod.fst).zip (l.map f)) ((l'.map Prod.fst).zip (l'.map f')) := by
  rw [List.zip_map', List.zip_map']
  induction h with
  | nil => exact .nil
  | cons hxy _ ih =>
      refine .cons ⟨hxy.1, hf _ (List.mem_cons_self ..) _ (List.mem_cons_self ..) hxy.1 hxy.2⟩ ?_
      exact ih fun x hx y hy => hf x (List.mem_cons_of_mem _ hx) y (List.mem_cons_of_mem _ hy)

variable {κ σ π α β : Type} {S : SourceId → σ → σ → Prop} {P : SourceId → π → π → Prop}

/-- The same source with sinks that are twins and related seats. -/
structure Member.Twins (S : SourceId → σ → σ → Prop) (x y : Member σ π) : Prop where
  id : x.id = y.id
  sink : x.sink.Twins y.sink
  seat : S x.id x.seat y.seat

/-- Offers of related payloads to the same source, that stop the mixer or do not. -/
structure Offer.Twins (P : SourceId → π → π → Prop) (o o' : Offer π) : Prop where
  source : o.source = o'.source
  payload : P o.source o.payload o'.payload
  stops : o.response.stops = o'.response.stops

/-! ### What is done to the sources -/

section Members

variable {ms ms' : List (Member σ π)}

theorem twins_eraseP (h : List.Forall₂ (Member.Twins S) ms ms') (id : SourceId) :
    List.Forall₂ (Member.Twins S) (ms.eraseP fun m => m.id = id)
      (ms'.eraseP fun m => m.id = id) := by
  induction h with
  | nil => exact .nil
  | @cons x y ms ms' hxy hms ih =>
      by_cases he : x.id = id
      · have he' : y.id = id := hxy.id.symm.trans he
        rw [List.eraseP_cons_of_pos (by simpa using he),
          List.eraseP_cons_of_pos (by simpa using he')]
        exact hms
      · have he' : ¬ y.id = id := fun hy => he (hxy.id.trans hy)
        rw [List.eraseP_cons_of_neg (by simpa using he),
          List.eraseP_cons_of_neg (by simpa using he')]
        exact .cons hxy ih

theorem twins_assign (h : List.Forall₂ (Member.Twins S) ms ms') {seats seats' : List σ}
    (hs : Matched S ((ms.map Member.id).zip seats) ((ms'.map Member.id).zip seats')) :
    List.Forall₂ (Member.Twins S) (Roster.assign ms seats) (Roster.assign ms' seats') := by
  induction h generalizing seats seats' with
  | nil =>
      rw [show Roster.assign [] seats = ([] : List (Member σ π)) by cases seats <;> rfl,
        show Roster.assign [] seats' = ([] : List (Member σ π)) by cases seats' <;> rfl]
      exact .nil
  | @cons x y ms ms' hxy hms ih =>
      cases seats with
      | nil =>
          cases seats' with
          | nil => exact .cons hxy hms
          | cons => cases hs
      | cons =>
          cases seats' with
          | nil => cases hs
          | cons =>
              obtain ⟨hseat, hseats⟩ := List.forall₂_cons.mp hs
              exact .cons ⟨hxy.id, hxy.sink, hseat.2⟩ (ih hseats)

theorem twins_offerAll (h : List.Forall₂ (Member.Twins S) ms ms') {ps ps' : List π}
    (hp : Matched P ((ms.map Member.id).zip ps) ((ms'.map Member.id).zip ps')) :
    List.Forall₂ (Member.Twins S) (Roster.offerAll ms ps).1 (Roster.offerAll ms' ps').1 ∧
      List.Forall₂ (Offer.Twins P) (Roster.offerAll ms ps).2 (Roster.offerAll ms' ps').2 := by
  induction h generalizing ps ps' with
  | nil => exact ⟨.nil, .nil⟩
  | @cons x y ms ms' hxy hms ih =>
      cases ps with
      | nil =>
          cases ps' with
          | nil => exact ⟨.cons hxy hms, .nil⟩
          | cons => cases hp
      | cons p ps =>
          cases ps' with
          | nil => cases hp
          | cons p' ps' =>
              obtain ⟨hpayload, hrest⟩ := List.forall₂_cons.mp hp
              obtain ⟨hmembers, hoffers⟩ := ih hrest
              obtain ⟨hsink, hstops⟩ := hxy.sink.write p p'
              exact ⟨.cons ⟨hxy.id, hsink, hxy.seat⟩ hmembers,
                .cons ⟨hxy.id, hpayload.2, hstops⟩ hoffers⟩

end Members

namespace Roster

/-- The same sources in the same order, each with sinks that are twins and related seats. -/
structure Twins (S : SourceId → σ → σ → Prop) (r r' : Roster σ π) : Prop where
  upcoming : r.upcoming = r'.upcoming
  members : List.Forall₂ (Member.Twins S) r.members r'.members

variable {r r' : Roster σ π}

theorem Twins.seated (h : r.Twins S r') : Matched S r.seated r'.seated := by
  refine List.forall₂_map_left_iff.mpr (List.forall₂_map_right_iff.mpr ?_)
  exact h.members.imp fun _ _ hm => ⟨hm.id, hm.seat⟩

theorem Twins.enrol (h : r.Twins S r') {sink : Sink π} (hs : sink.Impartial) {seat seat' : σ}
    (hseat : ∀ id, S id seat seat') : (r.enrol sink seat).Twins S (r'.enrol sink seat') where
  upcoming := congrArg SourceId.next h.upcoming
  members := List.rel_append h.members (.cons ⟨h.upcoming, hs.twins, hseat _⟩ .nil)

theorem Twins.strike (h : r.Twins S r') (id : SourceId) :
    (r.strike id).Twins S (r'.strike id) :=
  ⟨h.upcoming, twins_eraseP h.members id⟩

theorem Twins.modifySink (h : r.Twins S r') (id : SourceId) {f : Sink π → Sink π}
    (hf : ∀ s s' : Sink π, s.Twins s' → (f s).Twins (f s')) :
    (r.modifySink id f).Twins S (r'.modifySink id f) where
  upcoming := h.upcoming
  members := by
    refine List.forall₂_map_left_iff.mpr (List.forall₂_map_right_iff.mpr ?_)
    refine h.members.imp fun x y hxy => ?_
    by_cases he : x.id = id
    · rw [if_pos he, if_pos (hxy.id.symm.trans he)]
      exact ⟨hxy.id, hf _ _ hxy.sink, hxy.seat⟩
    · rw [if_neg he, if_neg fun hy => he (hxy.id.trans hy)]
      exact hxy

theorem Twins.reseat (h : r.Twins S r') {seats seats' : List σ}
    (hs : Matched S (r.ids.zip seats) (r'.ids.zip seats')) :
    (r.reseat seats).Twins S (r'.reseat seats') :=
  ⟨h.upcoming, twins_assign h.members hs⟩

theorem zip_ids_seats (r : Roster σ π) : r.ids.zip r.seats = r.seated := List.zip_map'

/-- Sources that are given the seats they have keep them. -/
theorem reseat_seats (r : Roster σ π) : r.reseat r.seats = r := by
  have hassign : ∀ ms : List (Member σ π), assign ms (ms.map Member.seat) = ms := by
    intro ms
    induction ms with
    | nil => rfl
    | cons m ms ih => exact congrArg (m :: ·) ih
  exact congrArg (fun ms => { r with members := ms }) (hassign r.members)

theorem Twins.deliver (h : r.Twins S r') {ps ps' : List π}
    (hp : Matched P (r.ids.zip ps) (r'.ids.zip ps')) :
    (r.deliver ps).1.Twins S (r'.deliver ps').1 ∧
      List.Forall₂ (Offer.Twins P) (r.deliver ps).2 (r'.deliver ps').2 := by
  obtain ⟨hmembers, hoffers⟩ := twins_offerAll h.members hp
  exact ⟨⟨h.upcoming, hmembers⟩, hoffers⟩

theorem Twins.ids (h : r.Twins S r') : r.ids = r'.ids := by
  rw [← map_fst_seated, ← map_fst_seated]
  exact h.seated.keys

end Roster

/-! ### Mixing that makes no difference -/

/-- Seats that are related make no difference to this kind of mixing, except for payloads that are
related. -/
structure Indifferent (κ : Type) {σ π α β : Type} [Mixing κ σ π α β]
    (S : SourceId → σ → σ → Prop) (P : SourceId → π → π → Prop) : Prop where
  newcomer : ∀ id seat, S id seat seat
  welcome : ∀ (room : κ) {l l' : List (SourceId × σ)}, Matched S l l' →
    Mixing.welcome room (l.map Prod.snd) = Mixing.welcome room (l'.map Prod.snd)
  serve : ∀ (room : κ) (now : Nanos) (request : α) {l l' : List (SourceId × σ)}, Matched S l l' →
    (Mixing.serve room now l request).room = (Mixing.serve room now l' request).room ∧
      Matched S ((l.map Prod.fst).zip (Mixing.serve room now l request).seats)
        ((l'.map Prod.fst).zip (Mixing.serve room now l' request).seats)
  mix : ∀ (room : κ) (stamp : Nanos) {l l' : List (SourceId × σ)}, (l.map Prod.fst).Nodup →
    Matched S l l' → (Mixing.mix room stamp l).room = (Mixing.mix room stamp l').room ∧
      Matched S ((l.map Prod.fst).zip (Mixing.mix room stamp l).seats)
        ((l'.map Prod.fst).zip (Mixing.mix room stamp l').seats) ∧
      Matched P ((l.map Prod.fst).zip (Mixing.mix room stamp l).payloads)
        ((l'.map Prod.fst).zip (Mixing.mix room stamp l').payloads)

/-- The request leaves seats related to what they were related to before. -/
def Silent (κ : Type) {σ π α β : Type} [Mixing κ σ π α β] (S : SourceId → σ → σ → Prop)
    (request : α) : Prop :=
  ∀ (room : κ) (now : Nanos) {l l' : List (SourceId × σ)}, Matched S l l' →
    (Mixing.serve room now l request).room = room ∧
      Matched S ((l.map Prod.fst).zip (Mixing.serve room now l request).seats) l'

/-- The same rounds, with offers of related payloads. -/
structure Log.Twins (P : SourceId → π → π → Prop) (k l : Log π) : Prop where
  rounds : k.rounds = l.rounds
  offers : List.Forall₂ (Offer.Twins P) k.offers l.offers

theorem Log.twins_empty : Log.Twins P (.empty : Log π) .empty := ⟨rfl, .nil⟩

theorem Log.Twins.append {j k l m : Log π} (h : j.Twins P k) (h' : l.Twins P m) :
    (j ++ l).Twins P (k ++ m) where
  rounds := by rw [Log.rounds_append, Log.rounds_append, h.rounds, h'.rounds]
  offers := List.rel_append h.offers h'.offers

namespace Mixer

/-- The mixers agree in everything but seats, which are related, and what has been written to the
sinks. Their counters may differ. -/
structure Twins (S : SourceId → σ → σ → Prop) (m m' : Mixer κ σ π) : Prop where
  room : m.room = m'.room
  roster : m.roster.Twins S m'.roster
  clock : m.clock = m'.clock
  timeline : m.timeline = m'.timeline
  running : m.running = m'.running

variable {m m' : Mixer κ σ π}

/-! ### Actions -/

section Actions

variable [Mixing κ σ π α β]

theorem Twins.join (h : m.Twins S m') (hI : Indifferent κ S P) {sink : Sink π}
    (hs : sink.Impartial) : (m.join (β := β) sink).mixer.Twins S (m'.join (β := β) sink).mixer := by
  have hw : Mixing.welcome m.room m.roster.seats = Mixing.welcome m'.room m'.roster.seats := by
    rw [← h.room, ← Roster.map_snd_seated, ← Roster.map_snd_seated]
    exact hI.welcome m.room h.roster.seated
  unfold Mixer.join
  rw [← hw, ← h.running]
  cases Mixing.welcome m.room m.roster.seats with
  | error cause => exact h
  | ok admission =>
      cases m.running with
      | false => exact h
      | true =>
          exact ⟨rfl, h.roster.enrol hs fun id => hI.newcomer id _, h.clock, h.timeline, rfl⟩

theorem Twins.leave (h : m.Twins S m') (id : SourceId) :
    (m.leave (β := β) id).mixer.Twins S (m'.leave (β := β) id).mixer := by
  have hids := h.roster.ids
  rcases m.leave_cases (β := β) id with ⟨hn, he⟩ | ⟨hm, he⟩
  · rcases m'.leave_cases (β := β) id with ⟨_, he'⟩ | ⟨hm', _⟩
    · rw [he, he']
      exact h
    · exact absurd (hids ▸ hm') hn
  · rcases m'.leave_cases (β := β) id with ⟨hn', _⟩ | ⟨_, he'⟩
    · exact absurd (hids ▸ hm) hn'
    · rw [he, he']
      exact ⟨congrArg Mixing.depart h.room, h.roster.strike id, h.clock, h.timeline, h.running⟩

theorem Twins.ask (h : m.Twins S m') (hI : Indifferent κ S P) (r : α) :
    (m.ask (β := β) r).mixer.Twins S (m'.ask (β := β) r).mixer := by
  obtain ⟨hroom, hseats⟩ := hI.serve m.room m.clock r h.roster.seated
  rw [Roster.map_fst_seated, Roster.map_fst_seated] at hseats
  unfold Mixer.ask
  rw [← h.room, ← h.clock]
  exact ⟨hroom, h.roster.reseat hseats, rfl, h.timeline, h.running⟩

/-- Twins remain twins when both are asked the same. -/
theorem Twins.act (h : m.Twins S m') (hI : Indifferent κ S P) {a : Action π α}
    (ha : ∀ sink, a = .join sink → sink.Impartial) :
    (m.act a).mixer.Twins S (m'.act a).mixer := by
  cases a with
  | join sink => exact h.join hI (ha sink rfl)
  | leave id => exact h.leave id
  | advance t => exact ⟨h.room, h.roster, congrArg (· + t) h.clock, h.timeline, h.running⟩
  | stop => exact ⟨h.room, h.roster, h.clock, h.timeline, rfl⟩
  | receive id =>
      exact ⟨h.room, h.roster.modifySink id fun _ _ hs => hs.receive, h.clock, h.timeline,
        h.running⟩
  | hangUp id =>
      exact ⟨h.room, h.roster.modifySink id fun _ _ hs => hs.close, h.clock, h.timeline,
        h.running⟩
  | ask r => exact h.ask hI r

/-- Twins remain twins when only one of them is asked something silent. -/
theorem Twins.act_silent (h : m.Twins S m') {r : α} (hr : Silent κ S r) :
    (m.act (.ask r)).mixer.Twins S m' := by
  obtain ⟨hroom, hseats⟩ := hr m.room m.clock h.roster.seated
  rw [Roster.map_fst_seated] at hseats
  rw [← m'.roster.zip_ids_seats] at hseats
  have hroster := h.roster.reseat hseats
  rw [m'.roster.reseat_seats] at hroster
  exact ⟨hroom.trans h.room, hroster, h.clock, h.timeline, h.running⟩

/-! ### Rounds -/

theorem any_stops_eq {os os' : List (Offer π)} (h : List.Forall₂ (Offer.Twins P) os os') :
    (os.any fun o => o.response.stops) = os'.any fun o => o.response.stops := by
  induction h with
  | nil => rfl
  | cons ho _ ih => rw [List.any_cons, List.any_cons, ho.stops, ih]

theorem Twins.round (h : m.Twins S m') (hI : Indifferent κ S P) (hn : m.roster.ids.Nodup)
    (t : Timeline) :
    (m.round t).1.Twins S (m'.round t).1 ∧ (m.round t).2.Twins P (m'.round t).2 := by
  rw [← Roster.map_fst_seated] at hn
  obtain ⟨hroom, hseats, hpayloads⟩ := hI.mix m.room (t.due - t.start) hn h.roster.seated
  rw [Roster.map_fst_seated, Roster.map_fst_seated] at hseats hpayloads
  rw [← Roster.ids_reseat m.roster, ← Roster.ids_reseat m'.roster] at hpayloads
  obtain ⟨hroster, hoffers⟩ := (h.roster.reseat hseats).deliver hpayloads
  have hstops := any_stops_eq hoffers
  unfold Mixer.round
  rw [← h.room, ← h.running]
  exact ⟨⟨hroom, hroster, h.clock, rfl, congrArg (m.running && !·) hstops⟩, rfl, hoffers⟩

theorem Twins.rounds (h : m.Twins S m') (hI : Indifferent κ S P) (hn : m.roster.ids.Nodup)
    (n : Nat) :
    (rounds n m).1.Twins S (rounds n m').1 ∧ (rounds n m).2.Twins P (rounds n m').2 := by
  induction n generalizing m m' with
  | zero => exact ⟨h, Log.twins_empty⟩
  | succ n ih =>
      cases hr : m.running with
      | false =>
          rw [rounds_of_idle _ (.inl hr), rounds_of_idle _ (.inl (h.running ▸ hr))]
          exact ⟨h, Log.twins_empty⟩
      | true =>
          cases ht : m.timeline with
          | none =>
              rw [rounds_of_idle _ (.inr ht), rounds_of_idle _ (.inr (h.timeline ▸ ht))]
              exact ⟨h, Log.twins_empty⟩
          | some t =>
              obtain ⟨hround, hlog⟩ := h.round hI hn t
              obtain ⟨hrest, hlogs⟩ := ih hround (by rw [ids_round]; exact hn)
              rw [rounds_succ n hr ht, rounds_succ n (h.running ▸ hr) (h.timeline ▸ ht)]
              exact ⟨hrest, hlog.append hlogs⟩

theorem Twins.schedule (h : m.Twins S m') : m.schedule = m'.schedule :=
  schedule_congr h.roster.ids h.timeline h.clock

theorem Twins.settle (h : m.Twins S m') (hI : Indifferent κ S P) (hn : m.roster.ids.Nodup) :
    m.settle.1.Twins S m'.settle.1 ∧ m.settle.2.Twins P m'.settle.2 := by
  cases hr : m.running with
  | false =>
      rw [settle_of_not_running hr, settle_of_not_running (h.running ▸ hr)]
      exact ⟨h, Log.twins_empty⟩
  | true =>
      have hr' : m'.running = true := h.running ▸ hr
      cases hs : m.schedule with
      | none =>
          rw [settle_of_unscheduled hr hs, settle_of_unscheduled hr' (h.schedule ▸ hs)]
          exact ⟨⟨h.room, h.roster, h.clock, rfl, h.running⟩, Log.twins_empty⟩
      | some t =>
          have hdue : m.dueRounds t = m'.dueRounds t := by
            rw [dueRounds, h.clock, h.room]
            rfl
          have hbegun : Twins S { m with timeline := some t } { m' with timeline := some t } :=
            ⟨h.room, h.roster, h.clock, rfl, h.running⟩
          rw [settle_of_schedule hr hs, settle_of_schedule hr' (h.schedule ▸ hs), ← hdue]
          exact hbegun.rounds hI hn _

/-! ### Runs -/

theorem numbered_act [LawfulMixing κ] (h : m.floor.Numbered) (a : Action π α) :
    (m.act a).mixer.floor.Numbered := by
  have hk : m.floor.Known ([] : List (Asked α)) ([] : List (Tick κ σ π α)) := ⟨h, nofun, nofun⟩
  exact ((Floor.known_kept fun _ => True).act hk hk trivial).numbered

theorem numbered_settle [LawfulMixing κ] (h : m.floor.Numbered) : m.settle.1.floor.Numbered := by
  have hk : m.floor.Known ([] : List (Asked α)) ([] : List (Tick κ σ π α)) := ⟨h, nofun, nofun⟩
  exact ((Floor.known_kept fun _ => True).settle hk hk).2.numbered

theorem numbered_round [LawfulMixing κ] (h : m.floor.Numbered) (t : Timeline) :
    (m.round t).1.floor.Numbered := by
  rw [floor_round]
  exact h.become (LawfulMixing.length_seats_mix _ _ _) _

/-- Twins remain twins in a step, and what happens in it is alike. -/
theorem Twins.step [LawfulMixing κ] (h : m.Twins S m') (hI : Indifferent κ S P)
    (hn : m.floor.Numbered) {a : Action π α} (ha : ∀ sink, a = .join sink → sink.Impartial) :
    (m.step a).mixer.Twins S (m'.step a).mixer ∧ (m.step a).log.Twins P (m'.step a).log := by
  obtain ⟨hmixer, hlog⟩ := (h.act hI ha).settle hI (nodup_ids (numbered_act hn a))
  exact ⟨hmixer, hlog.rounds, hlog.offers⟩

/-- Twins remain twins when only one of them is asked something silent and the other has nothing
to do; and then nothing happens. -/
theorem Twins.step_silent [LawfulMixing κ] (h : m.Twins S m') (hI : Indifferent κ S P)
    (hn : m.floor.Numbered) (hs : m'.settle = (m', .empty)) {r : α} (hr : Silent κ S r) :
    (m.step (.ask r)).mixer.Twins S m' ∧ (m.step (.ask r)).log.Twins P .empty := by
  obtain ⟨hmixer, hlog⟩ := (h.act_silent hr).settle hI (nodup_ids (numbered_act hn (.ask r)))
  rw [hs] at hmixer hlog
  exact ⟨hmixer, hlog.rounds, hlog.offers⟩

/-- **Silent requests can be left out of a run.** A mixer and its twin, to which such requests are
not made, have the same rounds and make offers of related payloads. -/
theorem Twins.run_filter [SteadyMixing κ] (hI : Indifferent κ S P) {quiet : Action π α → Bool}
    (hquiet : ∀ a, quiet a = true → ∃ r, a = .ask r ∧ Silent κ S r) (h : m.Twins S m')
    (hn : m.floor.Numbered) (hpos : 0 < Mixing.interval m'.room) (hs : m'.settle = (m', .empty))
    {as : List (Action π α)} (ha : ∀ sink, .join sink ∈ as → sink.Impartial) :
    (m.run as).2.Twins P (m'.run (as.filter fun a => !quiet a)).2 := by
  induction as generalizing m m' with
  | nil => exact Log.twins_empty
  | cons a as ih =>
      have hnext : (m.step a).mixer.floor.Numbered := numbered_settle (numbered_act hn a)
      have hrest : ∀ sink, .join sink ∈ as → sink.Impartial := fun sink hm =>
        ha sink (List.mem_cons_of_mem a hm)
      by_cases hq : quiet a = true
      · obtain ⟨r, rfl, hr⟩ := hquiet a hq
        obtain ⟨hmixer, hlog⟩ := h.step_silent hI hn hs hr
        rw [List.filter_cons_of_neg (by simpa using hq)]
        exact hlog.append (ih hmixer hnext hpos hs hrest)
      · obtain ⟨hmixer, hlog⟩ := h.step hI hn fun sink he => ha sink (he ▸ List.mem_cons_self ..)
        have hact : 0 < Mixing.interval (m'.act a).mixer.room := by
          rw [interval_act]
          exact hpos
        have hsettle : 0 < Mixing.interval (m'.step a).mixer.room := by
          show 0 < Mixing.interval (m'.act a).mixer.settle.1.room
          rw [interval_settle]
          exact hact
        rw [List.filter_cons_of_pos (by simpa using hq)]
        exact hlog.append (ih hmixer hnext hsettle (settle_settle hact) hrest)

end Actions

end Mixer

end ConferenceMix
