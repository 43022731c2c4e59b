import ConferenceMix.Delivery.Event
import ConferenceMix.Delivery.Sink
import ConferenceMix.Identity

/-! # The sources of a mixer

A `Roster` lists the sources of a mixer in the order of registration, each with its sink and its
`seat`, which is whatever the kind of mixer keeps for a source. A new source gets a new number
(`enrol`), and numbers of sources that have left are not handed out again. The sink of a source that
has left is written to no more, but whoever holds the other end of it still does (`departed`).
`deliver` offers one payload to every sink in turn and records each as an `Offer`. -/

namespace ConferenceMix

/-- A registered source. -/
structure Member (σ π : Type) where
  id : SourceId
  sink : Sink π
  seat : σ

/-- The sources of a mixer in the order of registration. -/
structure Roster (σ π : Type) where
  /-- The number of the next source. -/
  upcoming : SourceId
  members : List (Member σ π)
  /-- The sinks of the sources that have left, the latest in front. -/
  departed : List (SourceId × Sink π)

/-- A payload offered to the sink of a source, and what the sink did. -/
structure Offer (π : Type) where
  source : SourceId
  sink : String
  payload : π
  response : Response
deriving DecidableEq, Repr

namespace Offer

variable {π : Type}

/-- The report of a refused offer. -/
def event? (o : Offer π) : Option Event := o.response.fault.map (.sinkFault o.source o.sink)

end Offer

namespace Roster

variable {σ π : Type}

/-- No sources. -/
def empty : Roster σ π := ⟨.first, [], []⟩

/-- The number of sources. -/
def size (r : Roster σ π) : Nat := r.members.length

/-- The sources in the order of registration. -/
def ids (r : Roster σ π) : List SourceId := r.members.map Member.id

/-- What is kept for each source, in the order of registration. -/
def seats (r : Roster σ π) : List σ := r.members.map Member.seat

/-- The sources with what is kept for them. -/
def seated (r : Roster σ π) : List (SourceId × σ) := r.members.map fun m => (m.id, m.seat)

/-- The source of the given number. -/
def find? (r : Roster σ π) (id : SourceId) : Option (Member σ π) :=
  r.members.find? fun m => m.id = id

/-- The sink of a source that is registered or has left. -/
def sink? (r : Roster σ π) (id : SourceId) : Option (Sink π) :=
  ((r.find? id).map Member.sink).or ((r.departed.find? fun x => x.1 = id).map Prod.snd)

/-! ### Coming and going -/

/-- Registers a source behind the others. Its number is `r.upcoming`. -/
def enrol (r : Roster σ π) (sink : Sink π) (seat : σ) : Roster σ π :=
  { r with
    upcoming := r.upcoming.next
    members := r.members ++ [⟨r.upcoming, sink, seat⟩] }

/-- Takes a source off the list; the others keep their order. Its sink is set aside. -/
def strike (r : Roster σ π) (id : SourceId) : Roster σ π :=
  { r with
    members := r.members.eraseP fun m => m.id = id
    departed := ((r.find? id).map fun m => (m.id, m.sink)).toList ++ r.departed }

theorem size_enrol (r : Roster σ π) (sink : Sink π) (seat : σ) :
    (r.enrol sink seat).size = r.size + 1 := by
  simp [size, enrol]

/-! ### Changing what is kept -/

/-- Gives new seats to members in order; members beyond the end of the list keep theirs. -/
def assign : List (Member σ π) → List σ → List (Member σ π)
  | m :: ms, s :: ss => { m with seat := s } :: assign ms ss
  | ms, [] => ms
  | [], _ => []

/-- Gives new seats to the sources in the order of registration. -/
def reseat (r : Roster σ π) (seats : List σ) : Roster σ π :=
  { r with members := assign r.members seats }

/-- Replaces the sink of a source that is registered or has left. -/
def modifySink (r : Roster σ π) (id : SourceId) (f : Sink π → Sink π) : Roster σ π :=
  { r with
    members := r.members.map fun m => if m.id = id then { m with sink := f m.sink } else m
    departed := r.departed.map fun x => if x.1 = id then (x.1, f x.2) else x }

theorem map_id_assign (ms : List (Member σ π)) (ss : List σ) :
    (assign ms ss).map Member.id = ms.map Member.id := by
  fun_induction assign ms ss with
  | case1 m ms s ss ih => simp [ih]
  | case2 => rfl
  | case3 => rfl

@[simp] theorem ids_reseat (r : Roster σ π) (seats : List σ) : (r.reseat seats).ids = r.ids :=
  map_id_assign r.members seats

@[simp] theorem size_reseat (r : Roster σ π) (seats : List σ) : (r.reseat seats).size = r.size := by
  have h := congrArg List.length (map_id_assign r.members seats)
  simpa [size, reseat] using h

/-! ### Delivering -/

/-- Offers to each member in turn the payload at its place. -/
def offerAll : List (Member σ π) → List π → List (Member σ π) × List (Offer π)
  | m :: ms, p :: ps =>
      let written := m.sink.write p
      let rest := offerAll ms ps
      ({ m with sink := written.1 } :: rest.1, ⟨m.id, m.sink.name, p, written.2⟩ :: rest.2)
  | ms, _ => (ms, [])

/-- Offers to each source, in the order of registration, the payload at its place. -/
def deliver (r : Roster σ π) (payloads : List π) : Roster σ π × List (Offer π) :=
  let offered := offerAll r.members payloads
  ({ r with members := offered.1 }, offered.2)

theorem map_id_offerAll (ms : List (Member σ π)) (ps : List π) :
    (offerAll ms ps).1.map Member.id = ms.map Member.id := by
  fun_induction offerAll ms ps with
  | case1 m ms p ps written rest ih =>
      simp only [List.map_cons]
      rw [show rest.1.map Member.id = ms.map Member.id from ih]
  | case2 => rfl

@[simp] theorem ids_deliver (r : Roster σ π) (payloads : List π) :
    (r.deliver payloads).1.ids = r.ids :=
  map_id_offerAll r.members payloads

/-- With a payload for every source, each source is offered exactly its own, in order. -/
theorem sources_offerAll (ms : List (Member σ π)) (ps : List π) (h : ps.length = ms.length) :
    (offerAll ms ps).2.map Offer.source = ms.map Member.id ∧
      (offerAll ms ps).2.map Offer.payload = ps := by
  induction ms generalizing ps with
  | nil => cases ps with
    | nil => exact ⟨rfl, rfl⟩
    | cons p ps => simp at h
  | cons m ms ih => cases ps with
    | nil => simp at h
    | cons p ps =>
        obtain ⟨h1, h2⟩ := ih ps (by simpa using h)
        simp [offerAll, h1, h2]

end Roster

end ConferenceMix
