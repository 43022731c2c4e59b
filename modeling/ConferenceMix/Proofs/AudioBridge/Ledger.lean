import ConferenceMix.Proofs.AudioBridge.Shortfall
import ConferenceMix.Proofs.Session.Refusals

/-! # The books of an audio bridge

Three books are kept of what queues drop and of when they run short: the counters of the bridge, its
events, and the counters of the queues. When queues are changed by putting fragments only, the books
agree after every run that is not broken off (`AudioBridge.run_reconciles`). The queues are those of
all sources ever registered (`AudioBridge.ledger`); a source that leaves takes its queue with it. They
agree because every queue is sound: an eviction always drops a byte, so none goes unreported. A queue
that runs short in a read that breaks off is the only one to know of it
(`AudioBridge.books_differ_at_last_moment`). -/

namespace ConferenceMix

open Pcm

/-- The event reports that a queue dropped bytes. -/
def Event.isOverrun : Event → Bool
  | overrun .. => true
  | _ => false

/-- The number of bytes that an event reports as dropped. -/
def Event.dropped : Event → Nat
  | overrun _ n => n
  | _ => 0

/-! ### Counters of queues -/

/-- What a counter of queues comes to over all queues of a list. -/
def total (g : PlayoutQueue → Nat) (l : List (SourceId × PlayoutQueue)) : Nat :=
  (l.map fun x => g x.2).sum

section Total

variable {g : PlayoutQueue → Nat} {l l' : List (SourceId × PlayoutQueue)}

theorem total_append (g : PlayoutQueue → Nat) (l l' : List (SourceId × PlayoutQueue)) :
    total g (l ++ l') = total g l + total g l' := by
  simp [total]

theorem total_perm (g : PlayoutQueue → Nat) (h : l.Perm l') : total g l = total g l' :=
  (h.map _).sum_eq

theorem total_eq_zero (h : ∀ x ∈ l, g x.2 = 0) : total g l = 0 := by
  refine List.sum_eq_zero fun n hn => ?_
  obtain ⟨x, hx, rfl⟩ := List.mem_map.mp hn
  exact h x hx

/-- When every queue is changed, the total changes by what the counters of the queues do. -/
theorem total_map {f : SourceId × PlayoutQueue → PlayoutQueue} {d : SourceId × PlayoutQueue → Nat}
    (h : ∀ x ∈ l, g (f x) = g x.2 + d x) :
    total g (l.map fun x => (x.1, f x)) = total g l + (l.map d).sum := by
  induction l with
  | nil => rfl
  | cons x l ih =>
      have hrest := ih fun y hy => h y (List.mem_cons_of_mem x hy)
      simp only [total, List.map_cons, List.sum_cons, h x (List.mem_cons_self ..)] at hrest ⊢
      omega

theorem sum_map_ite_key (hn : (l.map Prod.fst).Nodup) (id : SourceId) (d : PlayoutQueue → Nat) :
    (l.map fun x => if x.1 = id then d x.2 else 0).sum =
      ((l.find? fun x => x.1 = id).map fun x => d x.2).getD 0 := by
  induction l with
  | nil => rfl
  | cons x l ih =>
      rw [List.map_cons, List.nodup_cons] at hn
      by_cases hx : x.1 = id
      · have hzero : (l.map fun y => if y.1 = id then d y.2 else 0).sum = 0 := by
          rw [List.sum_eq_zero]
          intro n hmem
          obtain ⟨y, hy, rfl⟩ := List.mem_map.mp hmem
          refine if_neg fun hid => hn.1 ?_
          rw [hx, ← hid]
          exact List.mem_map_of_mem hy
        rw [List.map_cons, List.sum_cons, hzero, if_pos hx,
          List.find?_cons_of_pos (by simpa using hx)]
        rfl
      · rw [List.map_cons, List.sum_cons, if_neg hx, List.find?_cons_of_neg (by simpa using hx),
          Nat.zero_add, ih hn.2]

theorem sum_map_ite_one (p : SourceId × PlayoutQueue → Bool) (l : List (SourceId × PlayoutQueue)) :
    (l.map fun x => if p x then 1 else 0).sum = (l.filter p).length := by
  induction l with
  | nil => rfl
  | cons x l ih =>
      cases hp : p x <;> simp [hp, ih]
      omega

end Total

namespace PlayoutQueue.Sound

variable {q : PlayoutQueue}

/-- Queueing a fragment counts an overrun if bytes are dropped for it, and otherwise nothing. -/
theorem counters_append (h : q.Sound) (f : Fragment) :
    (q.append f).1.overruns = q.overruns + (if 0 < (q.append f).2 then 1 else 0) ∧
      (q.append f).1.underruns = q.underruns := by
  unfold append
  by_cases hf : f.data = []
  · rw [insertAt_of_nil hf]
    exact ⟨rfl, rfl⟩
  · rw [insertAt_of_ne_nil hf]
    rcases (q.placed (q.position f.timestamp) f).evict_cases with
      ⟨he, _⟩ | ⟨_, front, rest, _, _, hq, he⟩
    · rw [he]
      exact ⟨rfl, rfl⟩
    · have hpos := (h.placed hf _).remaining_pos front (hq ▸ List.mem_cons_self ..)
      rw [he]
      exact ⟨by rw [if_pos hpos]; rfl, rfl⟩

/-- Of the bytes that are held or put, those that are not held afterwards have been dropped. -/
theorem unread_append (h : q.Sound) (f : Fragment) :
    q.unread.length + f.data.length - (q.append f).1.unread.length = (q.append f).2 := by
  have hcharged := h.exact.charged (q.position f.timestamp) f
  have hafter := (h.insertAt (q.position f.timestamp) f).accounted
  unfold append
  rw [← h.accounted, ← hafter]
  omega

end PlayoutQueue.Sound

/-! ### What is put -/

/-- An action that a bridge is asked. -/
abbrev AudioDeed := Deed AudioSettings PlayoutQueue Packet AudioRequest

/-- The number of bytes that the queue of a source drops for a fragment. -/
def dropping (l : List (SourceId × PlayoutQueue)) (id : SourceId) (f : Fragment) : Nat :=
  ((l.find? fun x => x.1 = id).map fun x => (x.2.append f).2).getD 0

/-- The number of bytes that are lost to the queue of a source when a fragment is put into it: those
that were held or are put and are not held afterwards. -/
def evicted (d : AudioDeed) : Nat :=
  match d.action with
  | .ask (.put id f) =>
      match AudioBridge.queue? d.mixer id, AudioBridge.queue? (d.mixer.act d.action).mixer id with
      | some q, some q' => q.unread.length + f.data.length - q'.unread.length
      | _, _ => 0
  | _ => 0

/-- What is dropped for a fragment is reported and counted, and nothing else. -/
theorem AudioSettings.serve_put (s : AudioSettings) (now : Nanos)
    (l : List (SourceId × PlayoutQueue)) (id : SourceId) (f : Fragment) :
    (s.serve now l (.put id f)).overruns = (if 0 < dropping l id f then 1 else 0) ∧
      (s.serve now l (.put id f)).events =
        if 0 < dropping l id f then [.overrun id (dropping l id f)] else [] := by
  have hanswer : (change l id fun q => Operation.apply (.append f) now q).2 =
      .dropped (dropping l id f) ∨
      (change l id fun q => Operation.apply (.append f) now q).2 = .done ∧ dropping l id f = 0 := by
    unfold change dropping
    cases l.find? fun x => x.1 = id with
    | none => exact .inr ⟨rfl, rfl⟩
    | some x => exact .inl rfl
  unfold serve
  rcases hanswer with h | ⟨h, hzero⟩
  · simp only [h]
    cases dropping l id f with
    | zero => exact ⟨rfl, rfl⟩
    | succ n => exact ⟨rfl, rfl⟩
  · simp only [h, hzero]
    exact ⟨rfl, rfl⟩

/-! ### The queues of all sources ever registered -/

namespace AudioBridge

/-- The queue with which a source leaves. -/
def retires (d : AudioDeed) : Option (SourceId × PlayoutQueue) :=
  match d.action with
  | .leave id => (queue? d.mixer id).map fun q => (id, q)
  | _ => none

/-- The queues of all sources ever registered: those with which sources have left, and those of the
sources that are still there. -/
def ledger (ds : List AudioDeed) (b : AudioBridge) : List (SourceId × PlayoutQueue) :=
  ds.filterMap retires ++ b.roster.seated

theorem ledger_append (ds : List AudioDeed) (d : AudioDeed) (b : AudioBridge) :
    ledger (ds ++ [d]) b = ds.filterMap retires ++ ((retires d).toList ++ b.roster.seated) := by
  rw [ledger, List.filterMap_append, List.append_assoc]
  cases h : retires d <;> simp [h]

/-- When the same queues have retired, a total over all of them changes as the total over those that
are still there does. -/
theorem total_ledger {g : PlayoutQueue → Nat} {ds ds' : List AudioDeed} {b b' : AudioBridge}
    {n : Nat} (hr : ds'.filterMap retires = ds.filterMap retires)
    (h : total g b'.roster.seated = total g b.roster.seated + n) :
    total g (ledger ds' b') = total g (ledger ds b) + n := by
  rw [ledger, ledger, hr, total_append, total_append, h, Nat.add_assoc]

theorem map_fst_ledger {ds ds' : List AudioDeed} {b b' : AudioBridge}
    (hr : ds'.filterMap retires = ds.filterMap retires) (h : b'.roster.ids = b.roster.ids) :
    (ledger ds' b').map Prod.fst = (ledger ds b).map Prod.fst := by
  rw [ledger, ledger, hr, List.map_append, List.map_append, Roster.map_fst_seated,
    Roster.map_fst_seated, h]

/-- The queues stay as they are when nobody leaves and none changes. -/
theorem ledger_same {d : AudioDeed} {b b' : AudioBridge} (ds : List AudioDeed)
    (hr : retires d = none) (h : b'.roster.seated = b.roster.seated) :
    (ledger (ds ++ [d]) b').Perm (ledger ds b ++ []) := by
  rw [ledger_append, hr, h, List.append_nil]
  exact .refl _

/-- A source that leaves takes its queue with it. -/
theorem ledger_leave {b : AudioBridge} (hn : b.floor.Numbered) (ds : List AudioDeed)
    (id : SourceId) :
    (ledger (ds ++ [⟨b, .leave id⟩]) (b.act (.leave id)).mixer).Perm (ledger ds b) := by
  have hretires : retires ⟨b, .leave id⟩ = (b.floor.seat? id).map fun q => (id, q) := by
    rw [← queue?_eq_seat?]
    rfl
  rw [ledger_append, hretires]
  refine List.Perm.append_left _ ?_
  show (((b.floor.seat? id).map fun q => (id, q)).toList ++
    (b.leave id).mixer.roster.seated).Perm b.floor.seated
  rcases b.leave_eq_cases id with ⟨hm, he⟩ | ⟨hm, he⟩
  · rw [he, Floor.seat?_eq_none (by rwa [Mixer.ids_floor])]
    exact .refl _
  · rw [← Mixer.ids_floor] at hm
    obtain ⟨x, hx, rfl⟩ := List.mem_map.mp hm
    obtain ⟨y, front, back, _, hy, hsplit, herase⟩ :=
      List.exists_of_eraseP (p := fun y => decide (y.1 = x.1)) hx (decide_eq_true rfl)
    have hyx : y.1 = x.1 := of_decide_eq_true hy
    have hseat := hn.seat?_eq (x := y) (hsplit ▸ List.mem_append_right _ (List.mem_cons_self ..))
    rw [he, ← hyx, hseat]
    show (y :: (b.roster.strike y.1).seated).Perm b.floor.seated
    rw [Roster.seated_strike, hyx]
    refine .trans ?_ (.of_eq hsplit.symm)
    rw [show b.roster.seated.eraseP (fun z => z.1 = x.1) = front ++ back from herase]
    exact List.perm_middle.symm

/-! ### The books agree -/

/-- The books agree: on the queues of all sources ever registered, on overruns and underruns, and
on the number of bytes dropped. Every overrun reported has dropped a byte. -/
structure Balanced (ds : List AudioDeed) (l : Log Packet) (b : AudioBridge) : Prop where
  everyone : ((ledger ds b).map Prod.fst).Perm ((admitted ds).map Prod.fst)
  overruns : total PlayoutQueue.overruns (ledger ds b) = b.tally.overruns
  underruns : total PlayoutQueue.underruns (ledger ds b) = b.tally.underruns
  reported : (l.events.filter Event.isOverrun).length = b.tally.overruns
  positive : ∀ e ∈ l.events, e.isOverrun = true → 0 < e.dropped
  dropped : (l.events.map Event.dropped).sum = (ds.map evicted).sum

/-- Events that report no overrun report no bytes dropped. -/
theorem events_quiet {events : List Event} (h : ∀ e ∈ events, e.isOverrun = false) :
    events.filter Event.isOverrun = [] ∧ (events.map Event.dropped).sum = 0 := by
  refine ⟨List.filter_eq_nil_iff.mpr fun e he => by simp [h e he], ?_⟩
  refine List.sum_eq_zero fun n hn => ?_
  obtain ⟨e, he, rfl⟩ := List.mem_map.mp hn
  have hquiet := h e he
  cases e with
  | overrun => cases hquiet
  | _ => rfl

variable {ds : List AudioDeed} {l : Log Packet} {b : AudioBridge}

/-- The books agree after an entry when they have agreed before and the same is entered in all of
them: so many overruns, so many underruns, and so many bytes. -/
theorem Balanced.enter (h : Balanced ds l b) {new : List AudioDeed} {more : Log Packet}
    {b' : AudioBridge} {o u : Nat}
    (heveryone : ((ledger (ds ++ new) b').map Prod.fst).Perm ((admitted (ds ++ new)).map Prod.fst))
    (hoverruns : total PlayoutQueue.overruns (ledger (ds ++ new) b') =
        total PlayoutQueue.overruns (ledger ds b) + o ∧
      b'.tally.overruns = b.tally.overruns + o ∧
      (more.events.filter Event.isOverrun).length = o)
    (hunderruns : total PlayoutQueue.underruns (ledger (ds ++ new) b') =
        total PlayoutQueue.underruns (ledger ds b) + u ∧
      b'.tally.underruns = b.tally.underruns + u)
    (hpositive : ∀ e ∈ more.events, e.isOverrun = true → 0 < e.dropped)
    (hdropped : (more.events.map Event.dropped).sum = (new.map evicted).sum) :
    Balanced (ds ++ new) (l ++ more) b' where
  everyone := heveryone
  overruns := by rw [hoverruns.1, hoverruns.2.1, h.overruns]
  underruns := by rw [hunderruns.1, hunderruns.2, h.underruns]
  reported := by
    rw [Log.events_append, List.filter_append, List.length_append, h.reported, hoverruns.2.1,
      hoverruns.2.2]
  positive e he := by
    rcases List.mem_append.mp he with hm | hm
    · exact h.positive e hm
    · exact hpositive e hm
  dropped := by
    rw [Log.events_append, List.map_append, List.sum_append, List.map_append, List.sum_append,
      h.dropped, hdropped]

/-- An action that drops nothing keeps the books in agreement. -/
theorem Balanced.quiet (h : Balanced ds l b) {d : AudioDeed} {b' : AudioBridge}
    {events : List Event} {new : List (SourceId × PlayoutQueue)}
    (hledger : (ledger (ds ++ [d]) b').Perm (ledger ds b ++ new))
    (hnew : ∀ x ∈ new, x.2.overruns = 0 ∧ x.2.underruns = 0)
    (hadmits : new.map Prod.fst = d.admits.toList.map Prod.fst)
    (hoverruns : b'.tally.overruns = b.tally.overruns)
    (hunderruns : b'.tally.underruns = b.tally.underruns)
    (hevents : ∀ e ∈ events, e.isOverrun = false) (hevicted : evicted d = 0) :
    Balanced (ds ++ [d]) (l ++ Mixer.eventsOnly events) b' := by
  obtain ⟨hreported, hdropped⟩ := events_quiet hevents
  apply h.enter (o := 0) (u := 0)
  · refine (hledger.map Prod.fst).trans ?_
    rw [admitted_append, List.map_append, List.map_append, hadmits]
    exact h.everyone.append_right _
  · refine ⟨?_, hoverruns, congrArg List.length hreported⟩
    rw [total_perm _ hledger, total_append, total_eq_zero fun x hx => (hnew x hx).1]
  · refine ⟨?_, hunderruns⟩
    rw [total_perm _ hledger, total_append, total_eq_zero fun x hx => (hnew x hx).2]
  · exact fun e he hover => absurd (hevents e he) (by simp [hover])
  · rw [List.map_singleton, List.sum_singleton, hevicted]
    exact hdropped

/-! ### Putting -/

variable {s : AudioSettings}

theorem seated_put (b : AudioBridge) (id : SourceId) (f : Fragment) :
    (b.act (.ask (.put id f))).mixer.roster.seated = b.roster.seated.map fun x =>
      (x.1, if x.1 = id then (x.2.append f).1 else x.2) := by
  have hseats := AudioSettings.seats_serve_put b.room b.clock b.roster.seated id f
  show (b.roster.reseat (b.room.serve b.clock b.roster.seated (.put id f)).seats).seated = _
  rw [hseats, Roster.seated_reseat (List.length_map _), ← Roster.map_fst_seated, List.zip_map']

/-- What is lost in putting a fragment is what the queue drops for it. -/
theorem evicted_put (h : s.Ready b.floor) (id : SourceId) (f : Fragment) :
    evicted ⟨b, .ask (.put id f)⟩ = dropping b.roster.seated id f := by
  have hseated := seated_put b id f
  have hafter : (b.act (.ask (.put id f))).mixer.floor.Numbered :=
    Mixer.numbered_act h.numbered _
  unfold evicted
  dsimp only
  rw [queue?_eq_seat?, queue?_eq_seat?]
  by_cases hid : id ∈ b.floor.ids
  · obtain ⟨x, hx, rfl⟩ := List.mem_map.mp hid
    have hx' : (x.1, (x.2.append f).1) ∈ (b.act (.ask (.put x.1 f))).mixer.floor.seated := by
      show _ ∈ (b.act (.ask (.put x.1 f))).mixer.roster.seated
      rw [hseated]
      refine List.mem_map.mpr ⟨x, hx, ?_⟩
      rw [if_pos rfl]
    have hfind : (b.roster.seated.find? fun y => y.1 = x.1) = some x :=
      find?_of_nodup_keys h.numbered.nodup hx
    rw [h.numbered.seat?_eq hx, hafter.seat?_eq hx', dropping, hfind]
    exact (h.furnished x hx).sound.unread_append f
  · have hfind : (b.roster.seated.find? fun y => y.1 = id) = none := by
      refine List.find?_eq_none.mpr fun y hy he => hid ?_
      rw [← of_decide_eq_true he]
      exact List.mem_map_of_mem hy
    rw [Floor.seat?_eq_none hid, dropping, hfind]
    rfl

/-- The overruns of all queues after a fragment has been put. -/
theorem overruns_put (h : s.Ready b.floor) (id : SourceId) (f : Fragment) :
    total PlayoutQueue.overruns (b.act (.ask (.put id f))).mixer.roster.seated =
      total PlayoutQueue.overruns b.roster.seated +
        if 0 < dropping b.roster.seated id f then 1 else 0 := by
  let d : PlayoutQueue → Nat := fun q => if 0 < (q.append f).2 then 1 else 0
  rw [seated_put, total_map (d := fun x => if x.1 = id then d x.2 else 0), sum_map_ite_key]
  · unfold dropping
    cases b.roster.seated.find? fun x => x.1 = id <;> rfl
  · exact h.numbered.nodup
  · intro x hx
    split
    · exact ((h.furnished x hx).sound.counters_append f).1
    · rfl

theorem underruns_put (h : s.Ready b.floor) (id : SourceId) (f : Fragment) :
    total PlayoutQueue.underruns (b.act (.ask (.put id f))).mixer.roster.seated =
      total PlayoutQueue.underruns b.roster.seated := by
  rw [seated_put, total_map (d := fun _ => 0)]
  · simp
  · intro x hx
    split
    · exact ((h.furnished x hx).sound.counters_append f).2
    · rfl

/-- Putting a fragment keeps the books in agreement. -/
theorem Balanced.put (h : Balanced ds l b) (hs : s.Ready b.floor) (id : SourceId) (f : Fragment) :
    Balanced (ds ++ [⟨b, .ask (.put id f)⟩])
      (l ++ Mixer.eventsOnly (b.act (.ask (.put id f))).events)
      (b.act (.ask (.put id f))).mixer := by
  obtain ⟨hcount, hevents⟩ := b.room.serve_put b.clock b.roster.seated id f
  have hevents : (b.act (.ask (.put id f))).events = if 0 < dropping b.roster.seated id f
      then [.overrun id (dropping b.roster.seated id f)] else [] := hevents
  let d : AudioDeed := ⟨b, .ask (.put id f)⟩
  have hretires : (ds ++ [d]).filterMap retires = ds.filterMap retires :=
    List.filterMap_append.trans (List.append_nil _)
  have hadmitted : admitted (ds ++ [d]) = admitted ds :=
    (admitted_append ..).trans (List.append_nil _)
  apply h.enter (o := if 0 < dropping b.roster.seated id f then 1 else 0) (u := 0)
  · rw [map_fst_ledger hretires (b.roster.ids_reseat _), hadmitted]
    exact h.everyone
  · refine ⟨total_ledger hretires (overruns_put hs id f),
      congrArg (b.tally.overruns + ·) hcount, ?_⟩
    rw [Mixer.eventsOnly, hevents]
    split <;> rfl
  · exact ⟨total_ledger hretires (underruns_put hs id f), rfl⟩
  · intro e he _
    rw [Mixer.eventsOnly, hevents] at he
    split at he
    · rename_i hpos
      rw [List.mem_singleton.mp he]
      exact hpos
    · cases he
  · rw [Mixer.eventsOnly, hevents, List.map_singleton, List.sum_singleton, evicted_put hs]
    split
    · rfl
    · rename_i hzero
      exact (Nat.eq_zero_of_not_pos hzero).symm

/-! ### Rounds -/

/-- A round keeps the books in agreement. -/
theorem Balanced.round (h : Balanced ds l b) (hs : s.Ready b.floor) (t : Timeline) :
    Balanced ds (l ++ (b.round t).2) (b.round t).1 := by
  have hroom : b.room = s := hs.room
  have hseated : (b.round t).1.roster.seated =
      b.roster.seated.map fun x => (x.1, (x.2.read s.packetBytes).1) := by
    have hfloor := congrArg Floor.seated (b.floor_round t)
    have hseats : (Mixing.mix b.floor.room (t.due - t.start) b.floor.seated).seats = _ :=
      b.room.seats_mix (t.due - t.start) b.floor.seated
    rw [hseats, Floor.become_map, hroom] at hfloor
    exact hfloor
  obtain ⟨hevents, hunderruns⟩ := s.reports_mix (t.due - t.start) b.roster.seated
  have hquiet : ∀ e ∈ (b.round t).2.events, e.isOverrun = false := by
    intro e he
    rcases List.mem_append.mp he with hm | hm
    · have hm : e ∈ (b.room.mix (t.due - t.start) b.roster.seated).events := hm
      rw [hroom, hevents] at hm
      obtain ⟨id, _, rfl⟩ := List.mem_map.mp hm
      rfl
    · have hfault := isSinkFault_of_mem hm
      cases e with
      | sinkFault => rfl
      | _ => cases hfault
  have hreads : total PlayoutQueue.underruns (b.round t).1.roster.seated =
      total PlayoutQueue.underruns b.roster.seated + (s.short b.roster.seated).length := by
    let p : SourceId × PlayoutQueue → Bool := fun x => (x.2.read s.packetBytes).2.status = .underrun
    rw [hseated, total_map (d := fun x => if p x then 1 else 0), sum_map_ite_one,
      AudioSettings.short, List.length_map]
    intro x _
    rw [x.2.underruns_read]
    by_cases hx : (x.2.read s.packetBytes).2.status = .underrun <;> simp [p, hx]
  have hkept : total PlayoutQueue.overruns (b.round t).1.roster.seated =
      total PlayoutQueue.overruns b.roster.seated := by
    rw [hseated, total_map (d := fun _ => 0)]
    · simp
    · exact fun x _ => (x.2.limits_read s.packetBytes).2.2.2
  obtain ⟨hreported, hdropped⟩ := events_quiet hquiet
  rw [← List.append_nil ds]
  have hretires : (ds ++ []).filterMap retires = ds.filterMap retires := by rw [List.append_nil]
  apply h.enter (o := 0) (u := (s.short b.roster.seated).length)
  · rw [map_fst_ledger hretires (b.ids_round t), List.append_nil]
    exact h.everyone
  · exact ⟨total_ledger hretires hkept, rfl, congrArg List.length hreported⟩
  · refine ⟨total_ledger hretires hreads, ?_⟩
    show b.tally.underruns + (b.room.mix (t.due - t.start) b.roster.seated).underruns = _
    rw [hroom, hunderruns]
  · exact fun e he hover => absurd (hquiet e he) (by simp [hover])
  · exact hdropped

/-! ### Runs -/

/-- Queues are changed by putting fragments only. -/
def PutsOnly : Action Packet AudioRequest → Prop
  | .ask (.operate ..) => False
  | _ => True

/-- A source that joins brings an empty queue, if it is let in. -/
theorem Balanced.join (h : Balanced ds l b) (hs : s.Ready b.floor) (sink : Sink Packet) :
    Balanced (ds ++ [⟨b, .join sink⟩]) (l ++ Mixer.eventsOnly (b.join sink).events)
      (b.join sink).mixer := by
  rcases b.join_eq_cases sink with ⟨fault, he, _⟩ | ⟨admission, hw, _, he⟩
  · have hadmits : Deed.admits ⟨b, .join sink⟩ = none := by rw [Deed.admits_join, he]
    rw [he]
    exact h.quiet (ledger_same ds rfl rfl) nofun (by rw [hadmits]; rfl) rfl rfl nofun rfl
  · obtain ⟨q, hq, rfl⟩ := AudioSettings.welcome_eq_ok hw
    obtain ⟨_, _, rfl⟩ := PlayoutQueue.eq_of_create hq
    have hadmits : Deed.admits ⟨b, .join sink⟩ = some (b.roster.upcoming, sink.name) := by
      rw [Deed.admits_join, he]
    have hledger : (ledger (ds ++ [⟨b, .join sink⟩]) (b.join sink).mixer).Perm
        (ledger ds b ++
          [(b.roster.upcoming, ⟨s.wishBytes, s.capBytes, [], 0, true, none, 0, 0⟩)]) := by
      rw [ledger_append, he, ledger, List.append_assoc, ← hs.room]
      exact .of_eq (congrArg _ (b.roster.seated_enrol sink _))
    rw [he] at hledger ⊢
    refine h.quiet hledger ?_ (by rw [hadmits]; rfl) rfl rfl ?_ rfl
    · intro x hx
      rw [List.mem_singleton.mp hx]
      exact ⟨rfl, rfl⟩
    · simp [Event.isOverrun]

/-- A source that leaves takes what its queue has counted with it. -/
theorem Balanced.leave (h : Balanced ds l b) (hs : s.Ready b.floor) (id : SourceId) :
    Balanced (ds ++ [⟨b, .leave id⟩]) (l ++ Mixer.eventsOnly (b.leave id).events)
      (b.leave id).mixer := by
  have hledger : (ledger (ds ++ [⟨b, .leave id⟩]) (b.leave id).mixer).Perm (ledger ds b ++ []) :=
    (ledger_leave hs.numbered ds id).trans (.of_eq (List.append_nil _).symm)
  rcases b.leave_eq_cases id with ⟨_, he⟩ | ⟨_, he⟩
  · rw [he] at hledger ⊢
    exact h.quiet hledger nofun rfl rfl rfl nofun rfl
  · rw [he] at hledger ⊢
    exact h.quiet hledger nofun rfl rfl rfl (by simp [Event.isOverrun]) rfl

/-- Every action but an operation on a queue keeps the books in agreement. -/
theorem Balanced.act (h : Balanced ds l b) (hs : s.Ready b.floor) {a : Action Packet AudioRequest}
    (ha : PutsOnly a) :
    Balanced (ds ++ [⟨b, a⟩]) (l ++ Mixer.eventsOnly (b.act a).events) (b.act a).mixer := by
  cases a with
  | join sink => exact h.join hs sink
  | leave id => exact h.leave hs id
  | ask r =>
      cases r with
      | put id f => exact h.put hs id f
      | operate id op => exact ha.elim
  | receive id =>
      have hseated := b.roster.seated_modifySink id fun s => s.receive.2
      exact h.quiet (ledger_same ds rfl hseated) nofun rfl rfl rfl nofun rfl
  | hangUp id =>
      have hseated := b.roster.seated_modifySink id Sink.close
      exact h.quiet (ledger_same ds rfl hseated) nofun rfl rfl rfl nofun rfl
  | advance t => exact h.quiet (ledger_same ds rfl rfl) nofun rfl rfl rfl nofun rfl
  | stop => exact h.quiet (ledger_same ds rfl rfl) nofun rfl rfl rfl nofun rfl

theorem balanced_upheld (s : AudioSettings) : Upheld PutsOnly fun ds l (b : AudioBridge) =>
    (∃ asked, ∃ done : List AudioTick, b.floor.Known asked done ∧ s.Attainable b.floor) ∧
      Balanced ds l b where
  act {ds l b} a hp ha := by
    obtain ⟨⟨asked, done, hk, hattainable⟩, hbalanced⟩ := hp
    exact ⟨s.attainable_kept.upheld.act (d := ds) (l := l) a ⟨asked, done, hk, hattainable⟩ trivial,
      hbalanced.act hattainable.ready ha⟩
  timed _ hp := ⟨hp.1, hp.2.everyone, hp.2.overruns, hp.2.underruns, hp.2.reported, hp.2.positive,
    hp.2.dropped⟩
  round {ds l b} t hp := by
    obtain ⟨⟨asked, done, hk, hattainable⟩, hbalanced⟩ := hp
    exact ⟨s.attainable_kept.upheld.round (d := ds) (l := l) t ⟨asked, done, hk, hattainable⟩,
      hbalanced.round hattainable.ready t⟩

/-- What a bridge has counted, what has been reported and what its queues have counted, reconciled.

The queues are those of all sources ever registered, each listed once. The bridge has counted as many
overruns and as many underruns as have been reported, and as many as all queues have counted
together. Every overrun reported has dropped a byte, and together they report the bytes that the
queues have lost to what was put. The bridge also knows how many sources it has and how many rounds
it has carried out. -/
structure Reconciled (ds : List AudioDeed) (l : Log Packet) (b : AudioBridge) : Prop where
  everyone : ((ledger ds b).map Prod.fst).Perm ((admitted ds).map Prod.fst)
  overruns : b.tally.overruns = (l.events.filter Event.isOverrun).length ∧
    b.tally.overruns = total PlayoutQueue.overruns (ledger ds b)
  underruns : b.tally.underruns = (l.events.filter Event.isUnderrun).length ∧
    b.tally.underruns = total PlayoutQueue.underruns (ledger ds b)
  positive : ∀ e ∈ l.events, e.isOverrun = true → 0 < e.dropped
  dropped : (l.events.map Event.dropped).sum = (ds.map evicted).sum
  sources : b.tally.sources = b.roster.size
  rounds : b.tally.rounds = l.rounds.length

theorem reconciled_run (s : AudioSettings) {as : List (Action Packet AudioRequest)}
    (ha : ∀ a ∈ as, PutsOnly a) :
    Reconciled ((Mixer.create s : AudioBridge).deeds as) ((Mixer.create s : AudioBridge).run as).2
      ((Mixer.create s : AudioBridge).run as).1 := by
  have hcreate : Balanced [] .empty (Mixer.create s) := ⟨.refl _, rfl, rfl, rfl, nofun, rfl⟩
  obtain ⟨_, hbalanced⟩ := (balanced_upheld s).run
    ⟨⟨[], [], Floor.known_create s, .create⟩, hcreate⟩ ha
  have hcounts : ((Mixer.create s : AudioBridge).run as).1.tally.underruns = 0 + _ :=
    Mixer.counts_run _ as
  have htallied := Mixer.tallied_run s as
  exact
    { everyone := hbalanced.everyone
      overruns := ⟨hbalanced.reported.symm, hbalanced.overruns.symm⟩
      underruns := ⟨hcounts.trans (Nat.zero_add _), hbalanced.underruns.symm⟩
      positive := hbalanced.positive
      dropped := hbalanced.dropped
      sources := htallied.sources
      rounds := htallied.rounds }

/-- A source puts more than its queue can hold, runs short, and leaves; another puts too much after
the bridge has stopped. -/
def overAndUnder : List (Action Packet AudioRequest) :=
  [.join .discard, .ask (.put .first (.untimed [1, 0, 2])), .ask (.put .first (.untimed [3, 0])),
    .ask (.put .first (.untimed [4, 0])), .advance (.ofMillis 4), .leave .first, .join .discard,
    .stop, .ask (.put ⟨2⟩ (.untimed [5])), .ask (.put ⟨2⟩ (.untimed [6, 0, 7, 0, 8]))]

/-- A source plays a packet, and then puts half a packet that starts at the last moment of all. -/
def halfPacketLate : List (Action Packet AudioRequest) :=
  [.join .discard, .ask (.put .first (.untimed [1, 0, 2, 0, 3, 0, 4, 0])), .advance (.ofMillis 4),
    .ask (.put .first ⟨[5, 0, 6, 0], 1000, 1, .longest⟩), .advance (.ofMillis 4)]

end AudioBridge

end ConferenceMix
