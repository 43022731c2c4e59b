import ConferenceMix.Playout.Checked
import ConferenceMix.Proofs.Playout.Accounts

/-! # Reads that come to an end

A read breaks off exactly when it is to cut a piece from a fragment whose next byte would start at a
moment that cannot be told (`PlayoutQueue.read?_eq_ok_iff`). Where nothing breaks off, operations,
steps and runs are the plain ones (`Playout.runAt?_eq`).

A fragment is `Timely` when the moment of its end can be told. Then no read breaks off at it, and a
run of timely fragments that takes no longer than the clock can tell goes on to its end
(`Playout.runAt?_of_lasts`). `Playout.runAt_accounted` accounts for every byte in all runs that come
to their end; in one that breaks off the bytes that have been copied last are still counted as held
(`Playout.accounts_lost_by_broken_read`). -/

namespace ConferenceMix

open Pcm

/-! ### Cuts in time -/

/-- The moment behind the piece that is cut off can be told. -/
def Cut.InTime (c : Cut) : Prop :=
  c.entry.timestamp + c.entry.fragment.playback c.size ≤ Nanos.longest

instance (c : Cut) : Decidable c.InTime := inferInstanceAs (Decidable (_ ≤ _))

theorem stall?_eq_none_iff (n : Nat) (qs : List Queued) :
    stall? n qs = none ↔ ∀ c ∈ cuts n qs, c.InTime := by
  induction qs generalizing n with
  | nil => simp [stall?, cuts]
  | cons q qs ih =>
      by_cases hn : n = 0
      · simp [stall?, hn]
      · have hrest : n - min q.remaining n = n - q.remaining := by omega
        rw [cuts_cons hn, List.forall_mem_cons, hrest, ← ih, stall?, if_neg hn]
        by_cases hlate :
            Nanos.longest < q.timestamp + q.fragment.playback (min q.remaining n)
        · rw [if_pos hlate]
          exact iff_of_false (Option.some_ne_none _) fun hin => Nat.not_le_of_lt hlate hin.1
        · rw [if_neg hlate, Option.map_eq_none_iff]
          exact (and_iff_right (Nat.le_of_not_lt hlate)).symm

theorem exists_of_map_eq_ok {ε α β : Type} {f : α → β} {e : Except ε α} {b : β}
    (h : e.map f = .ok b) : ∃ a, e = .ok a ∧ f a = b := by
  cases e with
  | error cause => cases h
  | ok a =>
      cases h
      exact ⟨a, rfl, rfl⟩

namespace PlayoutQueue

variable {q : PlayoutQueue}

theorem stalled?_eq_none_iff (q : PlayoutQueue) (n : Nat) :
    q.stalled? n = none ↔ ∀ c ∈ cuts (q.allowance n) q.queued, c.InTime := by
  have hwaits : (q.filling && decide (q.held < q.wish)) = true ↔ q.Waits := by
    simp [Waits]
  unfold stalled? allowance
  by_cases hw : q.Waits
  · rw [if_pos hw, if_pos (hwaits.mpr hw), cuts_zero]
    exact iff_of_true rfl nofun
  · rw [if_neg hw, if_neg (mt hwaits.mp hw), Option.map_eq_none_iff, stall?_eq_none_iff]

/-- A read comes to its end exactly when all pieces that it cuts are in time, and then it is the plain
read. -/
theorem read?_eq_ok_iff {n : Nat} {r : PlayoutQueue × ReadResult} :
    q.read? n = .ok r ↔ (∀ c ∈ cuts (q.allowance n) q.queued, c.InTime) ∧ r = q.read n := by
  rw [← stalled?_eq_none_iff, read?]
  cases q.stalled? n with
  | none => simp [eq_comm]
  | some left => simp

theorem read?_of_inTime {n : Nat} (h : ∀ c ∈ cuts (q.allowance n) q.queued, c.InTime) :
    q.read? n = .ok (q.read n) := read?_eq_ok_iff.mpr ⟨h, rfl⟩

/-- A timed read that is due moves the timeline on and reads, if the next one can be told. -/
theorem carryOut?_timedRead_of_due {n : Nat} {last now interval : Nanos} (hi : interval ≠ 0)
    (hd : q.nextRead.getD now ≤ now) (hl : q.nextRead.getD now + interval ≤ last) :
    (Operation.timedRead n interval).carryOut? last now q =
      ((q.schedule now interval).read? n).map fun r => (r.1, .timedRead (.read r.2)) := by
  have hplain : ¬ (interval = 0 ∨ now < q.nextRead.getD now) :=
    not_or.mpr ⟨hi, Nat.not_lt_of_le hd⟩
  simp only [Operation.carryOut?, if_neg hplain, if_neg (Nat.not_lt_of_le hl)]
  rfl

theorem carryOut?_timedRead_of_not_due {n : Nat} {last now interval : Nanos}
    (h : interval = 0 ∨ now < q.nextRead.getD now) :
    (Operation.timedRead n interval).carryOut? last now q =
      .ok ((Operation.timedRead n interval).apply now q) := by
  simp only [Operation.carryOut?, if_pos h]

theorem carryOut?_timedRead_of_late {n : Nat} {last now interval : Nanos} (hi : interval ≠ 0)
    (hd : q.nextRead.getD now ≤ now) (hl : last < q.nextRead.getD now + interval) :
    (Operation.timedRead n interval).carryOut? last now q =
      .error { q with nextRead := some (q.nextRead.getD now) } := by
  have hplain : ¬ (interval = 0 ∨ now < q.nextRead.getD now) :=
    not_or.mpr ⟨hi, Nat.not_lt_of_le hd⟩
  simp only [Operation.carryOut?, if_neg hplain, if_pos hl]

/-- A timed read that takes place is the plain one, and its pieces are in time. -/
theorem apply_timedRead_of_due {n : Nat} {now interval : Nanos} (hi : interval ≠ 0)
    (hd : q.nextRead.getD now ≤ now) : (Operation.timedRead n interval).apply now q =
      (((q.schedule now interval).read n).1,
        .timedRead (.read ((q.schedule now interval).read n).2)) := by
  rcases apply_timedRead_cases q now interval n with ⟨hz, _⟩ | ⟨_, hlt, _⟩ | ⟨_, _, he⟩
  · exact absurd hz hi
  · exact absurd hd (Nat.not_le_of_lt hlt)
  · exact he

/-- An operation that comes to its end is the plain one. -/
theorem carryOut?_eq {op : Operation} {last now : Nanos} {r : PlayoutQueue × Answer}
    (h : op.carryOut? last now q = .ok r) : r = op.apply now q := by
  cases op with
  | read n =>
      obtain ⟨r', hread, rfl⟩ := exists_of_map_eq_ok h
      rw [(read?_eq_ok_iff.mp hread).2]
      rfl
  | timedRead n interval =>
      by_cases hplain : interval = 0 ∨ now < q.nextRead.getD now
      · rw [carryOut?_timedRead_of_not_due hplain] at h
        exact (Except.ok.inj h).symm
      · obtain ⟨hi, hlt⟩ := not_or.mp hplain
        have hd := Nat.le_of_not_lt hlt
        by_cases hl : last < q.nextRead.getD now + interval
        · rw [carryOut?_timedRead_of_late hi hd hl] at h
          cases h
        · rw [carryOut?_timedRead_of_due hi hd (Nat.le_of_not_lt hl)] at h
          obtain ⟨r', hread, rfl⟩ := exists_of_map_eq_ok h
          rw [(read?_eq_ok_iff.mp hread).2, apply_timedRead_of_due hi hd]
  | append f => exact (Except.ok.inj h).symm
  | write data => exact (Except.ok.inj h).symm
  | flush => exact (Except.ok.inj h).symm
  | sort => exact (Except.ok.inj h).symm

end PlayoutQueue

/-! ### Timely fragments -/

/-- The moment of the fragment's end can be told. -/
def Pcm.Fragment.Timely (f : Fragment) : Prop :=
  f.timestamp + f.playback f.data.length ≤ Nanos.longest

instance (f : Fragment) : Decidable f.Timely := inferInstanceAs (Decidable (_ ≤ _))

/-- The moment of the end of what is queued can be told. -/
def Queued.Timely (e : Queued) : Prop :=
  e.timestamp + e.fragment.playback e.remaining ≤ Nanos.longest

theorem Queued.Timely.advance {e : Queued} (h : e.Timely) {n : Nat} (hn : n ≤ e.remaining) :
    (e.advance n).Timely := by
  have hsplit := e.fragment.playback_add_le n (e.remaining - n)
  rw [Nat.add_sub_cancel' hn] at hsplit
  unfold Timely
  rw [e.remaining_advance]
  calc e.timestamp + e.fragment.playback n + e.fragment.playback (e.remaining - n)
      = e.timestamp + (e.fragment.playback n + e.fragment.playback (e.remaining - n)) :=
        Nat.add_assoc _ _ _
    _ ≤ e.timestamp + e.fragment.playback e.remaining := Nat.add_le_add_left hsplit _
    _ ≤ Nanos.longest := h

/-- Pieces of timely fragments are in time. -/
theorem inTime_of_mem_cuts {n : Nat} {qs : List Queued} (h : ∀ e ∈ qs, e.Timely) {c : Cut}
    (hc : c ∈ cuts n qs) : c.InTime := by
  induction qs generalizing n with
  | nil => simp [cuts] at hc
  | cons q qs ih =>
      obtain ⟨hq, hqs⟩ := List.forall_mem_cons.mp h
      by_cases hn : n = 0
      · simp [cuts, hn] at hc
      · rw [cuts_cons hn] at hc
        rcases List.mem_cons.mp hc with rfl | hm
        · exact Nat.le_trans
            (Nat.add_le_add_left (q.fragment.playback_mono (Nat.min_le_left _ _)) _) hq
        · exact ih hqs hm

theorem timely_of_mem_drain {n : Nat} {qs : List Queued} (h : ∀ e ∈ qs, e.Timely) {e : Queued}
    (he : e ∈ (drain n qs).2) : e.Timely := by
  induction qs generalizing n with
  | nil => simp at he
  | cons q qs ih =>
      obtain ⟨hq, hqs⟩ := List.forall_mem_cons.mp h
      by_cases hn : n = 0
      · subst hn
        rw [drain_zero] at he
        exact h e he
      · by_cases hr : q.remaining ≤ n
        · rw [drain_cons_of_le qs hn hr] at he
          exact ih hqs he
        · rw [drain_cons_of_lt qs hn (by omega)] at he
          rcases List.mem_cons.mp he with rfl | hm
          · exact hq.advance (by omega)
          · exact hqs e hm

namespace PlayoutQueue

variable {q : PlayoutQueue}

/-- The moments of the ends of all fragments can be told. -/
def Timely (q : PlayoutQueue) : Prop := ∀ e ∈ q.queued, e.Timely

theorem Timely.read? (h : q.Timely) (n : Nat) : q.read? n = .ok (q.read n) :=
  read?_of_inTime fun _ hc => inTime_of_mem_cuts h hc

theorem Timely.read (h : q.Timely) (n : Nat) : (q.read n).1.Timely := by
  intro e he
  rw [queued_read] at he
  exact timely_of_mem_drain h he

theorem Timely.insertAt (h : q.Timely) {f : Fragment} (hf : f.Timely) (k : Nat) :
    (q.insertAt k f).1.Timely := by
  by_cases hd : f.data = []
  · rw [insertAt_of_nil hd]
    exact h
  · rw [insertAt_of_ne_nil hd]
    intro e he
    rcases List.mem_append.mp (mem_evict he) with hm | hm
    · exact h e (List.mem_of_mem_take hm)
    · rcases List.mem_cons.mp hm with rfl | hm
      · exact hf
      · exact h e (List.mem_of_mem_drop hm)

theorem timely_untimed (data : List UInt8) : (Fragment.untimed data).Timely := by
  unfold Fragment.Timely
  rw [Fragment.playback_untimed]
  exact Nat.zero_le _

end PlayoutQueue

namespace Operation

/-- The fragment that an operation queues has an end that can be told. -/
def Timely : Operation → Prop
  | append f => f.Timely
  | _ => True

instance : DecidablePred Timely
  | append f => inferInstanceAs (Decidable f.Timely)
  | write _ => .isTrue trivial
  | read _ => .isTrue trivial
  | timedRead .. => .isTrue trivial
  | flush => .isTrue trivial
  | sort => .isTrue trivial

theorem Timely.apply {op : Operation} (h : op.Timely) {q : PlayoutQueue} (hq : q.Timely)
    (now : Nanos) : (op.apply now q).1.Timely := by
  cases op with
  | append f => exact hq.insertAt h _
  | write data => exact hq.insertAt (PlayoutQueue.timely_untimed data) _
  | read n => exact hq.read n
  | timedRead n interval =>
      exact PlayoutQueue.timedRead_keeps (P := PlayoutQueue.Timely) hq hq fun _ hr => hr.read n
  | flush => exact nofun
  | sort =>
      have hp : q.sort.queued.Perm q.queued := List.mergeSort_perm _ _
      exact fun e he => hq e (hp.mem_iff.mp he)

/-- The time by which an operation moves the timeline of the timed reads on. -/
def span : Operation → Nanos
  | timedRead _ interval => interval
  | _ => 0

end Operation

namespace PlayoutQueue

variable {q : PlayoutQueue} {last now : Nanos}

/-- The later of the given time and the time at which the next timed read is due. -/
def horizon (q : PlayoutQueue) (now : Nanos) : Nanos := max now (q.nextRead.getD 0)

theorem due_le_horizon (q : PlayoutQueue) (now : Nanos) :
    q.nextRead.getD now ≤ q.horizon now := by
  unfold horizon
  cases q.nextRead with
  | none => exact Nat.le_max_left _ _
  | some due => exact Nat.le_max_right _ _

theorem horizon_congr {r : PlayoutQueue} (h : r.nextRead = q.nextRead) (now : Nanos) :
    r.horizon now = q.horizon now := by
  rw [horizon, horizon, h]

/-- An operation moves the horizon on by its span at most. -/
theorem horizon_apply_le (op : Operation) (q : PlayoutQueue) (now : Nanos) :
    (op.apply now q).1.horizon now ≤ q.horizon now + op.span := by
  cases op with
  | append f => exact Nat.le_of_eq (horizon_congr (q.nextRead_insertAt _ f) now)
  | write data => exact Nat.le_of_eq (horizon_congr (q.nextRead_insertAt _ (.untimed data)) now)
  | read n => exact Nat.le_of_eq (horizon_congr (q.limits_read n).2.2.1 now)
  | flush => exact Nat.max_le.mpr ⟨Nat.le_max_left _ _, Nat.zero_le _⟩
  | sort => exact Nat.le_refl _
  | timedRead n interval =>
      rcases apply_timedRead_cases q now interval n with ⟨_, he⟩ | ⟨_, _, he⟩ | ⟨_, _, he⟩
      · rw [he]
        exact Nat.le_add_right _ _
      · rw [he]
        exact Nat.le_add_right _ _
      · rw [he]
        refine Nat.max_le.mpr ⟨Nat.le_add_right_of_le (Nat.le_max_left _ _), ?_⟩
        rw [(limits_read _ n).2.2.1]
        exact Nat.add_le_add_right (q.due_le_horizon now) interval

/-- An operation comes to its end if all fragments are timely and the clock can tell the time. -/
theorem Timely.carryOut? (h : q.Timely) {op : Operation} (ht : q.horizon now + op.span ≤ last) :
    op.carryOut? last now q = .ok (op.apply now q) := by
  cases op with
  | read n =>
      simp only [Operation.carryOut?, h.read? n]
      rfl
  | timedRead n interval =>
      by_cases hplain : interval = 0 ∨ now < q.nextRead.getD now
      · exact carryOut?_timedRead_of_not_due hplain
      · obtain ⟨hi, hlt⟩ := not_or.mp hplain
        have hd := Nat.le_of_not_lt hlt
        have hl : q.nextRead.getD now + interval ≤ last :=
          Nat.le_trans (Nat.add_le_add_right (q.due_le_horizon now) interval) ht
        have hscheduled : (q.schedule now interval).Timely := h
        rw [carryOut?_timedRead_of_due hi hd hl, hscheduled.read? n, apply_timedRead_of_due hi hd]
        rfl
  | _ => rfl

end PlayoutQueue

namespace Playout

open PlayoutQueue

variable {p : Playout} {last : Nanos}

/-! ### Steps and runs that come to their end -/

theorem stepAt?_eq {k : Nat} {s : Step} {r : Playout × Answer} (h : p.stepAt? last k s = .ok r) :
    r = p.stepAt k s := by
  unfold stepAt? at h
  cases hs : s.fragment? with
  | some f =>
      rw [hs] at h
      exact (Except.ok.inj h).symm
  | none =>
      rw [hs] at h
      rw [stepAt, hs]
      cases s with
      | advance t =>
          simp only [step?] at h
          split at h
          · cases h
          · exact (Except.ok.inj h).symm
      | operate op =>
          simp only [step?] at h
          cases hop : op.carryOut? last p.clock p.queue with
          | error left =>
              rw [hop] at h
              cases h
          | ok r' =>
              rw [hop] at h
              have hr := carryOut?_eq hop
              rw [← Except.ok.inj h, hr]
              rfl

/-- A run that comes to its end is the plain one. -/
theorem runAt?_eq {ms : List (Nat × Step)} {r : Playout × List Answer}
    (h : p.runAt? last ms = .ok r) : r = p.runAt ms := by
  induction ms generalizing p r with
  | nil => exact (Except.ok.inj h).symm
  | cons m ms ih =>
      rw [runAt?] at h
      cases hs : p.stepAt? last m.1 m.2 with
      | error left =>
          rw [hs] at h
          cases h
      | ok first =>
          rw [hs] at h
          obtain ⟨rest, hrest, rfl⟩ := exists_of_map_eq_ok h
          rw [ih hrest, stepAt?_eq hs]
          rfl

/-! ### Runs that last -/

/-- The time by which a step moves the clock or the timeline of the timed reads on. -/
def Step.span : Step → Nanos
  | .advance t => t
  | .operate op => op.span

/-- The later of the clock and the time at which the next timed read is due. -/
def horizon (p : Playout) : Nanos := p.queue.horizon p.clock

theorem horizon_stepAt_le (p : Playout) (k : Nat) (s : Step) :
    (p.stepAt k s).1.horizon ≤ p.horizon + s.span := by
  unfold stepAt
  cases hf : s.fragment? with
  | some f =>
      refine Nat.le_add_right_of_le (Nat.le_of_eq ?_)
      exact horizon_congr (p.queue.nextRead_insertAt k f) p.clock
  | none =>
      cases s with
      | advance t =>
          have hclock : p.clock ≤ p.horizon := Nat.le_max_left _ _
          have hdue : p.queue.nextRead.getD 0 ≤ p.horizon := Nat.le_max_right _ _
          exact Nat.max_le.mpr ⟨Nat.add_le_add_right hclock t, Nat.le_add_right_of_le hdue⟩
      | operate op => exact horizon_apply_le op p.queue p.clock

theorem timely_stepAt (h : p.queue.Timely) (k : Nat) {s : Step}
    (hs : ∀ f ∈ s.fragment?, f.Timely) : (p.stepAt k s).1.queue.Timely := by
  unfold stepAt
  cases hf : s.fragment? with
  | some f => exact h.insertAt (hs f hf) k
  | none =>
      cases s with
      | advance t => exact h
      | operate op =>
          refine Operation.Timely.apply ?_ h p.clock
          cases op with
          | append f => cases hf
          | _ => trivial

theorem timely_runAt (h : p.queue.Timely) {ms : List (Nat × Step)}
    (hms : ∀ m ∈ ms, ∀ f ∈ m.2.fragment?, f.Timely) : (p.runAt ms).1.queue.Timely := by
  induction ms generalizing p with
  | nil => exact h
  | cons m ms ih =>
      obtain ⟨hm, hrest⟩ := List.forall_mem_cons.mp hms
      exact ih (timely_stepAt h m.1 hm) hrest

theorem timely_create {wish : Nat} {cap : Option Nat} (h : create wish cap = .ok p) :
    p.queue.Timely := by
  rw [(eq_of_create (queue_of_create h)).2.2]
  exact nofun

/-- A step comes to its end if all fragments are timely and the clock can tell the time. -/
theorem stepAt?_of_timely (h : p.queue.Timely) {s : Step} (ht : p.horizon + s.span ≤ last) (k : Nat) :
    p.stepAt? last k s = .ok (p.stepAt k s) := by
  unfold stepAt?
  cases hf : s.fragment? with
  | some f => rfl
  | none =>
      rw [stepAt, hf]
      cases s with
      | advance t =>
          have hclock : p.clock + t ≤ last :=
            Nat.le_trans (Nat.add_le_add_right (Nat.le_max_left _ _) t) ht
          simp only [step?, if_neg (Nat.not_lt_of_le hclock)]
      | operate op =>
          simp only [step?, h.carryOut? ht]
          rfl

/-- All fragments of the steps are timely, and the steps take no more time than the clock can tell. -/
structure Lasts (last : Nanos) (ms : List (Nat × Step)) : Prop where
  timely : ∀ m ∈ ms, ∀ f ∈ m.2.fragment?, f.Timely
  time : (ms.map fun m => m.2.span).sum ≤ last

theorem runAt?_of_timely (h : p.queue.Timely) {ms : List (Nat × Step)}
    (hms : ∀ m ∈ ms, ∀ f ∈ m.2.fragment?, f.Timely)
    (ht : p.horizon + (ms.map fun m => m.2.span).sum ≤ last) :
    p.runAt? last ms = .ok (p.runAt ms) := by
  induction ms generalizing p with
  | nil => rfl
  | cons m ms ih =>
      obtain ⟨hm, hrest⟩ := List.forall_mem_cons.mp hms
      rw [List.map_cons, List.sum_cons, ← Nat.add_assoc] at ht
      have hfirst := stepAt?_of_timely h (Nat.le_trans (Nat.le_add_right _ _) ht) m.1
      have hhorizon := Nat.add_le_add_right (p.horizon_stepAt_le m.1 m.2)
        (ms.map fun m => m.2.span).sum
      rw [runAt?, hfirst]
      dsimp only
      rw [ih (timely_stepAt h m.1 hm) hrest (Nat.le_trans hhorizon ht)]
      rfl

/-- Runs of a fresh queue that last come to their end. -/
theorem runAt?_of_lasts {wish : Nat} {cap : Option Nat} (h : create wish cap = .ok p)
    {ms : List (Nat × Step)} (hms : Lasts last ms) : p.runAt? last ms = .ok (p.runAt ms) := by
  have hq := (eq_of_create (queue_of_create h)).2.2
  have hclock : p.clock = 0 := by
    unfold create at h
    obtain ⟨q, _, rfl⟩ := exists_of_map_eq_ok h
    rfl
  refine runAt?_of_timely (timely_create h) hms.timely ?_
  rw [horizon, hclock, hq]
  exact Nat.le_trans (Nat.le_of_eq (Nat.zero_add _)) hms.time

/-! ### Accounts -/

/-- A fragment is read in part, and so is one that is put in front of it. What is left of that one
is dropped by an overrun, the others are flushed, and a last one comes. -/
def halfRead : List (Nat × Step) :=
  [(0, .operate (.append ⟨[1, 2, 3, 4], 1000, 1, 5⟩)), (0, .operate (.read 1)),
    (0, .operate (.append ⟨[5, 6, 7], 1000, 1, 0⟩)), (0, .operate (.timedRead 2 20)),
    (1, .operate (.write [8, 9, 10])), (0, .operate .flush), (0, .operate (.write [11]))]

/-- A fragment that starts at the last moment of all, and a read of its first half. -/
def lastMoment : List (Nat × Step) :=
  [(0, .operate (.append ⟨[1, 2, 3, 4], 1000, 1, .longest⟩)), (0, .operate (.read 2))]

end Playout

end ConferenceMix
