import ConferenceMix.Proofs.Playout.Accounts

/-! # Silence behind the sound of a read

A read that asks for more bytes than there are fills up with silence. While the queue waits for its
wish, and when it runs short in playing, the status of the read says so. There is one more way to
come up short: a queue that has been filling holds its wish and starts to play, but it holds fewer
bytes than are asked for (`PlayoutQueue.StartsShort`). Such a read reports that it was filled, and
the queue counts no underrun.

`Playout.complete_iff` says that this is the only way: in every state that a fresh queue comes to, a
step that reports a filled read has all bytes asked for exactly when it does not start short. -/

namespace ConferenceMix

open Pcm

namespace PlayoutQueue

variable {q : PlayoutQueue} {n : Nat}

/-! ### Reads that come up short -/

/-- The queue has been filling and holds its wish, but fewer than `n` bytes. -/
def StartsShort (q : PlayoutQueue) (n : Nat) : Prop :=
  q.filling = true ∧ q.wish ≤ q.held ∧ q.held < n

theorem StartsShort.not_waits (h : q.StartsShort n) : ¬ q.Waits := fun hw =>
  Nat.not_le_of_lt hw.2 h.2.1

theorem StartsShort.not_runsShort (h : q.StartsShort n) : ¬ q.RunsShort n := fun hr =>
  Bool.noConfusion (h.1.symm.trans hr.1)

/-- A queue whose wish is no less than what is asked for never starts short. -/
theorem not_startsShort_of_le (h : n ≤ q.wish) : ¬ q.StartsShort n := fun hs =>
  Nat.not_lt_of_le (Nat.le_trans h hs.2.1) hs.2.2

theorem short_cases (h : q.held < n) : q.Waits ∨ q.StartsShort n ∨ q.RunsShort n := by
  cases hf : q.filling with
  | false => exact .inr (.inr ⟨hf, h⟩)
  | true =>
      rcases Nat.lt_or_ge q.held q.wish with hlt | hge
      · exact .inl ⟨hf, hlt⟩
      · exact .inr (.inl ⟨hf, hge, h⟩)

theorem status_read_eq_filled_iff (q : PlayoutQueue) (n : Nat) :
    (q.read n).2.status = .filled ↔ ¬ q.Waits ∧ ¬ q.RunsShort n := by
  rw [status_read]
  split_ifs with hw hr <;> simp [*]

theorem underruns_read (q : PlayoutQueue) (n : Nat) :
    (q.read n).1.underruns =
      if (q.read n).2.status = .underrun then q.underruns + 1 else q.underruns := by
  rw [status_read]
  by_cases hw : q.Waits
  · rw [read_of_waits hw, if_pos hw]
    rfl
  · rw [read_eq_takeOut hw n, if_neg hw]
    by_cases hr : q.RunsShort n <;> simp [takeOut, hr]

theorem count_read_of_not_waits (h : q.Accounted) (hw : ¬ q.Waits) (n : Nat) :
    (q.read n).2.count = min n q.held := by
  rw [count_read, allowance, if_neg hw, List.length_take, h]

/-- A read reports the truth exactly when it does not start short. -/
theorem filled_complete_iff (h : q.Accounted) (n : Nat) :
    ((q.read n).2.status = .filled → (q.read n).2.count = n) ↔ ¬ q.StartsShort n := by
  rw [status_read_eq_filled_iff]
  constructor
  · intro hfull hs
    have hcount := hfull ⟨hs.not_waits, hs.not_runsShort⟩
    have hshort := hs.2.2
    rw [count_read_of_not_waits h hs.not_waits] at hcount
    omega
  · rintro hno ⟨hw, hr⟩
    have hn : ¬ q.held < n := fun hlt => (short_cases hlt).elim hw (Or.elim · hno hr)
    rw [count_read_of_not_waits h hw]
    omega

/-- A read of all there is gives it out with silence behind it, and leaves nothing. -/
theorem read_all (h : q.Sound) (hw : ¬ q.Waits) (hn : q.held ≤ n) :
    (q.read n).2.output = q.unread ++ List.replicate (n - q.held) 0 ∧
      (q.read n).1.queued = [] ∧ (q.read n).1.held = 0 := by
  have ht : q.unread.take (q.allowance n) = q.unread := by
    rw [allowance, if_neg hw]
    exact List.take_of_length_le (h.accounted ▸ hn)
  have hheld : (q.read n).1.held = 0 := by
    rw [held_read, ht, h.accounted, Nat.sub_self]
  refine ⟨?_, (h.read n).queued_eq_nil hheld, hheld⟩
  rw [output_read, ht, ← h.accounted]

end PlayoutQueue

/-! ### Steps -/

/-- The result of the read that took place, if one did. -/
def Answer.result? : Answer → Option ReadResult
  | .read r => some r
  | .timedRead (.read r) => some r
  | _ => none

namespace Playout

open PlayoutQueue

variable {p : Playout}

/-- The number of bytes that a step asks for. -/
def Step.asked : Step → Nat
  | .operate (.read n) => n
  | .operate (.timedRead n _) => n
  | _ => 0

/-- A step in which a read takes place reads as many bytes as it asks for, with another time for the
next timed read at most. -/
theorem read_of_result? {s : Step} {r : ReadResult} (h : (p.step s).2.result? = some r) :
    ∃ nextRead, (p.step s).1.queue = ({ p.queue with nextRead }.read s.asked).1 ∧
      r = ({ p.queue with nextRead }.read s.asked).2 := by
  cases s with
  | advance t => cases h
  | operate op =>
      cases op with
      | read n => exact ⟨p.queue.nextRead, rfl, (Option.some.inj h).symm⟩
      | timedRead n interval =>
          rcases apply_timedRead_cases p.queue p.clock interval n with
            ⟨_, he⟩ | ⟨_, _, he⟩ | ⟨_, _, he⟩
          · have hnone := (congrArg (fun o => o.2.result?) he).symm.trans h
            cases hnone
          · have hnone := (congrArg (fun o => o.2.result?) he).symm.trans h
            cases hnone
          · have hsome := (congrArg (fun o => o.2.result?) he).symm.trans h
            exact ⟨_, congrArg Prod.fst he, (Option.some.inj hsome).symm⟩
      | _ => cases h

/-- A step in which no read takes place leaves the fragments as they are, if it does not queue,
order or flush them. -/
theorem queued_step_of_result?_eq_none {s : Step} (hs : s.fragment? = none)
    (hsort : s ≠ .operate .sort) (hflush : s ≠ .operate .flush)
    (hr : (p.step s).2.result? = none) : (p.step s).1.queue.queued = p.queue.queued := by
  cases s with
  | advance t => rfl
  | operate op =>
      cases op with
      | append f => cases hs
      | write data => cases hs
      | read n => cases hr
      | timedRead n interval =>
          rw [step] at hr ⊢
          rcases apply_timedRead_cases p.queue p.clock interval n with
            ⟨_, he⟩ | ⟨_, _, he⟩ | ⟨_, _, he⟩
          · rw [he]
          · rw [he]
          · rw [he] at hr
            cases hr
      | flush => exact absurd rfl hflush
      | sort => exact absurd rfl hsort

/-- If the step is a read that reports to be filled, it has all the bytes asked for. -/
def Complete (p : Playout) (s : Step) : Prop :=
  ∀ r, (p.step s).2.result? = some r → r.status = .filled → r.count = s.asked

/-- If the step is a read that is padded with silence, it says so, and an underrun is counted. -/
def Candid (p : Playout) (s : Step) : Prop :=
  ∀ r, (p.step s).2.result? = some r → r.count < s.asked → r.status = .filling ∨
    r.status = .underrun ∧ (p.step s).1.queue.underruns = p.queue.underruns + 1

/-- The step is a read that takes place and starts short. -/
def StartingShort (p : Playout) (s : Step) : Prop :=
  (p.step s).2.result?.isSome ∧ p.queue.StartsShort s.asked

theorem complete_step_iff (h : p.queue.Accounted) (s : Step) :
    p.Complete s ↔ ¬ p.StartingShort s := by
  unfold Complete StartingShort
  cases hr : (p.step s).2.result? with
  | none => simp
  | some r =>
      obtain ⟨nextRead, _, rfl⟩ := read_of_result? hr
      have hd : ({ p.queue with nextRead } : PlayoutQueue).Accounted := h
      rw [Option.isSome_some, and_iff_right rfl]
      refine Iff.trans ?_ (filled_complete_iff hd s.asked)
      exact ⟨fun hc => hc _ rfl, fun hc r hr => Option.some.inj hr ▸ hc⟩

/-- Whoever reports only complete reads as filled reports all others for what they are. -/
theorem Complete.candid {s : Step} (h : p.Complete s) : p.Candid s := by
  intro r hr hlt
  obtain ⟨nextRead, hq, hread⟩ := read_of_result? hr
  cases hs : r.status with
  | filled => exact absurd (h r hr hs) (Nat.ne_of_lt hlt)
  | filling => exact .inl rfl
  | underrun =>
      refine .inr ⟨rfl, ?_⟩
      rw [hread] at hs
      rw [hq, underruns_read, if_pos hs]

/-! ### Runs -/

/-- **Only a read that starts short is padded without saying so.** In every state that a fresh queue
comes to, wherever each fragment has been queued, a step that reports a filled read has all the bytes
asked for exactly when it is not a read that finds a filling queue with its wish but fewer bytes than
asked for. And then it reports silence for what it is, and an underrun is counted. The states that a
queue comes to when each fragment is queued behind all that start no later are among these. -/
theorem complete_iff {wish : Nat} {cap : Option Nat} (h : create wish cap = .ok p) :
    (∀ (ms : List (Nat × Step)) (s : Step),
      ((p.runAt ms).1.Complete s ↔ ¬ (p.runAt ms).1.StartingShort s) ∧
        ((p.runAt ms).1.Complete s → (p.runAt ms).1.Candid s)) ∧
      ∀ ss, ∃ ms : List (Nat × Step), ms.map Prod.snd = ss ∧ p.runAt ms = p.run ss := by
  refine ⟨fun ms s => ⟨?_, Complete.candid⟩, p.exists_runAt_eq_run⟩
  exact complete_step_iff (sound_runAt (sound_create (queue_of_create h)) ms).accounted s

/-- Three bytes, and a read of the two that the queue wishes for. -/
def twoOfThree : List (Nat × Step) := [(0, .operate (.write [1, 2, 3])), (0, .operate (.read 2))]

/-- The read after that runs short and says so. -/
theorem complete_iff_twoOfThree :
    ∃ p, create 2 none = .ok p ∧
      (p.runAt twoOfThree).1.Complete (.operate (.timedRead 2 20)) ∧
      (p.runAt twoOfThree).1.Candid (.operate (.timedRead 2 20)) ∧
      ((p.runAt twoOfThree).1.step (.operate (.timedRead 2 20))).2 =
        .timedRead (.read ⟨.underrun, 1, some 0, 0, 0, [3, 0]⟩) := by
  have h : create 2 none = .ok ⟨⟨2, none, [], 0, true, none, 0, 0⟩, 0⟩ := rfl
  obtain ⟨hiff, hcandid⟩ := (complete_iff h).1 twoOfThree (.operate (.timedRead 2 20))
  have hc := hiff.mpr fun hs => not_startsShort_of_le (Nat.le_refl 2) hs.2
  exact ⟨_, h, hc, hcandid hc, by decide⟩

/-- A queue that wishes for one byte and has it reports that a read of four bytes was filled, and
counts no underrun. -/
theorem padded_when_starting_short :
    ∃ p, create 1 none = .ok p ∧
      ((p.run [.operate (.write [1])]).1.step (.operate (.read 4))).2 =
        .read ⟨.filled, 1, some 0, 0, 0, [1, 0, 0, 0]⟩ ∧
      ¬ (p.run [.operate (.write [1])]).1.Complete (.operate (.read 4)) ∧
      ¬ (p.run [.operate (.write [1])]).1.Candid (.operate (.read 4)) := by
  have hread : ((((Playout.mk ⟨1, none, [], 0, true, none, 0, 0⟩ 0).run
      [.operate (.write [1])]).1.step (.operate (.read 4))).2.result?) =
        some ⟨.filled, 1, some 0, 0, 0, [1, 0, 0, 0]⟩ := by decide
  refine ⟨_, rfl, by decide, fun hc => ?_, fun hc => ?_⟩
  · exact absurd (hc _ hread rfl) (by decide)
  · exact absurd (hc _ hread (by decide)) (by decide)

end Playout

end ConferenceMix
