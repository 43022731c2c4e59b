import ConferenceMix.Proofs.AudioBridge.Requests
import ConferenceMix.Proofs.Pcm.Sums
import ConferenceMix.Proofs.Playout.Bytes
import ConferenceMix.Proofs.Session.Reports
import Mathlib.Data.List.Nodup

/-! # The parts of a round

In a round of an audio bridge every queue is read once (`AudioSettings.seats_mix`) and gives a
`part` of one packet. A source hears the sum of the parts of all others
(`AudioSettings.deduct_totals_parts`), and those whose queues run `short` are reported. -/

namespace ConferenceMix.AudioSettings

open Pcm

variable {s : AudioSettings} {l : List (SourceId × PlayoutQueue)}

theorem seats_mix (s : AudioSettings) (stamp : Nanos) (l : List (SourceId × PlayoutQueue)) :
    (s.mix stamp l).seats = l.map fun m => (m.2.read s.packetBytes).1 :=
  List.map_map

theorem seats_yield {t : AudioTick} (h : t.mixer.floor.room = s) :
    t.yield.seats = t.mixer.floor.seated.map fun m => (m.2.read s.packetBytes).1 := by
  rw [← h]
  exact seats_mix _ t.stamp _

/-! ### What is heard -/

/-- The samples that a queue gives in a round. -/
def part (s : AudioSettings) (q : PlayoutQueue) : List Int16 :=
  decode (q.read s.packetBytes).2.output

theorem length_part (s : AudioSettings) (q : PlayoutQueue) :
    (s.part q).length = s.packetSamples := by
  have hle : q.allowance s.packetBytes ≤ s.packetBytes := by
    unfold PlayoutQueue.allowance
    split
    · exact Nat.zero_le _
    · exact Nat.le_refl _
  rw [part, length_decode, q.output_read, List.length_append, List.length_replicate,
    List.length_take]
  unfold packetBytes at *
  omega

theorem payloads_mix (s : AudioSettings) (stamp : Nanos) (l : List (SourceId × PlayoutQueue)) :
    (s.mix stamp l).payloads = l.map fun m => s.packet stamp m.1
      (deduct (totals (l.map fun x => s.part x.2)) (s.part m.2)) := by
  have hids : (s.readAll l).map (fun r => r.1) = l.map Prod.fst := List.map_map
  have hparts : (s.readAll l).map (fun r => decode r.2.2.output) = l.map fun x => s.part x.2 :=
    List.map_map
  show List.zipWith (s.packet stamp) ((s.readAll l).map fun r => r.1)
    (mixMinus ((s.readAll l).map fun r => decode r.2.2.output)) = _
  rw [hids, hparts, mixMinus, List.map_map, List.zipWith_map, List.zipWith_self]
  rfl

theorem payloads_yield {t : AudioTick} (h : t.mixer.floor.room = s) :
    t.yield.payloads = t.mixer.floor.seated.map fun m => s.packet t.stamp m.1
      (deduct (totals (t.mixer.floor.seated.map fun x => s.part x.2)) (s.part m.2)) := by
  rw [← h]
  exact payloads_mix _ t.stamp _

theorem longest_parts {m : SourceId × PlayoutQueue} (hm : m ∈ l) :
    longest (l.map fun x => s.part x.2) = s.packetSamples := by
  apply Nat.le_antisymm
  · refine longest_le fun part hp => ?_
    obtain ⟨x, _, rfl⟩ := List.mem_map.mp hp
    exact Nat.le_of_eq (s.length_part x.2)
  · have hle := length_le_longest (List.mem_map_of_mem (f := fun x => s.part x.2) hm)
    rwa [length_part] at hle

/-- What is left for a source is the sum of the parts of all others. -/
theorem deduct_totals_parts (hn : (l.map Prod.fst).Nodup) {m : SourceId × PlayoutQueue}
    (hm : m ∈ l) : deduct (totals (l.map fun x => s.part x.2)) (s.part m.2) =
      (List.range s.packetSamples).map fun k =>
        saturate (sumAt ((l.filter (·.1 ≠ m.1)).map fun x => s.part x.2) k) := by
  have hothers : l.filter (· ≠ m) = l.filter (·.1 ≠ m.1) := by
    refine List.filter_congr fun x hx => decide_eq_decide.mpr (not_congr ?_)
    exact ⟨congrArg Prod.fst, fun he => List.inj_on_of_nodup_map hn hx hm he⟩
  apply List.ext_getElem?
  intro k
  by_cases hk : k < s.packetSamples
  · rw [getElem?_deduct_totals (longest_parts hm ▸ hk), List.getElem?_map,
      List.getElem?_range hk, Option.map_some, ← hothers,
      ← sum_others (List.Nodup.of_map _ hn) hm (fun x => s.part x.2) k]
  · rw [List.getElem?_eq_none (by rw [length_deduct, length_totals, longest_parts hm]; omega),
      List.getElem?_eq_none (by rw [List.length_map, List.length_range]; omega)]

/-! ### What is reported -/

/-- The sources whose queues run short. -/
def short (s : AudioSettings) (l : List (SourceId × PlayoutQueue)) : List SourceId :=
  (l.filter fun m => (m.2.read s.packetBytes).2.status = .underrun).map Prod.fst

theorem reports_mix (s : AudioSettings) (stamp : Nanos) (l : List (SourceId × PlayoutQueue)) :
    (s.mix stamp l).events = (s.short l).map .underrun ∧
      (s.mix stamp l).underruns = (s.short l).length := by
  have hshort : (s.readAll l).filter (fun r => r.2.2.status = .underrun) =
      (l.filter fun m => (m.2.read s.packetBytes).2.status = .underrun).map fun m =>
        (m.1, m.2.read s.packetBytes) := List.filter_map
  refine ⟨?_, ?_⟩
  · show ((s.readAll l).filter fun r => r.2.2.status = .underrun).map
      (fun r => Event.underrun r.1) = _
    rw [hshort, short, List.map_map, List.map_map]
    rfl
  · show ((s.readAll l).filter fun r => r.2.2.status = .underrun).length = _
    rw [hshort, short, List.length_map, List.length_map]

/-- A round of mixing reports the sources whose queues run short. -/
theorem filter_events_mix (s : AudioSettings) (stamp : Nanos)
    (l : List (SourceId × PlayoutQueue)) :
    (s.mix stamp l).events.filter Event.isUnderrun = (s.short l).map .underrun := by
  rw [(s.reports_mix stamp l).1]
  refine List.filter_eq_self.mpr fun e he => ?_
  obtain ⟨id, _, rfl⟩ := List.mem_map.mp he
  rfl

instance : ReportingMixing AudioSettings where
  underruns_mix s stamp l := by
    show (s.mix stamp l).underruns = ((s.mix stamp l).events.filter Event.isUnderrun).length
    rw [filter_events_mix, List.length_map]
    exact (s.reports_mix stamp l).2
  silent_welcome h := by
    obtain ⟨q, _, rfl⟩ := welcome_eq_ok h
    rfl
  silent_serve s now l r := by
    show (s.serve now l r).events.filter Event.isUnderrun = []
    cases r with
    | put id f =>
        unfold serve
        dsimp only
        split <;> rfl
    | operate id op => rfl

theorem short_sublist (s : AudioSettings) (l : List (SourceId × PlayoutQueue)) :
    (s.short l).Sublist (l.map Prod.fst) :=
  List.filter_sublist.map Prod.fst

theorem mem_short_iff (hn : (l.map Prod.fst).Nodup) {m : SourceId × PlayoutQueue} (hm : m ∈ l) :
    m.1 ∈ s.short l ↔ (m.2.read s.packetBytes).2.status = .underrun := by
  constructor
  · intro h
    obtain ⟨x, hx, he⟩ := List.mem_map.mp h
    obtain ⟨hx, hstatus⟩ := List.mem_filter.mp hx
    rw [← List.inj_on_of_nodup_map hn hx hm he]
    exact of_decide_eq_true hstatus
  · exact fun hstatus => List.mem_map_of_mem (List.mem_filter.mpr ⟨hm, decide_eq_true hstatus⟩)

end ConferenceMix.AudioSettings
