import ConferenceMix.Proofs.Finality
import ConferenceMix.Proofs.Session.Channels

/-! # What audio bridges and video walls send to mailboxes

Both kinds of mixer yield one payload for every registered source in each round and leave it to the
mixer to report those that were not taken. So nothing gets lost silently on its way to the receiver
for a source that has come with a mailbox (`loses_nothing`). -/

namespace ConferenceMix

open Pcm

/-- **No silent loss into a mailbox.** Audio bridges and video walls with accepted settings can be
made, and moves carry out all their runs. Whatever moves come before and after a source that comes
with an empty mailbox of any capacity, the payloads that the receiver has taken out and those that
are queued are, as long as it is there, those that the rounds have yielded for the source but for
those that were refused. These were refused because the mailbox was full or closed, and each has
been reported once and counted once. -/
theorem loses_nothing :
    (∀ s : AudioSettings, s.Accepted → ∃ b : AudioBridge, AudioBridge.create s = .ok b ∧
      (∀ as : List (Action Packet AudioRequest), ∃ vs, b.follow vs = b.run as) ∧
      b.LosesNothing) ∧
    ∀ (s : VideoSettings) (paint : Painter), s.Accepted →
      ∃ v : VideoWall, VideoWall.create s paint = .ok v ∧
        (∀ as : List (Action View VideoRequest), ∃ vs, v.follow vs = v.run as) ∧
        v.LosesNothing := by
  constructor
  · intro s h
    have hpos : 0 < Mixing.interval s := AudioSettings.packetTime_pos h
    exact ⟨Mixer.create s, AudioBridge.create_of_accepted h,
      Mixer.exists_follow_eq_run hpos (Mixer.settle_create s), Mixer.losesNothing_create s⟩
  · intro s paint h
    obtain ⟨black, hcreate, hpos⟩ := VideoWall.exists_create h paint
    exact ⟨_, hcreate, Mixer.exists_follow_eq_run hpos (Mixer.settle_create _),
      Mixer.losesNothing_create _⟩

/-- A mailbox with room for one payload. -/
def single {π : Type} : Mailbox π := ⟨1, [], true⟩

/-- A source comes with a mailbox for one payload and stays for three rounds. The receiver takes a
payload out before the last of them. -/
def slowly {π α : Type} (t : Nanos) : List (Move π α) :=
  [.act (.join (.mailbox "slow" single)), .look, .act (.advance t), .look, .act (.receive .first),
    .act (.advance t), .look]

/-- A source comes with a mailbox for one payload and leaves after a round. The receiver takes out
what is left. -/
def belatedly {π α : Type} : List (Move π α) :=
  [.act (.join (.mailbox "late" single)), .look, .act (.leave .first), .act (.receive .first)]

theorem loses_nothing_single :
    (∃ b : AudioBridge, AudioBridge.create ⟨1000, 1, .ofMillis 2, 1, none, 4⟩ = .ok b ∧
      (∃ box : Mailbox Packet, box.queue.length = 1 ∧
        receipts .first (b.deedsOf (slowly (.ofMillis 2))) ++ box.queue =
          (b.follow (slowly (.ofMillis 2))).2.acceptedBy .first) ∧
      (b.follow (slowly (.ofMillis 2))).2.events.filter
        (fun e => e.source? = some .first && e.isSinkFault) = [.sinkFault .first "slow" .full] ∧
      (b.follow (slowly (.ofMillis 2))).1.tally.sinkFaults = 1) ∧
    ∃ v : VideoWall, VideoWall.create ⟨⟨2, 2⟩, 500, 4⟩ .scaling = .ok v ∧
      (v.follow belatedly).1.roster.ids = [] ∧
      ∃ box : Mailbox View, box.queue = [] ∧
        receipts .first (v.deedsOf belatedly) ++ box.queue =
          (v.follow belatedly).2.acceptedBy .first ∧
        ((v.follow belatedly).2.acceptedBy .first).length = 1 := by
  constructor
  · have ha : AudioSettings.Accepted ⟨1000, 1, .ofMillis 2, 1, none, 4⟩ := by decide
    obtain ⟨b, hb, _, hnothing⟩ := loses_nothing.1 _ ha
    cases hb
    have hc := hnothing [] (slowly (.ofMillis 2)).tail "slow" single .first rfl rfl
    obtain ⟨box, hbox, _, hkeeps, _⟩ := hc.kept
    have hopen : some box.isOpen = some true :=
      (congrArg (Option.map Mailbox.isOpen) hbox).symm.trans (by decide +kernel)
    have hlength : some box.queue.length = some 1 :=
      (congrArg (Option.map fun box : Mailbox Packet => box.queue.length) hbox).symm.trans
        (by decide +kernel)
    exact ⟨_, rfl, ⟨box, Option.some.inj hlength, hkeeps.ofOpen (Option.some.inj hopen)⟩,
      hc.reported.trans (by decide +kernel), hc.counted.trans (by decide +kernel)⟩
  · have ha : VideoSettings.Accepted ⟨⟨2, 2⟩, 500, 4⟩ := by decide
    obtain ⟨v, hv, _, hnothing⟩ := loses_nothing.2 _ .scaling ha
    cases hv
    have hc := hnothing [] belatedly.tail "late" single .first rfl rfl
    obtain ⟨box, hbox, _, hkeeps, _⟩ := hc.kept
    have hopen : some box.isOpen = some true :=
      (congrArg (Option.map Mailbox.isOpen) hbox).symm.trans (by decide +kernel)
    have hqueue : some box.queue = some [] :=
      (congrArg (Option.map Mailbox.queue) hbox).symm.trans (by decide +kernel)
    exact ⟨_, rfl, by decide +kernel, box, Option.some.inj hqueue,
      hkeeps.ofOpen (Option.some.inj hopen), by decide +kernel⟩

end ConferenceMix
