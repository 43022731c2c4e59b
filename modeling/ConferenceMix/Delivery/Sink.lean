import ConferenceMix.Delivery.Mailbox

/-! # Sinks

A `Sink` is where a source receives its payloads: a rule that answers each write, or the sending end
of a mailbox. A `Response` says whether the payload was taken and whether the sink stopped the
mixer while it was called. -/

namespace ConferenceMix

/-- What a sink does when it is offered a payload. -/
structure Response where
  /-- Why the payload is not taken, if it is not. -/
  fault : Option SinkFault
  /-- The sink stops the mixer that calls it. -/
  stops : Bool
deriving DecidableEq, Repr

namespace Response

/-- The payload is taken. -/
def taken : Response := ⟨none, false⟩

/-- The payload is not taken. -/
def refused (f : SinkFault) : Response := ⟨some f, false⟩

end Response

/-- A receiver of payloads. -/
inductive Sink (π : Type) where
  /-- Answers write number `n`, counted from one, of a payload `p` by `respond n p`. -/
  | rule (name : String) (writes : Nat) (respond : Nat → π → Response)
  /-- Sends payloads into a mailbox. -/
  | mailbox (name : String) (box : Mailbox π)

namespace Sink

variable {π : Type}

/-- A sink that answers writes by a rule. -/
def ofRule (name : String) (respond : Nat → π → Response) : Sink π := .rule name 0 respond

/-- A sink that takes everything and keeps nothing. -/
def discard : Sink π := ofRule "null" fun _ _ => .taken

/-- The sending end of a new mailbox, if one of this capacity can be made. -/
def ofMailbox? (name : String) (capacity : Nat) : Option (Sink π) :=
  (Mailbox.create? capacity).map (.mailbox name)

/-- The name under which a sink appears in events. -/
def name : Sink π → String
  | rule name .. => name
  | mailbox name _ => name

/-- Offers a payload. -/
def write (s : Sink π) (p : π) : Sink π × Response :=
  match s with
  | rule name writes respond => (rule name (writes + 1) respond, respond (writes + 1) p)
  | mailbox name box =>
      match box.send p with
      | .ok box' => (mailbox name box', .taken)
      | .error f => (mailbox name box, .refused f)

/-- Takes the next payload out of the mailbox behind a sink, if there is one. -/
def receive (s : Sink π) : Option π × Sink π :=
  match s with
  | rule name writes respond => (none, rule name writes respond)
  | mailbox name box => (box.receive.1, mailbox name box.receive.2)

/-- Closes the mailbox behind a sink, if there is one. -/
def close : Sink π → Sink π
  | rule name writes respond => rule name writes respond
  | mailbox name box => mailbox name box.close

@[simp] theorem name_write (s : Sink π) (p : π) : (s.write p).1.name = s.name := by
  cases s with
  | rule => rfl
  | mailbox name box => simp only [write]; split <;> rfl

end Sink

end ConferenceMix
