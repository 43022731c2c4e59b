import ConferenceMix.Fault

/-! # Mailboxes

A `Mailbox` holds up to `capacity` payloads, first in first out, as long as its receiver is there.
Sending to a mailbox without receiver fails as closed, and to a full one as full. `send_eq_ok_iff`,
`send_eq_closed_iff` and `send_eq_full_iff` say exactly when each of the three happens. -/

namespace ConferenceMix

/-- Payloads on their way to a receiver. -/
structure Mailbox (π : Type) where
  capacity : Nat
  queue : List π
  /-- The receiver is there. -/
  isOpen : Bool
deriving DecidableEq, Repr

namespace Mailbox

variable {π : Type}

/-- An empty mailbox with its receiver. One without room for a payload cannot be made. -/
def create? (capacity : Nat) : Option (Mailbox π) :=
  if capacity = 0 then none else some ⟨capacity, [], true⟩

/-- Puts a payload behind the others. -/
def send (m : Mailbox π) (p : π) : Except SinkFault (Mailbox π) :=
  if !m.isOpen then .error .closed
  else if m.capacity ≤ m.queue.length then .error .full
  else .ok { m with queue := m.queue ++ [p] }

/-- Takes the payload at the front, if there is one. -/
def receive (m : Mailbox π) : Option π × Mailbox π :=
  match m.queue with
  | [] => (none, m)
  | p :: rest => (some p, { m with queue := rest })

/-- The receiver leaves, and all that is queued is lost. -/
def close (m : Mailbox π) : Mailbox π := { m with queue := [], isOpen := false }

theorem send_eq_ok_iff (m m' : Mailbox π) (p : π) :
    m.send p = .ok m' ↔
      m.isOpen ∧ m.queue.length < m.capacity ∧ m' = { m with queue := m.queue ++ [p] } := by
  unfold send
  cases h : m.isOpen with
  | false => simp
  | true =>
      by_cases hf : m.capacity ≤ m.queue.length
      · simp [hf, Nat.not_lt.mpr hf]
      · simp [hf, Nat.lt_of_not_le hf, eq_comm]

theorem send_eq_closed_iff (m : Mailbox π) (p : π) :
    m.send p = .error .closed ↔ m.isOpen = false := by
  unfold send
  cases h : m.isOpen with
  | false => simp
  | true => simp only [Bool.not_true, Bool.false_eq_true, if_false]; split <;> simp

theorem send_eq_full_iff (m : Mailbox π) (p : π) :
    m.send p = .error .full ↔ m.isOpen ∧ m.capacity ≤ m.queue.length := by
  unfold send
  cases h : m.isOpen with
  | false => simp
  | true => simp

end Mailbox

end ConferenceMix
