import ConferenceMix.Exact.Rounding
import ConferenceMix.Word

/-! # Spans of time

Spans of time and clock readings are whole nanoseconds. A span has at most 64 bits for its whole
seconds (`Nanos.longest`), and a clock has a last reading; what breaks off beyond these is said where
spans are added up, and everything else is stated without a limit on time. `Nanos.text` writes a span
in the largest of the units `s`, `ms`, `µs` and `ns` that it reaches, with no trailing zeros after the
point.
`Nanos.ofPlayback frames rate` is the playing time of `frames` frames at `rate` frames a second,
rounded to the nearest nanosecond; at a rate of zero there is none. -/

namespace ConferenceMix

/-- A span of time, or the reading of a clock, in nanoseconds. -/
abbrev Nanos := Nat

namespace Nanos

/-- The longest span that can be told. -/
def longest : Nanos := wordCount * 1000000000 - 1

/-- The span of `ms` milliseconds. -/
def ofMillis (ms : Nat) : Nanos := ms * 1000000

/-- The span of `us` microseconds. -/
def ofMicros (us : Nat) : Nanos := us * 1000

/-- The whole milliseconds in a span. -/
def millis (t : Nanos) : Nat := t / 1000000

@[simp] theorem millis_ofMillis (ms : Nat) : millis (ofMillis ms) = ms := by
  simp [millis, ofMillis]

/-- The readings of a clock that stands at `start` and is moved by one span after another. -/
def readings (start : Nanos) : List Nanos → List Nanos
  | [] => []
  | t :: ts => (start + t) :: readings (start + t) ts

/-- The playing time of `frames` frames at `rate` frames a second: the quotient is taken with 53
significant binary digits, then rounded to the nearest nanosecond. -/
def ofPlayback (frames rate : Nat) : Option Nanos :=
  if rate = 0 then none else some (Exact.mulQuotient 1000000000 frames rate)

theorem ofPlayback_eq_none_iff (frames rate : Nat) : ofPlayback frames rate = none ↔ rate = 0 := by
  simp [ofPlayback]

/-! ### Text -/

/-- The decimal digits of `r / 10 ^ k` after the point, up to the last one that is not zero. -/
def fractionDigits : Nat → Nat → List Char
  | 0, _ => []
  | k + 1, r =>
      if r = 0 then []
      else Nat.digitChar (r / Nat.pow 10 k) :: fractionDigits k (r % Nat.pow 10 k)

/-- A span counted in units of `10 ^ k` nanoseconds. -/
def textIn (t : Nanos) (k : Nat) (unit : String) : String :=
  let fraction := fractionDigits k (t % Nat.pow 10 k)
  let tail := if fraction.isEmpty then "" else "." ++ String.ofList fraction
  toString (t / Nat.pow 10 k) ++ tail ++ unit

/-- A span in the largest unit of which it holds at least one. -/
def text (t : Nanos) : String :=
  if Nat.pow 10 9 ≤ t then t.textIn 9 "s"
  else if Nat.pow 10 6 ≤ t then t.textIn 6 "ms"
  else if Nat.pow 10 3 ≤ t then t.textIn 3 "µs"
  else t.textIn 0 "ns"

end Nanos

end ConferenceMix
