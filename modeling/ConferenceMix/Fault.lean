import ConferenceMix.Picture.Format
import ConferenceMix.Identity

/-! # What can go wrong

Each kind of failure has its causes: `Misuse` for an argument that cannot be used, `Fault` for an
operation that a mixer refuses, `SinkFault` for a payload that a sink does not take, and
`PaintFault` for a picture that cannot be drawn. `message` gives the wording of each. -/

namespace ConferenceMix

/-- Why an argument cannot be used. -/
inductive Misuse where
  /-- The argument of this name is zero. -/
  | zero (argument : String)
  /-- A playout queue is given a cap of zero bytes. -/
  | zeroCap
  /-- The packet time is below one millisecond. -/
  | shortPacket
  /-- A packet of this many milliseconds holds no frame. -/
  | emptyPacket (millis rate channels : Nat)
  /-- The cap on the queue is below the length at which it starts playing. -/
  | capBelowWish (cap wish : Nat)
  /-- The frame rate is above one frame a millisecond. -/
  | fastFrames
  /-- A picture would have no pixels. -/
  | noPixels (size : Size)
  /-- A format with another number of planes is given this many. -/
  | planeCount (format : PixelFormat) (given : Nat)
  /-- The rows of a plane overlap. -/
  | narrowStride (plane stride rowBytes : Nat)
  /-- A plane ends before its last row does. -/
  | shortPlane (plane held needed : Nat)
  /-- The source to be shown large is not registered. -/
  | unregisteredFocus (id : SourceId)
  /-- Any other cause, in the caller's words. -/
  | other (argument reason : String)
deriving DecidableEq, Repr

namespace Misuse

/-- The name of the argument at fault. -/
def argument : Misuse → String
  | zero argument => argument
  | zeroCap => "max_size"
  | shortPacket => "ptime"
  | emptyPacket .. => "ptime"
  | capBelowWish .. => "jitter_max_frames"
  | fastFrames => "fps"
  | noPixels _ => "size"
  | planeCount .. => "planes"
  | narrowStride .. => "planes"
  | shortPlane .. => "planes"
  | unregisteredFocus _ => "focus"
  | other argument _ => argument

/-- What is wrong with the argument. -/
def reason : Misuse → String
  | zero _ => "must be non-zero"
  | zeroCap => "must be non-zero when set"
  | shortPacket => "must be at least 1ms"
  | emptyPacket millis rate channels =>
      toString millis ++ "ms at " ++ toString rate ++ "Hz x" ++ toString channels ++
        " yields an empty frame"
  | capBelowWish cap wish => toString cap ++ " is below the wish size of " ++ toString wish
  | fastFrames => "must not exceed 1000"
  | noPixels size => size.text ++ " has no pixels"
  | planeCount format given =>
      format.name ++ " needs " ++ toString format.planeCount ++ " planes, got " ++ toString given
  | narrowStride plane stride rowBytes =>
      "plane " ++ toString plane ++ " stride " ++ toString stride ++ " is below " ++
        toString rowBytes
  | shortPlane plane held needed =>
      "plane " ++ toString plane ++ " holds " ++ toString held ++ " bytes, needs " ++
        toString needed
  | unregisteredFocus id => id.text ++ " is not registered"
  | other _ reason => reason

end Misuse

/-- Why an operation on a mixer is refused. -/
inductive Fault where
  | misuse (cause : Misuse)
  /-- The thread of this name could not be started. -/
  | noThread (thread reason : String)
  | stopped
deriving DecidableEq, Repr

namespace Fault

/-- The wording of a refusal. -/
def message : Fault → String
  | misuse cause => "invalid argument: " ++ cause.argument ++ " - " ++ cause.reason
  | noThread thread reason => "failed to spawn mixer thread '" ++ thread ++ "': " ++ reason
  | stopped => "mixer is stopped"

end Fault

/-- Why a sink does not take a payload. -/
inductive SinkFault where
  | full
  | closed
  | custom (text : String)
deriving DecidableEq, Repr

namespace SinkFault

/-- The wording of a sink's refusal. -/
def message : SinkFault → String
  | full => "channel full"
  | closed => "channel closed"
  | custom text => text

end SinkFault

/-- Why a picture is not drawn into another. -/
inductive PaintFault where
  /-- No conversion leads from the one format to the other. -/
  | unsupported (source target : PixelFormat)
  | custom (text : String)
deriving DecidableEq, Repr

namespace PaintFault

/-- The wording of a failed drawing. -/
def message : PaintFault → String
  | unsupported source target =>
      "unsupported conversion from " ++ source.name ++ " to " ++ target.name
  | custom text => text

end PaintFault

end ConferenceMix
