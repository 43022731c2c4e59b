import ConferenceMix.Fault

/-! # Events

What a mixer reports while it works, in the order in which it happens. -/

namespace ConferenceMix

/-- Something that happened to a mixer. -/
inductive Event where
  | sourceAdded (source : SourceId)
  | sourceRemoved (source : SourceId)
  /-- A playout queue went over its cap and dropped bytes. -/
  | overrun (source : SourceId) (dropped : Nat)
  /-- A playout queue ran short. -/
  | underrun (source : SourceId)
  /-- The grid has a new number of rows, with this many sources present. -/
  | layoutChanged (rows sources : Nat)
  /-- The sink of a source did not take a payload. -/
  | sinkFault (source : SourceId) (sink : String) (fault : SinkFault)
deriving DecidableEq, Repr

end ConferenceMix
