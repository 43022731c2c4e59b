/-! # Identities of sources

Every source of a mixer has a number of its own, handed out in the order of registration and never
handed out twice. `SourceId.text` is how a source is named to people. -/

namespace ConferenceMix

/-- The number of a source. -/
structure SourceId where
  number : Nat
deriving DecidableEq, Repr

namespace SourceId

/-- The name under which a source appears in messages. -/
def text (id : SourceId) : String := "src#" ++ toString id.number

/-- The first source of a mixer. -/
def first : SourceId := ⟨1⟩

/-- The source registered after this one. -/
def next (id : SourceId) : SourceId := ⟨id.number + 1⟩

instance : LT SourceId := ⟨fun a b => a.number < b.number⟩

instance : LE SourceId := ⟨fun a b => a.number ≤ b.number⟩

instance (a b : SourceId) : Decidable (a < b) := inferInstanceAs (Decidable (a.number < b.number))

instance (a b : SourceId) : Decidable (a ≤ b) := inferInstanceAs (Decidable (a.number ≤ b.number))

theorem lt_next (id : SourceId) : id < id.next := Nat.lt_succ_self id.number

/-- The identities of a list in ascending order. -/
def sort (ids : List SourceId) : List SourceId := ids.mergeSort (fun a b => decide (a ≤ b))

/-- The number of different identities in a list. -/
def distinct (ids : List SourceId) : Nat := ids.eraseDups.length

end SourceId

end ConferenceMix
