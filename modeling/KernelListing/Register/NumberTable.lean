import KernelListing.Register.Numbering

/-!
# Numbers by name and names by number

A `NumberTable` is a numbering that is kept twice, so that neither a name nor a number has to be
searched for: the number of each name stands in one list, the name of each number in another. A new
name is entered into both, one after the other. Numbers are words of 32 bits, and there is none for
a new name once `capacity` names have theirs.
-/

namespace KernelListing

structure NumberTable where
  /-- The number of each name; what was entered last stands first. -/
  numbers : List (String × UInt32) := []
  /-- The names, in the order in which they were met. -/
  names : List String := []
  deriving DecidableEq, Repr, Inhabited

namespace NumberTable

/-- How many names can have numbers: as many as there are words below the greatest. -/
def capacity : Nat := 0xFFFFFFFF

def size (t : NumberTable) : Nat := t.names.length

def get? (t : NumberTable) (name : String) : Option UInt32 := t.numbers.lookup name

def name? (t : NumberTable) (number : UInt32) : Option String := t.names[number.toNat]?

/-- The names with their numbers, in the order of the numbers. -/
def toList (t : NumberTable) : List (String × UInt32) :=
  t.names.zipIdx.map fun (name, position) => (name, UInt32.ofNat position)

/-- The table with a number for one more name. -/
def enter (t : NumberTable) (name : String) (number : UInt32) : NumberTable :=
  let t := { t with names := t.names ++ [name] }
  { t with numbers := (name, number) :: t.numbers }

/-- The number of a name, which is the next free one if it has none yet. -/
def allocate? (name : String) : StateT NumberTable Option UInt32 := fun t =>
  match t.get? name with
  | some number => some (number, t)
  | none =>
    if t.size < capacity then
      let number := UInt32.ofNat t.size
      some (number, t.enter name number)
    else none

/-- The number of a name as registers hold it. -/
def numberOf? (name : String) : StateT NumberTable Option Nat := UInt32.toNat <$> allocate? name

/-- Numbers the registers of a graph, unless there are more names than numbers. -/
def assign? (t : NumberTable) (g : FlowGraph) : Option (FlowGraph × NumberTable) :=
  g.numberRegisters numberOf? t

/-- Numbers the registers of a graph from zero. -/
def ofGraph? (g : FlowGraph) : Option (FlowGraph × NumberTable) := assign? {} g

/-- The numbering that a table keeps. -/
def numbering (t : NumberTable) : Numbering := ⟨t.names⟩

end NumberTable

end KernelListing
