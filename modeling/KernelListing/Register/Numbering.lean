import KernelListing.Register.Walk

/-!
# Numbering of registers

A `Numbering` gives each register name a number, in the order in which the names are first
met, and never takes one back. `Numbering.assign` numbers the registers of a graph so. Since a
number is put in the place of the name, a second walk over the graph finds nothing to do.
-/

namespace KernelListing

/-- The names of the numbered registers; the number of a name is its position. -/
structure Numbering where
  names : List String := []
  deriving DecidableEq, Repr, Inhabited

namespace Numbering

def size (m : Numbering) : Nat := m.names.length

def get? (m : Numbering) (name : String) : Option Nat := m.names.idxOf? name

def name? (m : Numbering) (number : Nat) : Option String := m.names[number]?

/-- The names with their numbers, in the order of the numbers. -/
def toList (m : Numbering) : List (String × Nat) := m.names.zipIdx

/-- The number of a name, which is the next free one if it has none yet. -/
def allocate (name : String) : StateM Numbering Nat := fun m =>
  match m.get? name with
  | some number => (number, m)
  | none => (m.size, ⟨m.names ++ [name]⟩)

/-- Numbers the registers of a graph: the graph with numbers for names, and the numbering with
the new names. -/
def assign (m : Numbering) (g : FlowGraph) : FlowGraph × Numbering := g.numberRegisters allocate m

/-- Numbers the registers of a graph from zero. -/
def ofGraph (g : FlowGraph) : FlowGraph × Numbering := assign {} g

/-- Where no name stands twice, looking up a name and looking up a number are inverse. -/
theorem get?_eq_some_iff {m : Numbering} (h : m.names.Nodup) {name : String} {number : Nat} :
    m.get? name = some number ↔ m.name? number = some name := by
  simp only [get?, name?, List.idxOf?_eq_some_iff, List.getElem?_eq_some_iff]
  constructor
  · rintro ⟨hlt, heq, -⟩
    exact ⟨hlt, heq⟩
  · rintro ⟨hlt, rfl⟩
    refine ⟨hlt, rfl, fun j hj heq => ?_⟩
    exact absurd ((List.getElem_inj h).1 heq) (Nat.ne_of_lt hj)

end Numbering

end KernelListing
