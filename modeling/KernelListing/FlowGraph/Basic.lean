import KernelListing.Instruction.Basic

/-!
# Control flow graphs

A graph is an arena of basic blocks together with a list of edges between them. The arena has a
slot for each block id; a slot is empty before its block is inserted and after it is removed.
Ids are handed out by `newId`, in ascending order and never twice. The entry and exit blocks
are there from the beginning and cannot be removed.

Each operation that has a precondition says so by returning a `Fault` where it is not met, and
leaves the graph as it was. The lemmas give the content of a slot after each operation.
-/

namespace KernelListing

/-- The id of a basic block. -/
abbrev BlockId := Nat

def BlockId.text (id : BlockId) : String := "b" ++ toString id

/-- A straight run of instructions. -/
structure Block where
  id : BlockId
  /-- The last label in front of the block, empty if there is none. -/
  label : String := ""
  /-- Free text that is written beside the label. -/
  comment : String := ""
  instructions : List Instruction := []
  deriving DecidableEq, Repr, Inhabited

def Block.isEmpty (b : Block) : Bool := b.instructions.isEmpty

/-- Why control passes from one block to another. -/
inductive EdgeKind where
  /-- By going on to the next instruction. -/
  | fallThrough
  /-- By a jump. -/
  | branch
  deriving DecidableEq, Repr, Inhabited

def EdgeKind.name : EdgeKind → String
  | fallThrough => "fallthrough"
  | branch => "branch"

/-- An edge, from the block `head` to the block `tail`. -/
structure Edge where
  head : BlockId
  tail : BlockId
  kind : EdgeKind
  deriving DecidableEq, Repr, Inhabited

def Edge.text (e : Edge) : String :=
  e.head.text ++ " -> " ++ e.tail.text ++ " (" ++ e.kind.name ++ ")"

/-- A control flow graph. -/
structure FlowGraph where
  /-- The slot of each block, by its id. -/
  slots : List (Option Block)
  /-- The edges, in the order in which they were inserted. -/
  edges : List Edge
  /-- The next block id to hand out. -/
  issued : Nat
  deriving DecidableEq, Repr

namespace FlowGraph

/-- Why an operation on a graph was refused. -/
inductive Fault where
  /-- All block ids have been handed out. -/
  | idsExhausted
  /-- The slot of a block is taken. -/
  | insertedTwice (id : BlockId)
  /-- The entry or exit block was to be removed. -/
  | permanentBlock
  /-- The slot of a block is empty. -/
  | missingBlock (id : BlockId)
  deriving DecidableEq, Repr

def Fault.message : Fault → String
  | idsExhausted => "out of block ids"
  | insertedTwice id => "block " ++ id.text ++ " inserted twice"
  | permanentBlock => "entry and exit blocks are permanent"
  | missingBlock id => "block " ++ id.text ++ " is not in the graph"

/-- The block in which every run starts. -/
def entry : BlockId := 0

/-- The block in which every run ends. -/
def exit : BlockId := 1

def entryLabel : String := "entry"

def exitLabel : String := "exit"

/-- The graph of the entry and exit blocks alone. -/
def empty : FlowGraph where
  slots := [some { id := entry, label := entryLabel }, some { id := exit, label := exitLabel }]
  edges := []
  issued := 2

instance : Inhabited FlowGraph := ⟨empty⟩

/-- How many block ids there are: those below the greatest thirty-two bit word. -/
def idLimit : Nat := 0xFFFFFFFF

def block? (g : FlowGraph) (id : BlockId) : Option Block := g.slots[id]?.join

/-- The blocks, in the order of their ids. -/
def blocks (g : FlowGraph) : List Block := g.slots.filterMap id

def size (g : FlowGraph) : Nat := g.blocks.length

def successors (g : FlowGraph) (id : BlockId) : List Edge := g.edges.filter (·.head = id)

def predecessors (g : FlowGraph) (id : BlockId) : List Edge := g.edges.filter (·.tail = id)

/-- Hands out a fresh block id. -/
def newId (g : FlowGraph) : Except Fault (BlockId × FlowGraph) :=
  if g.issued < idLimit then .ok (g.issued, { g with issued := g.issued + 1 })
  else .error .idsExhausted

/-- Puts a block into its slot, which must be empty. -/
def insertBlock (g : FlowGraph) (b : Block) : Except Fault FlowGraph :=
  if (g.block? b.id).isSome then .error (.insertedTwice b.id)
  else .ok { g with slots := (g.slots.rightpad (b.id + 1) none).set b.id (some b) }

/-- Takes a block out of its slot, together with every edge at it, and gives the block. If the
slot is empty nothing happens. -/
def removeBlock (g : FlowGraph) (id : BlockId) : Except Fault (Option Block × FlowGraph) :=
  if id = entry ∨ id = exit then .error .permanentBlock
  else
    match g.block? id with
    | none => .ok (none, g)
    | some b =>
      .ok (some b, { g with
        slots := g.slots.set id none
        edges := g.edges.filter fun e => e.head ≠ id ∧ e.tail ≠ id })

/-- Changes the block in a slot, which must not be empty. -/
def modifyBlock (g : FlowGraph) (id : BlockId) (f : Block → Block) : Except Fault FlowGraph :=
  match g.block? id with
  | none => .error (.missingBlock id)
  | some b => .ok { g with slots := g.slots.set id (some (f b)) }

/-- Adds an edge between two blocks, which must be there. -/
def insertEdge (g : FlowGraph) (e : Edge) : Except Fault FlowGraph :=
  if (g.block? e.head).isNone then .error (.missingBlock e.head)
  else if (g.block? e.tail).isNone then .error (.missingBlock e.tail)
  else .ok { g with edges := g.edges ++ [e] }

def mapBlocks (g : FlowGraph) (f : Block → Block) : FlowGraph :=
  { g with slots := g.slots.map (·.map f) }

theorem block?_eq_some_iff {g : FlowGraph} {id : BlockId} {b : Block} :
    g.block? id = some b ↔ g.slots[id]? = some (some b) := by
  simp [block?, Option.join_eq_some_iff]

/-- The blocks are what the slots hold. -/
theorem mem_blocks {g : FlowGraph} {b : Block} :
    b ∈ g.blocks ↔ ∃ id, g.block? id = some b := by
  simp only [blocks, List.mem_filterMap, id, exists_eq_right, block?_eq_some_iff]
  exact List.mem_iff_getElem?

theorem mem_successors {g : FlowGraph} {id : BlockId} {e : Edge} :
    e ∈ g.successors id ↔ e ∈ g.edges ∧ e.head = id := by
  simp [successors]

theorem mem_predecessors {g : FlowGraph} {id : BlockId} {e : Edge} :
    e ∈ g.predecessors id ↔ e ∈ g.edges ∧ e.tail = id := by
  simp [predecessors]

theorem block?_mapBlocks (g : FlowGraph) (f : Block → Block) (id : BlockId) :
    (g.mapBlocks f).block? id = (g.block? id).map f := by
  simp only [block?, mapBlocks, List.getElem?_map]
  cases g.slots[id]? <;> simp

/-- Padding the arena adds empty slots only. -/
theorem join_getElem?_rightpad (slots : List (Option Block)) (n : Nat) (id : BlockId) :
    (slots.rightpad n none)[id]?.join = slots[id]?.join := by
  simp only [List.rightpad]
  by_cases hlt : id < slots.length
  · rw [List.getElem?_append_left hlt]
  · rw [List.getElem?_append_right (Nat.le_of_not_lt hlt),
      List.getElem?_eq_none (Nat.le_of_not_lt hlt), List.getElem?_replicate]
    split <;> rfl

/-- An inserted block is in its slot, and all other slots hold what they held. -/
theorem block?_of_insertBlock {g g' : FlowGraph} {b : Block} (h : g.insertBlock b = .ok g')
    (id : BlockId) : g'.block? id = if id = b.id then some b else g.block? id := by
  simp only [insertBlock] at h
  split at h
  · exact absurd h (by simp)
  · cases h
    by_cases hid : id = b.id
    · rw [← hid]
      have hlt : id < (g.slots.rightpad (id + 1) none).length := by
        rw [List.length_rightpad]
        exact Nat.lt_of_lt_of_le (Nat.lt_succ_self id) (Nat.le_max_left ..)
      simp only [block?, List.getElem?_set_self hlt, if_true, Option.join_some]
    · simp only [block?, if_neg hid, List.getElem?_set_ne (Ne.symm hid)]
      exact join_getElem?_rightpad ..

/-- Inserting a block leaves the edges and the ids alone. -/
theorem edges_of_insertBlock {g g' : FlowGraph} {b : Block} (h : g.insertBlock b = .ok g') :
    g'.edges = g.edges ∧ g'.issued = g.issued := by
  simp only [insertBlock] at h
  split at h
  · exact absurd h (by simp)
  · cases h
    exact ⟨rfl, rfl⟩

/-- A slot with a block is one of the arena. -/
theorem lt_of_block? {g : FlowGraph} {id : BlockId} {b : Block} (h : g.block? id = some b) :
    id < g.slots.length :=
  (List.getElem?_eq_some_iff.1 (block?_eq_some_iff.1 h)).1

/-- A changed block is in its slot, and all other slots hold what they held. -/
theorem block?_of_modifyBlock {g g' : FlowGraph} {id : BlockId} {f : Block → Block}
    (h : g.modifyBlock id f = .ok g') (id' : BlockId) :
    g'.block? id' = if id' = id then (g.block? id).map f else g.block? id' := by
  simp only [modifyBlock] at h
  split at h
  · exact absurd h (by simp)
  · next b hb =>
    cases h
    by_cases hid : id' = id
    · subst hid
      have hlt := lt_of_block? hb
      rw [if_pos rfl, hb]
      simp [block?, List.getElem?_set_self hlt]
    · simp only [block?, if_neg hid, List.getElem?_set_ne (Ne.symm hid)]

/-- Changing a block leaves the edges and the ids alone. -/
theorem edges_of_modifyBlock {g g' : FlowGraph} {id : BlockId} {f : Block → Block}
    (h : g.modifyBlock id f = .ok g') : g'.edges = g.edges ∧ g'.issued = g.issued := by
  simp only [modifyBlock] at h
  split at h
  · exact absurd h (by simp)
  · cases h
    exact ⟨rfl, rfl⟩

/-- Removing gives the block that was in the slot and leaves the slot empty; all other slots
hold what they held. -/
theorem block?_of_removeBlock {g g' : FlowGraph} {id : BlockId} {b : Option Block}
    (h : g.removeBlock id = .ok (b, g')) (id' : BlockId) :
    b = g.block? id ∧ g'.block? id' = if id' = id then none else g.block? id' := by
  simp only [removeBlock] at h
  split at h
  · exact absurd h (by simp)
  · split at h
    · next hb =>
      cases h
      refine ⟨hb.symm, ?_⟩
      split
      · next hid => rw [hid, hb]
      · rfl
    · next b' hb =>
      cases h
      refine ⟨hb.symm, ?_⟩
      by_cases hid : id' = id
      · subst hid
        simp [block?, List.getElem?_set_self (lt_of_block? hb)]
      · simp only [block?, if_neg hid, List.getElem?_set_ne (Ne.symm hid)]

/-- An inserted edge comes last; nothing else changes. -/
theorem insertEdge_eq_ok {g g' : FlowGraph} {e : Edge} (h : g.insertEdge e = .ok g') :
    g' = { g with edges := g.edges ++ [e] } := by
  simp only [insertEdge] at h
  split at h
  · exact absurd h (by simp)
  · split at h
    · exact absurd h (by simp)
    · exact (Except.ok.inj h).symm

end FlowGraph

end KernelListing
