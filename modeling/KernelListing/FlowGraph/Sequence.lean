import KernelListing.FlowGraph.Basic

/-!
# Linear order of the blocks

`sequence` lists the blocks in an order that can be written down as text: control that falls
through from one block to another finds that block right behind. Blocks are placed in the order
of their ids, except that a block waits for the one that falls into it, and that placing a
block places the whole chain of fall-through successors behind it (`place`). The exit block
comes last.

`sequence?` keeps a table of the blocks that have their places, with an entry for each id that was
handed out, and has no order to give once it looks for an entry that is not there.
-/

namespace KernelListing.FlowGraph

/-- The block that control falls into behind a block. -/
def fallThroughSuccessor? (g : FlowGraph) (id : BlockId) : Option BlockId :=
  ((g.successors id).find? (·.kind = .fallThrough)).map (·.tail)

/-- The block that falls into a block. -/
def fallThroughPredecessor? (g : FlowGraph) (id : BlockId) : Option BlockId :=
  ((g.predecessors id).find? (·.kind = .fallThrough)).map (·.head)

/-- The first edge of a list along which control falls. -/
theorem fallThrough_of_find? {es : List Edge} {e : Edge}
    (h : es.find? (·.kind = .fallThrough) = some e) :
    e ∈ es ∧ e = ⟨e.head, e.tail, .fallThrough⟩ := by
  have hkind : e.kind = .fallThrough := by simpa using List.find?_some h
  exact ⟨List.mem_of_find?_eq_some h, by rw [← hkind]⟩

theorem exists_edge_of_fallThroughSuccessor? {g : FlowGraph} {id next : BlockId}
    (h : g.fallThroughSuccessor? id = some next) : ⟨id, next, .fallThrough⟩ ∈ g.edges := by
  obtain ⟨e, he, rfl⟩ := Option.map_eq_some_iff.1 h
  obtain ⟨hmem, heq⟩ := fallThrough_of_find? he
  obtain ⟨hmem, rfl⟩ := mem_successors.1 hmem
  rwa [← heq]

theorem exists_edge_of_fallThroughPredecessor? {g : FlowGraph} {id head : BlockId}
    (h : g.fallThroughPredecessor? id = some head) : ⟨head, id, .fallThrough⟩ ∈ g.edges := by
  obtain ⟨e, he, rfl⟩ := Option.map_eq_some_iff.1 h
  obtain ⟨hmem, heq⟩ := fallThrough_of_find? he
  obtain ⟨hmem, rfl⟩ := mem_predecessors.1 hmem
  rwa [← heq]

theorem exists_fallThroughSuccessor? {g : FlowGraph} {head tail : BlockId}
    (h : ⟨head, tail, .fallThrough⟩ ∈ g.edges) :
    ∃ next, g.fallThroughSuccessor? head = some next := by
  rw [← Option.isSome_iff_exists, fallThroughSuccessor?, Option.isSome_map, List.find?_isSome]
  exact ⟨_, mem_successors.2 ⟨h, rfl⟩, rfl⟩

theorem exists_fallThroughPredecessor? {g : FlowGraph} {head tail : BlockId}
    (h : ⟨head, tail, .fallThrough⟩ ∈ g.edges) :
    ∃ pred, g.fallThroughPredecessor? tail = some pred := by
  rw [← Option.isSome_iff_exists, fallThroughPredecessor?, Option.isSome_map, List.find?_isSome]
  exact ⟨_, mem_predecessors.2 ⟨h, rfl⟩, rfl⟩

/-- The edges that leave a block which has not been placed. -/
def unplacedEdges (g : FlowGraph) (placed : List BlockId) : List Edge :=
  g.edges.filter (·.head ∉ placed)

/-- Placing a block that has an edge leaves fewer edges at blocks without a place. -/
theorem length_unplacedEdges_lt {g : FlowGraph} {placed : List BlockId} {e : Edge}
    (he : e ∈ g.edges) (hp : e.head ∉ placed) :
    (g.unplacedEdges (placed ++ [e.head])).length < (g.unplacedEdges placed).length := by
  have hsplit : g.unplacedEdges (placed ++ [e.head]) =
      (g.unplacedEdges placed).filter (·.head ≠ e.head) := by
    simp only [unplacedEdges, List.filter_filter]
    congr 1
    funext e'
    by_cases h : e'.head = e.head <;> simp [h]
  rw [hsplit, List.length_filter_lt_length_iff_exists]
  exact ⟨e, by simp [unplacedEdges, he, hp], by simp⟩

/-- Places a block and the chain of its fall-through successors, up to the exit block or a
block that has its place. -/
def place (g : FlowGraph) (placed : List BlockId) (id : BlockId) : List BlockId :=
  if h : id = exit ∨ id ∈ placed then placed
  else
    match hnext : g.fallThroughSuccessor? id with
    | none => placed ++ [id]
    | some next =>
      have := length_unplacedEdges_lt (exists_edge_of_fallThroughSuccessor? hnext)
        fun hmem => h (.inr hmem)
      place g (placed ++ [id]) next
termination_by (g.unplacedEdges placed).length

/-- The exit block and a block with a place are not placed. -/
theorem place_of_mem {g : FlowGraph} {placed : List BlockId} {id : BlockId}
    (h : id = exit ∨ id ∈ placed) : g.place placed id = placed := by
  rw [place, dif_pos h]

/-- A block that falls through nowhere is placed alone. -/
theorem place_of_none {g : FlowGraph} {placed : List BlockId} {id : BlockId}
    (h : ¬ (id = exit ∨ id ∈ placed)) (hnext : g.fallThroughSuccessor? id = none) :
    g.place placed id = placed ++ [id] := by
  rw [place, dif_neg h]
  split <;> simp_all

/-- A block that falls through is placed in front of its successor. -/
theorem place_of_some {g : FlowGraph} {placed : List BlockId} {id next : BlockId}
    (h : ¬ (id = exit ∨ id ∈ placed)) (hnext : g.fallThroughSuccessor? id = some next) :
    g.place placed id = g.place (placed ++ [id]) next := by
  rw [place, dif_neg h]
  split
  · simp_all
  · next h' =>
    cases hnext.symm.trans h'
    rfl

/-- Places a block in its turn, unless it waits for the block that falls into it. -/
def placeInTurn (g : FlowGraph) (placed : List BlockId) (b : Block) : List BlockId :=
  if (g.fallThroughPredecessor? b.id).any (· ∉ placed) then placed else g.place placed b.id

/-- The blocks in an order that can be written down as text. -/
def sequence (g : FlowGraph) : List BlockId := g.blocks.foldl g.placeInTurn [] ++ [exit]

/-! ## Places in a table -/

/-- The blocks that have their places, in their order and in a table by their ids. -/
structure Layout where
  /-- For each id that was handed out, whether its block has its place. -/
  placed : List Bool
  order : List BlockId := []
  deriving DecidableEq, Repr

namespace Layout

/-- The layout with one more block. -/
def push (l : Layout) (id : BlockId) : Layout :=
  { placed := l.placed.set id true, order := l.order ++ [id] }

/-- One more block leaves fewer without a place. -/
theorem count_push_lt {l : Layout} {id : BlockId} (h : l.placed[id]? = some false) :
    (l.push id).placed.count false < l.placed.count false := by
  obtain ⟨hid, hfalse⟩ := List.getElem?_eq_some_iff.1 h
  have hpos : 0 < l.placed.count false := List.count_pos_iff.2 (hfalse ▸ List.getElem_mem hid)
  rw [push, List.count_set hid, hfalse]
  exact Nat.sub_lt hpos Nat.one_pos

end Layout

/-- Places a block and the chain of its fall-through successors, like `place`. -/
def place? (g : FlowGraph) (l : Layout) (id : BlockId) : Option Layout :=
  if id = exit then some l
  else
    match hid : l.placed[id]? with
    | none => none
    | some true => some l
    | some false =>
      have := Layout.count_push_lt hid
      match g.fallThroughSuccessor? id with
      | none => some (l.push id)
      | some next => place? g (l.push id) next
termination_by l.placed.count false

theorem place?_of_placed {g : FlowGraph} {l : Layout} {id : BlockId}
    (h : id = exit ∨ l.placed[id]? = some true) : g.place? l id = some l := by
  rw [place?]
  split
  · rfl
  · next hexit =>
    have hplaced := h.resolve_left hexit
    split <;> simp_all

theorem place?_of_none {g : FlowGraph} {l : Layout} {id : BlockId} (hexit : id ≠ exit)
    (hid : l.placed[id]? = some false) (hnext : g.fallThroughSuccessor? id = none) :
    g.place? l id = some (l.push id) := by
  rw [place?, if_neg hexit]
  split <;> simp_all

theorem place?_of_some {g : FlowGraph} {l : Layout} {id next : BlockId} (hexit : id ≠ exit)
    (hid : l.placed[id]? = some false) (hnext : g.fallThroughSuccessor? id = some next) :
    g.place? l id = g.place? (l.push id) next := by
  rw [place?, if_neg hexit]
  split <;> simp_all

/-- Whether a block waits for the one that falls into it. -/
def waits? (g : FlowGraph) (l : Layout) (id : BlockId) : Option Bool :=
  match g.fallThroughPredecessor? id with
  | none => some false
  | some head => l.placed[head]?.map (! ·)

/-- Places a block in its turn, like `placeInTurn`. -/
def placeInTurn? (g : FlowGraph) (l : Layout) (b : Block) : Option Layout :=
  if b.id = exit then some l
  else do
    if ← l.placed[b.id]? then return l
    else if ← g.waits? l b.id then return l
    else g.place? l b.id

/-- The order of the blocks, unless one has an id that was never handed out. -/
def sequence? (g : FlowGraph) : Option (List BlockId) := do
  let l ← g.blocks.foldlM g.placeInTurn? { placed := List.replicate g.issued false }
  return l.order ++ [exit]

end KernelListing.FlowGraph
