import KernelListing.Proofs.FlowGraph.Landings

/-!
# Places in a graph

The place of an instruction is the id of its block and its offset there. `FlowGraph.places` lists
the places of a graph, and `getElem?_places` finds the place of the `i`-th instruction among the
segments. `map_instruction?_places` says that the instructions at these places are those of the
statements, apart from the names that branches go by.
-/

namespace KernelListing

/-- The instruction, without the name it branches to if it is a branch. -/
def Instruction.unaddressed (i : Instruction) : Instruction :=
  if i.opcode = .bra then i.renameDestination "" else i

theorem Instruction.unaddressed_redirect (ss : List FlowGraph.Segment) (i : Instruction) :
    (FlowGraph.redirect ss i).unaddressed = i.unaddressed := by
  unfold FlowGraph.redirect Instruction.unaddressed
  split
  · next hop => simp [renameDestination, hop]
  · rfl

namespace FlowGraph

def instructions (g : FlowGraph) : List Instruction := g.blocks.flatMap (·.instructions)

/-- The places of the instructions of a graph, in the order of the blocks' ids. -/
def places (g : FlowGraph) : List (BlockId × Nat) :=
  g.blocks.flatMap fun b => (List.range b.instructions.length).map (b.id, ·)

def instruction? (g : FlowGraph) (p : BlockId × Nat) : Option Instruction :=
  (g.block? p.1).bind (·.instructions[p.2]?)

def placesOf (ss : List Segment) : List (BlockId × Nat) :=
  (numbered ss).flatMap fun (s, id) => (List.range s.instructions.length).map (id, ·)

theorem placesOf_concat (ss : List Segment) (s : Segment) :
    placesOf (ss ++ [s]) =
      placesOf ss ++ (List.range s.instructions.length).map (ss.length + 2, ·) := by
  simp [placesOf, numbered_concat]

theorem length_placesOf (ss : List Segment) : (placesOf ss).length = sizeOf ss := by
  induction ss using List.reverseRecOn with
  | nil => rfl
  | append_singleton ss s ih =>
    rw [placesOf_concat, List.length_append, ih, sizeOf_append, sizeOf_cons]
    simp [sizeOf]

theorem nodup_placesOf (ss : List Segment) : (placesOf ss).Nodup := by
  induction ss using List.reverseRecOn with
  | nil => exact List.nodup_nil
  | append_singleton ss s ih =>
    have hfront : ∀ p ∈ placesOf ss, p.1 ≠ ss.length + 2 := by
      intro p hp
      obtain ⟨⟨s', id⟩, hs', hp⟩ := List.mem_flatMap.1 hp
      obtain ⟨m, -, rfl⟩ := List.mem_map.1 hp
      obtain ⟨hid, hs'⟩ := mem_numbered.1 hs'
      have hlt := (List.getElem?_eq_some_iff.1 hs').1
      rintro (rfl : id = ss.length + 2)
      exact Nat.lt_irrefl _ hlt
    rw [placesOf_concat]
    refine List.nodup_append.2 ⟨ih, List.nodup_range.map fun _ _ h => (Prod.mk.inj h).2, ?_⟩
    rintro p hp _ hp' rfl
    obtain ⟨m, -, rfl⟩ := List.mem_map.1 hp'
    exact hfront _ hp rfl

/-- The `i`-th place is in the segment that has at most `i` instructions in front of it. -/
theorem getElem?_placesOf {ss : List Segment} {i : Nat} {p : BlockId × Nat} :
    (placesOf ss)[i]? = some p ↔ ∃ (k : Nat) (s : Segment), ss[k]? = some s ∧
      ∃ m < s.instructions.length, i = sizeOf (ss.take k) + m ∧ p = (k + 2, m) := by
  induction ss using List.reverseRecOn with
  | nil => simp [placesOf]
  | append_singleton ss s ih =>
    rw [exists_concat (motive := fun k front s' => ∃ m < s'.instructions.length,
      i = sizeOf front + m ∧ p = (k + 2, m)), ← ih, placesOf_concat]
    by_cases hlt : i < sizeOf ss
    · rw [List.getElem?_append_left (by rwa [length_placesOf])]
      refine (or_iff_left ?_).symm
      rintro ⟨m, -, rfl, -⟩
      exact absurd hlt (Nat.not_lt.2 (Nat.le_add_right _ m))
    · have hle := Nat.le_of_not_lt hlt
      rw [List.getElem?_append_right (by rwa [length_placesOf]),
        List.getElem?_eq_none (l := placesOf ss) (by rwa [length_placesOf]), length_placesOf]
      simp only [List.getElem?_map, Option.map_eq_some_iff, List.getElem?_eq_some_iff,
        List.length_range, List.getElem_range, reduceCtorEq, false_or]
      constructor
      · rintro ⟨m, ⟨hm, rfl⟩, rfl⟩
        exact ⟨_, hm, (Nat.add_sub_cancel' hle).symm, rfl⟩
      · rintro ⟨m, hm, rfl, rfl⟩
        exact ⟨m, ⟨by rwa [Nat.add_sub_cancel_left], Nat.add_sub_cancel_left ..⟩, rfl⟩

theorem place_start {ss : List Segment} {k : Nat} {s : Segment} (hs : ss[k]? = some s)
    (hne : s.instructions ≠ []) : (placesOf ss)[sizeOf (ss.take k)]? = some (k + 2, 0) :=
  getElem?_placesOf.2 ⟨k, s, hs, 0, List.length_pos_iff.2 hne, rfl, rfl⟩

theorem getElem?_flatMap_instructions {ss : List Segment} {k m : Nat} {s : Segment}
    (hs : ss[k]? = some s) (hm : m < s.instructions.length) :
    (ss.flatMap (·.instructions))[sizeOf (ss.take k) + m]? = s.instructions[m]? := by
  have hk := Nat.le_of_lt (List.getElem?_eq_some_iff.1 hs).1
  conv_lhs => rw [split_at hs, List.flatMap_append, List.flatMap_cons]
  rw [List.take_left' (List.length_take_of_le hk), sizeOf,
    List.getElem?_append_right (Nat.le_add_right ..), Nat.add_sub_cancel_left,
    List.getElem?_append_left hm]

theorem getElem?_instructions {ss : List Statement} {o : Outline} (h : outline ss = .ok o)
    {k m : Nat} {s : Segment} (hs : o.filled[k]? = some s) (hm : m < s.instructions.length) :
    (Statement.instructions ss)[sizeOf (o.filled.take k) + m]? = s.instructions[m]? := by
  rw [← instructions_filled h, getElem?_flatMap_instructions hs hm]

namespace Outline

theorem block?_graph (o : Outline) (k : Nat) :
    o.graph.block? (k + 2) =
      o.filled[k]?.map fun s => (s.redirect o.filled).block (k + 2) := by
  rw [graph, block?_padded, block?_slotsOf, List.getElem?_map, Option.map_map]
  rfl

theorem blocks_graph (o : Outline) :
    o.graph.blocks = FlowGraph.empty.blocks ++
      (numbered o.filled).map fun (s, id) => (s.redirect o.filled).block id := by
  have hnone : ∀ n, (List.replicate n (none : Option Block)).filterMap id = [] := fun n =>
    List.filterMap_eq_nil_iff.2 fun x hx => List.eq_of_mem_replicate hx
  simp only [graph, padded, blocks, slotsOf, numbered, List.filterMap_append, List.filterMap_map,
    List.zipIdx_map, hnone, List.append_nil]
  simp

theorem places_graph (o : Outline) : o.graph.places = placesOf o.filled := by
  rw [places, blocks_graph, List.flatMap_append, List.flatMap_map, placesOf]
  simp [FlowGraph.empty, blocks, Segment.redirect, Segment.block]

theorem instruction?_graph {o : Outline} {k m : Nat} {s : Segment} (hs : o.filled[k]? = some s) :
    o.graph.instruction? (k + 2, m) = s.instructions[m]?.map (redirect o.filled) := by
  simp [instruction?, block?_graph, hs, Segment.redirect, Segment.block]

end Outline

theorem instructions_graph (o : Outline) :
    o.graph.instructions = (o.filled.flatMap (·.instructions)).map (redirect o.filled) := by
  have hempty : FlowGraph.empty.blocks.flatMap (·.instructions) = [] := rfl
  have hsegments : ∀ f : Segment → List Instruction,
      (numbered o.filled).flatMap (fun p => f p.1) = o.filled.flatMap f := by
    intro f
    rw [← List.flatMap_map Prod.fst f, numbered, List.zipIdx_map_fst]
  rw [instructions, o.blocks_graph, List.flatMap_append, hempty, List.nil_append, List.flatMap_map,
    List.map_flatMap]
  exact hsegments fun s => s.instructions.map (redirect o.filled)

end FlowGraph

end KernelListing
