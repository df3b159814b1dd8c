import Mathlib.Data.List.Forall2
import KernelListing.Proofs.Register.Numbering

/-!
# What numbering keeps

The graph before numbering and the graph after it, side by side: `Assigned m` relates what can
stand at the same place in the two, when `m` is the numbering at the end. A register that is visited
under a name has lost the name and has its number; an operand that is passed over, and every other
field of a block or an instruction, is as it was. `assign_assigned` says that this is what `assign`
does, with the names in the order in which they are first met.
-/

namespace KernelListing

/-- A register, before and after it is visited. -/
inductive Operand.ScalarAssigned (m : Numbering) : Operand → Operand → Prop where
  /-- A register without a name has its number already. -/
  | nameless {op : Operand} (h : op.name = "") : ScalarAssigned m op op
  /-- The number of the name takes its place. -/
  | named {op : Operand} {number : Nat} (h : op.name ≠ "")
    (hnumber : m.get? op.name = some number) :
    ScalarAssigned m op { op with name := "", number }

/-- An operand, before and after numbering. -/
inductive Operand.Assigned (m : Numbering) : Operand → Operand → Prop where
  /-- An operand that is no register or address with one, or a guard that always holds. -/
  | skipped {op : Operand} (h : op.isNumbered = false) : Assigned m op op
  | scalar {op op' : Operand} (h : op.isNumbered = true) (hscalar : op.elements = [])
    (hop : ScalarAssigned m op op') : Assigned m op op'
  | vector {op : Operand} {elements : List Operand} (h : op.isNumbered = true)
    (hvector : op.elements ≠ [])
    (helements : List.Forall₂ (ScalarAssigned m) op.elements elements) :
    Assigned m op { op with elements }

structure Instruction.Assigned (m : Numbering) (i i' : Instruction) : Prop where
  opcode : i'.opcode = i.opcode
  modifiers : i'.modifiers = i.modifiers
  type : i'.type = i.type
  operand : ∀ s, (i.operand s).Assigned m (i'.operand s)

structure Block.Assigned (m : Numbering) (b b' : Block) : Prop where
  id : b'.id = b.id
  label : b'.label = b.label
  comment : b'.comment = b.comment
  instructions : List.Forall₂ (Instruction.Assigned m) b.instructions b'.instructions

structure FlowGraph.Assigned (m : Numbering) (g g' : FlowGraph) : Prop where
  edges : g'.edges = g.edges
  issued : g'.issued = g.issued
  /-- The same slots are empty, and in the others stand the blocks after numbering. -/
  slots : List.Forall₂ (Option.Rel (Block.Assigned m)) g.slots g'.slots

namespace Numbering

/-! ## The names -/

/-- The names that are new come behind the others, each where it is first met. -/
theorem names_note (m : Numbering) (names : List String) :
    (m.note names).names = m.names ++ (names.filter (· ∉ m.names)).eraseDups := by
  induction names generalizing m with
  | nil => simp [note_nil]
  | cons name names ih =>
    rw [note_cons, ih, note_singleton]
    by_cases hmem : name ∈ m.names
    · rw [if_pos hmem, List.filter_cons_of_neg (by simpa using hmem)]
    · have hrest : names.filter (· ∉ m.names ++ [name]) =
          (names.filter (· ∉ m.names)).filter (! · == name) := by
        rw [List.filter_filter]
        refine List.filter_congr fun other _ => ?_
        by_cases hother : other = name <;> simp [hother]
      rw [if_neg hmem, List.filter_cons_of_pos (by simpa using hmem), List.eraseDups_cons, hrest,
        List.append_assoc, List.singleton_append]

theorem get?_of_mem {m : Numbering} {name : String} (h : name ∈ m.names) :
    m.get? name = some (m.number name) := by
  rw [get?, List.idxOf?, List.findIdx?_eq_some_iff_findIdx_eq]
  exact ⟨List.idxOf_lt_length_iff.2 h, rfl⟩

/-! ## The graph -/

section assigned

variable {m : Numbering}

theorem scalarAssigned_scalar {op : Operand} (h : op.ownName ⊆ m.names) :
    op.ScalarAssigned m (m.scalar op) := by
  unfold scalar
  unfold Operand.ownName at h
  split
  · next hempty => exact .nameless (by simpa using hempty)
  · next hempty =>
    rw [if_neg hempty] at h
    exact .named (by simpa using hempty) (get?_of_mem (h (List.mem_singleton_self _)))

theorem assigned_operand {op : Operand} (h : op.registerNames ⊆ m.names) :
    op.Assigned m (m.operand op) := by
  unfold operand
  unfold Operand.registerNames Operand.scalars at h
  cases hnumbered : op.isNumbered with
  | false => exact .skipped hnumbered
  | true =>
    rw [hnumbered, if_pos rfl] at h
    rw [Bool.not_true, if_neg Bool.false_ne_true]
    split
    · next hempty =>
      rw [if_pos hempty, List.flatMap_singleton] at h
      exact .scalar hnumbered (List.isEmpty_iff.1 hempty) (scalarAssigned_scalar h)
    · next hempty =>
      rw [if_neg hempty] at h
      refine .vector hnumbered (by simpa using hempty) ?_
      rw [List.forall₂_map_right_iff, List.forall₂_same]
      exact fun e he => scalarAssigned_scalar fun _ hname => h (List.mem_flatMap_of_mem he hname)

theorem assigned_instruction {i : Instruction} (h : i.registerNames ⊆ m.names) :
    i.Assigned m (m.instruction i) := by
  constructor
  · exact m.opcode_instruction i
  · rw [m.instruction_eq]
  · rw [m.instruction_eq]
  · intro s
    rw [m.operand_instruction]
    exact assigned_operand fun _ hname => h (List.mem_flatMap_of_mem s.mem_all hname)

theorem assigned_block {b : Block} (h : b.registerNames ⊆ m.names) : b.Assigned m (m.block b) := by
  refine ⟨rfl, rfl, rfl, ?_⟩
  rw [block, List.forall₂_map_right_iff, List.forall₂_same]
  exact fun i hi => assigned_instruction fun _ hname => h (List.mem_flatMap_of_mem hi hname)

theorem assigned_mapBlocks {g : FlowGraph} (h : g.registerNames ⊆ m.names) :
    g.Assigned m (g.mapBlocks m.block) := by
  refine ⟨rfl, rfl, ?_⟩
  rw [FlowGraph.mapBlocks, List.forall₂_map_right_iff, List.forall₂_same]
  intro slot hslot
  cases slot with
  | none => exact .none
  | some b =>
    have hb : b ∈ g.blocks := List.mem_filterMap.2 ⟨some b, hslot, rfl⟩
    exact .some (assigned_block fun _ hname => h (List.mem_flatMap_of_mem hb hname))

end assigned

/-- Numbering a graph adds the names of its registers in the order in which they are first met, puts
the numbers of the names in their places, and changes nothing else. -/
theorem assign_assigned (m : Numbering) (g : FlowGraph) :
    (m.assign g).2.names = m.names ++ (g.registerNames.filter (· ∉ m.names)).eraseDups ∧
      g.Assigned (m.assign g).2 (m.assign g).1 := by
  rw [assign_eq]
  exact ⟨m.names_note _, assigned_mapBlocks fun _ hname => mem_note hname⟩

end Numbering

end KernelListing
