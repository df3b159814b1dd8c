import KernelListing.Proofs.Register.Numbering

/-!
# Numbering twice

A register loses its name when it is numbered, and a register without a name is never visited
again. So nothing is left to do on a graph that has been numbered, for whatever numbering comes next
(`assign_assign`): the graph has no names of registers any more (`registerNames_assign`), and one
that has none stays as it is (`mapBlocks_block_eq_self`).
-/

namespace KernelListing

namespace Numbering

variable (m : Numbering)

/-! ## No names are left -/

theorem ownName_scalar (op : Operand) : (m.scalar op).ownName = [] := by
  unfold scalar
  cases hempty : op.name.isEmpty with
  | true => simp [Operand.ownName, hempty]
  | false => rfl

@[simp] theorem isNumbered_operand (op : Operand) :
    (m.operand op).isNumbered = op.isNumbered := by
  unfold operand scalar
  split
  · rfl
  · split
    · split <;> rfl
    · rfl

theorem registerNames_operand (op : Operand) : (m.operand op).registerNames = [] := by
  rw [Operand.registerNames, isNumbered_operand, scalars_operand]
  split
  · rw [List.flatMap_map, List.flatMap_eq_nil_iff]
    exact fun x _ => m.ownName_scalar x
  · rfl

theorem registerNames_instruction (i : Instruction) : (m.instruction i).registerNames = [] := by
  rw [Instruction.registerNames, List.flatMap_eq_nil_iff]
  intro s _
  rw [operand_instruction, registerNames_operand]

theorem registerNames_block (b : Block) : (m.block b).registerNames = [] := by
  rw [Block.registerNames, block, List.flatMap_map, List.flatMap_eq_nil_iff]
  exact fun i _ => m.registerNames_instruction i

theorem registerNames_assign (g : FlowGraph) : (m.assign g).1.registerNames = [] := by
  rw [assign_eq, FlowGraph.registerNames, List.flatMap_eq_nil_iff]
  intro b hb
  obtain ⟨id, hid⟩ := FlowGraph.mem_blocks.1 hb
  rw [FlowGraph.block?_mapBlocks, Option.map_eq_some_iff] at hid
  obtain ⟨b, -, rfl⟩ := hid
  exact registerNames_block _ b

/-! ## Nothing is left to do -/

theorem scalar_eq_self {op : Operand} (h : op.ownName = []) : m.scalar op = op := by
  unfold Operand.ownName at h
  unfold scalar
  split at h
  · next hempty => rw [if_pos hempty]
  · cases h

theorem operand_eq_self {op : Operand} (h : op.registerNames = []) : m.operand op = op := by
  cases hnumbered : op.isNumbered with
  | false => exact m.operand_of_not_isNumbered hnumbered
  | true =>
    rw [Operand.registerNames, if_pos hnumbered, List.flatMap_eq_nil_iff] at h
    unfold Operand.scalars at h
    unfold operand
    rw [hnumbered, Bool.not_true, if_neg Bool.false_ne_true]
    split
    · next hempty =>
      rw [if_pos hempty] at h
      exact m.scalar_eq_self (h op (List.mem_singleton_self op))
    · next hempty =>
      rw [if_neg hempty] at h
      have hmap : op.elements.map m.scalar = op.elements.map id :=
        List.map_congr_left fun x hx => m.scalar_eq_self (h x hx)
      rw [hmap, List.map_id]
      cases op
      rfl

theorem instruction_eq_self {i : Instruction} (h : i.registerNames = []) :
    m.instruction i = i := by
  rw [Instruction.registerNames, List.flatMap_eq_nil_iff] at h
  have hoperand : ∀ s, m.operand (i.operand s) = i.operand s := fun s =>
    m.operand_eq_self (h s s.mem_all)
  rw [instruction_eq]
  exact congr (congr (congr (congr (congr (congrArg _ (hoperand .d)) (hoperand .a)) (hoperand .b))
    (hoperand .c)) (hoperand .guard)) (hoperand .q)

theorem block_eq_self {b : Block} (h : b.registerNames = []) : m.block b = b := by
  rw [Block.registerNames, List.flatMap_eq_nil_iff] at h
  have hmap : b.instructions.map m.instruction = b.instructions.map id :=
    List.map_congr_left fun i hi => m.instruction_eq_self (h i hi)
  rw [block, hmap, List.map_id]

theorem mapBlocks_block_eq_self {g : FlowGraph} (h : g.registerNames = []) :
    g.mapBlocks m.block = g := by
  rw [FlowGraph.registerNames, List.flatMap_eq_nil_iff] at h
  have hmap : g.slots.map (·.map m.block) = g.slots.map id := by
    refine List.map_congr_left fun slot hslot => ?_
    cases slot with
    | none => rfl
    | some b =>
      have hb : b ∈ g.blocks := List.mem_filterMap.2 ⟨some b, hslot, rfl⟩
      exact congrArg some (m.block_eq_self (h b hb))
  rw [FlowGraph.mapBlocks, hmap, List.map_id]

/-- Numbering a graph that has been numbered changes neither the graph nor the numbering, whichever
numberings these are. So numbering it from zero finds no names. -/
theorem assign_assign (m' : Numbering) (g : FlowGraph) :
    m'.assign (m.assign g).1 = ((m.assign g).1, m') ∧
      ofGraph (m.assign g).1 = ((m.assign g).1, {}) := by
  have hself : ∀ m' : Numbering, m'.assign (m.assign g).1 = ((m.assign g).1, m') := by
    intro m'
    have hnames := m.registerNames_assign g
    rw [assign_eq m', hnames, note_nil, m'.mapBlocks_block_eq_self hnames]
  exact ⟨hself m', hself {}⟩

end Numbering

end KernelListing
