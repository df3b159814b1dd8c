import KernelListing.Proofs.Kernel.Registers
import KernelListing.Proofs.Kernel.Requests

/-!
# What a summary keeps of the source

Numbering changes the registers of an operand and canonicalizing the name that a branch goes by.
Neither changes the `shape` of an operand, so that whatever depends on shapes alone can be read off
the source (`map_shape_dataflow`). In this way the declarations of a summary are the first
occurrences of its registers if the source has no vector of predicates where they are looked for
(`declarationsInOrder_ofStatements`).
-/

namespace KernelListing

/-! ## Shapes -/

/-- What an operand is, but for the names and numbers in it. -/
def Operand.shape (op : Operand) : Mode × DataType × Condition × Bool :=
  (op.mode, op.type, op.condition, op.isVector)

/-- The operation of an instruction and the shapes of its operands. -/
def Instruction.shape (i : Instruction) : Opcode × (Slot → Mode × DataType × Condition × Bool) :=
  (i.opcode, fun s => (i.operand s).shape)

theorem Instruction.shape_eq_iff {i j : Instruction} : i.shape = j.shape ↔
    i.opcode = j.opcode ∧ ∀ s, (i.operand s).shape = (j.operand s).shape :=
  Prod.ext_iff.trans (and_congr_right' funext_iff)

theorem Numbering.shape_operand (m : Numbering) (op : Operand) :
    (m.operand op).shape = op.shape := by
  have hscalar : ∀ op, (m.scalar op).shape = op.shape := by
    intro op
    unfold scalar
    split <;> rfl
  unfold operand
  split
  · rfl
  · split
    · exact hscalar op
    · simp [Operand.shape, Operand.isVector]

namespace Instruction

theorem shape_instruction (m : Numbering) (i : Instruction) : (m.instruction i).shape = i.shape :=
  shape_eq_iff.2 ⟨m.opcode_instruction i, fun s => by
    rw [m.operand_instruction, m.shape_operand]⟩

theorem shape_renameDestination (i : Instruction) (name : String) :
    (i.renameDestination name).shape = i.shape :=
  shape_eq_iff.2 ⟨rfl, fun s => by
    rw [operand_renameDestination]
    split
    · next hs => rw [hs]; rfl
    · rfl⟩

theorem shape_unaddressed (i : Instruction) : i.unaddressed.shape = i.shape := by
  unfold unaddressed
  split
  · exact i.shape_renameDestination ""
  · rfl

theorem shape_redirect (segments : List FlowGraph.Segment) (i : Instruction) :
    (FlowGraph.redirect segments i).shape = i.shape := by
  unfold FlowGraph.redirect
  split
  · exact i.shape_renameDestination _
  · rfl

end Instruction

/-- Graphs that differ in labels alone agree in all that labels do not enter. -/
theorem FlowGraph.map_instructions_congr {α : Type} {f : Instruction → α}
    (hf : ∀ i : Instruction, f i.unaddressed = f i) {g g' : FlowGraph}
    (h : g'.mapBlocks Block.unaddressed = g.mapBlocks Block.unaddressed) :
    g'.instructions.map f = g.instructions.map f := by
  have hunaddressed : ∀ g : FlowGraph,
      (g.mapBlocks Block.unaddressed).instructions.map f = g.instructions.map f := by
    intro g
    rw [instructions, g.instructions_unaddressed, List.map_map]
    exact List.map_congr_left fun i _ => hf i
  rw [← hunaddressed g', h, hunaddressed]

/-! ## Kernels -/

theorem Register.ScalarPredicates.congr {i j : Instruction} (hj : ScalarPredicates j)
    (h : i.shape = j.shape) : ScalarPredicates i := by
  obtain ⟨hopcode, hoperand⟩ := Instruction.shape_eq_iff.1 h
  intro op hop hvector
  obtain ⟨s, hs, rfl, hmode⟩ := mem_visited.1 hop
  have hs' := hoperand s
  simp only [Operand.shape, Prod.mk.injEq] at hs'
  obtain ⟨hmode', htype, -, hvector'⟩ := hs'
  rw [Operand.isPredicate, htype]
  refine hj (j.operand s) (mem_visited.2 ⟨s, hopcode ▸ hs, rfl, ?_⟩) ?_
  · rw [← hmode', hmode]
  · rw [← hvector', hvector]

namespace Kernel

section built

variable {ss : List Statement} {k : Kernel} (h : ofStatements ss = .ok k)

include h

theorem map_shape_ofStatements : k.graph.instructions.map Instruction.shape =
    (Statement.instructions ss).map Instruction.shape := by
  obtain ⟨segments, hinstructions, -⟩ := exists_instructions_ofStatements h
  rw [hinstructions, List.map_map]
  refine List.map_congr_left fun i _ => ?_
  rw [Function.comp_apply, Instruction.shape_instruction, Instruction.shape_redirect]

/-- Whatever has been asked of a kernel, its summary is that of a graph with the instructions of the
source, in their order and with their shapes. -/
theorem map_shape_dataflow (rs : List Request) :
    ((k.afterRequests rs).dataflow.blocks.flatMap (·.instructions)).map Instruction.shape =
      (Statement.instructions ss).map Instruction.shape := by
  obtain ⟨g, hg, hlike⟩ :=
    (resembles_afterRequests (dataflow?_ofStatements h) rs).exists_dataflow
  rw [hg, Dataflow.instructions_ofGraph, ← map_shape_ofStatements h]
  exact FlowGraph.map_instructions_congr Instruction.shape_unaddressed hlike

theorem exists_shape_eq_dataflow {rs : List Request} {i : Instruction}
    (hi : i ∈ (k.afterRequests rs).dataflow.blocks.flatMap (·.instructions)) :
    ∃ j ∈ Statement.instructions ss, i.shape = j.shape := by
  have hshape : i.shape ∈ (Statement.instructions ss).map Instruction.shape :=
    map_shape_dataflow h rs ▸ List.mem_map_of_mem hi
  obtain ⟨j, hj, heq⟩ := List.mem_map.1 hshape
  exact ⟨j, hj, heq.symm⟩

/-- Where the source has no vector of predicates in the places that are looked at, the declarations
for the summary of a kernel are the first occurrences of the registers that its instructions show,
each with its type there, in their order and none twice. -/
theorem declarationsInOrder_ofStatements
    (hscalar : ∀ i ∈ Statement.instructions ss, Register.ScalarPredicates i) (rs : List Request) :
    Register.FirstOccurrences (Register.declarationsInOrder (k.afterRequests rs).dataflow)
        (((k.afterRequests rs).dataflow.blocks.flatMap (·.instructions)).flatMap
          Register.shown) ∧
      ((Register.declarationsInOrder (k.afterRequests rs).dataflow).map (·.number)).Nodup := by
  have hfirst := Register.firstOccurrences_shown (s := (k.afterRequests rs).dataflow)
    fun i hi => by
      obtain ⟨j, hj, heq⟩ := exists_shape_eq_dataflow h hi
      exact (hscalar j hj).congr heq
  exact ⟨hfirst, hfirst.nodup⟩

end built

/-- A vector whose second register has been met as a word before. -/
def gathering : List Instruction := [
  { opcode := .mov, d := .register "y" .u32, a := .immediate 1 .u32 },
  { opcode := .mov, d := .vectorOf .b32 [.register "x" .b32, .register "y" .b32],
    a := .register "z" .b64 },
  { opcode := .exit }]

theorem declarationsInOrder_ofStatements_gathering : ∃ k,
    ofStatements (gathering.map .instruction) = .ok k ∧
    (∀ i ∈ Statement.instructions (gathering.map .instruction), Register.ScalarPredicates i) ∧
    Register.FirstOccurrences (Register.declarationsInOrder k.dataflow)
      ((k.dataflow.blocks.flatMap (·.instructions)).flatMap Register.shown) := by
  obtain ⟨k, hk⟩ : ∃ k, ofStatements (gathering.map .instruction) = .ok k := ⟨_, rfl⟩
  have hscalar : ∀ i ∈ Statement.instructions (gathering.map .instruction),
      Register.ScalarPredicates i := by decide
  exact ⟨k, hk, hscalar, (declarationsInOrder_ofStatements hk hscalar []).1⟩

/-- A move into a vector of predicates. -/
def paired : String := "mov.b32 \x7b%p1, %p2\x7d, %r1;\nexit;\n"

def pairedMove : Instruction where
  opcode := .mov
  type := some .b32
  d := .vectorOf .pred [.predicate "%p1", .predicate "%p2"]
  a := .register "%r1" .b32

theorem read_paired : Source.read paired =
    { statements := [.instruction pairedMove, .instruction { opcode := .exit }] } := by
  decide +kernel

/-- A vector of predicates is met as one register, and its second register is not declared. -/
theorem not_firstOccurrences_paired : ∃ k, ofStatements (Source.read paired).statements = .ok k ∧
    ¬ Register.FirstOccurrences (Register.declarationsInOrder k.dataflow)
      ((k.dataflow.blocks.flatMap (·.instructions)).flatMap Register.shown) := by
  rw [read_paired]
  refine ⟨_, rfl, fun hfirst => ?_⟩
  have hdeclared := (hfirst.mem_iff { number := 1, type := .pred }).2 rfl
  revert hdeclared
  decide

end Kernel

end KernelListing
