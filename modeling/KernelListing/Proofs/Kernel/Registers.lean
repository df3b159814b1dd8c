import KernelListing.Proofs.Instruction.Registers
import KernelListing.Proofs.Kernel.Canonical
import KernelListing.Proofs.Source.Statements

/-!
# The registers of a kernel

A register occurs at a `Site`: in an instruction, a slot, and among the scalars of the operand
there. Building a kernel keeps the instructions in their order and numbers the registers in them, so
that the occurrences in the kernel are those in the statements (`scalar?_ofStatements`). Two
occurrences have the same text in the listing if they have the same name in the source and are of
the same kind, predicate or not (`registerText_eq_iff`); the kind is that of the single occurrence.
-/

namespace KernelListing

open FlowGraph

/-- A place for a scalar among some instructions. -/
structure Site where
  /-- The position of the instruction. -/
  instruction : Nat
  slot : Slot
  /-- The position among the scalars of the operand in the slot. -/
  scalar : Nat
  deriving DecidableEq, Repr

def Site.scalar? (p : Site) (is : List Instruction) : Option Operand :=
  is[p.instruction]?.bind fun i => (i.operand p.slot).scalars[p.scalar]?

theorem Site.scalar?_eq_some_iff {p : Site} {is : List Instruction} {x : Operand} :
    p.scalar? is = some x ↔ ∃ i, is[p.instruction]? = some i ∧
      (i.operand p.slot).scalars[p.scalar]? = some x := Option.bind_eq_some_iff

namespace FlowGraph

theorem registerNames_eq_flatMap (g : FlowGraph) :
    g.registerNames = g.instructions.flatMap Instruction.registerNames := by
  rw [registerNames, instructions, List.flatMap_assoc]
  rfl

theorem operand_redirect (ss : List Segment) {i : Instruction} {s : Slot}
    (h : i.opcode = .bra → s ≠ .d) : (redirect ss i).operand s = i.operand s := by
  unfold redirect
  split
  · next hop => rw [i.operand_renameDestination, if_neg (h hop)]
  · rfl

end FlowGraph

theorem Operand.mem_registerNames {op x : Operand} (h : op.isNumbered = true) (hx : x ∈ op.scalars)
    (hname : x.name ≠ "") : x.name ∈ op.registerNames := by
  rw [registerNames, if_pos h]
  refine List.mem_flatMap_of_mem hx ?_
  rw [ownName, if_neg (by simpa using hname)]
  exact List.mem_singleton_self _

namespace Kernel

/-! ## Building a kernel -/

section built

variable {ss : List Statement} {k : Kernel} (h : ofStatements ss = .ok k)

include h

theorem exists_instructions_ofStatements : ∃ segments, k.graph.instructions =
      (Statement.instructions ss).map (fun i => k.numbering.instruction (redirect segments i)) ∧
    k.numbering = .ofNames (((Statement.instructions ss).map (redirect segments)).flatMap
      Instruction.registerNames) := by
  obtain ⟨o, hout, -, -, rfl⟩ := exists_outline_of_ofStatements h
  have hnumbering : ((ofDeclarations ss).withBody o.graph).numbering =
      .ofNames o.graph.registerNames := by rw [withBody, Numbering.ofGraph_eq]
  refine ⟨o.filled, ?_, ?_⟩
  · rw [instructions_withBody, instructions_graph, instructions_filled hout, List.map_map]
    rfl
  · rw [hnumbering, registerNames_eq_flatMap, instructions_graph, instructions_filled hout]

variable (hread : ∀ s ∈ ss, s.IsRead)

/-- The scalar at a site of the statements is at that site of the kernel, with its number if it is
visited. -/
theorem scalar?_ofStatements {p : Site} {x : Operand}
    (hx : p.scalar? (Statement.instructions ss) = some x) :
    ∃ i ∈ Statement.instructions ss, x ∈ (i.operand p.slot).scalars ∧
      ((i.opcode = .bra → p.slot ≠ .d) → p.scalar? k.graph.instructions =
        some (if (i.operand p.slot).isNumbered then k.numbering.scalar x else x)) := by
  obtain ⟨segments, hinstructions, -⟩ := exists_instructions_ofStatements h
  obtain ⟨i, hi, hx⟩ := Site.scalar?_eq_some_iff.1 hx
  refine ⟨i, List.mem_of_getElem? hi, List.mem_of_getElem? hx, fun hbra => ?_⟩
  rw [Site.scalar?_eq_some_iff, hinstructions, List.getElem?_map, hi]
  refine ⟨_, rfl, ?_⟩
  rw [Numbering.operand_instruction, operand_redirect segments hbra, Numbering.scalars_operand]
  split
  · rw [List.getElem?_map, hx]
    rfl
  · exact hx

include hread

theorem mem_names_of_mem_registerNames {i : Instruction} (hi : i ∈ Statement.instructions ss)
    {s : Slot} {name : String} (hname : name ∈ (i.operand s).registerNames) :
    name ∈ k.numbering.names := by
  obtain ⟨segments, -, hnumbering⟩ := exists_instructions_ofStatements h
  have hbra : i.opcode = .bra → s ≠ .d := by
    rintro hop rfl
    have hnumbered := (Statement.isRead_of_mem_instructions hread hi).isNumbered_of_bra hop
    rw [Operand.registerNames, show (i.operand .d).isNumbered = false from hnumbered] at hname
    cases hname
  rw [hnumbering]
  refine Numbering.mem_ofNames (List.mem_flatMap.2 ⟨_, List.mem_map_of_mem hi, ?_⟩)
  refine List.mem_flatMap.2 ⟨s, s.mem_all, ?_⟩
  rwa [operand_redirect segments hbra]

theorem scalar?_of_isRegisterLike {p : Site} {x : Operand}
    (hx : p.scalar? (Statement.instructions ss) = some x) (hlike : x.isRegisterLike = true)
    (hname : x.name ≠ "") : p.scalar? k.graph.instructions = some (k.numbering.scalar x) ∧
      x.name ∈ k.numbering.names := by
  obtain ⟨i, hi, hmem, hscalar⟩ := scalar?_ofStatements h hx
  have hi' := Statement.isRead_of_mem_instructions hread hi
  have hnumbered := (hi'.fits p.slot).isNumbered_of_mem_scalars hmem hlike hname
  rw [if_pos hnumbered] at hscalar
  refine ⟨hscalar fun hop hd => ?_, ?_⟩
  · rw [hd] at hnumbered
    exact absurd (hnumbered.symm.trans (hi'.isNumbered_of_bra hop)) (by decide)
  · exact mem_names_of_mem_registerNames h hread hi
      (Operand.mem_registerNames hnumbered hmem hname)

end built

/-! ## Texts of registers -/

/-- Two registers in the source of a kernel are written alike in its listing if they have the same
name there and both are predicates, or neither is. -/
theorem registerText_eq_iff {text : String} {k : Kernel}
    (h : ofStatements (Source.read text).statements = .ok k) {p q : Site} {x y : Operand}
    (hp : p.scalar? (Statement.instructions (Source.read text).statements) = some x)
    (hq : q.scalar? (Statement.instructions (Source.read text).statements) = some y)
    (hx : x.isRegisterLike = true ∧ x.name ≠ "") (hy : y.isRegisterLike = true ∧ y.name ≠ "") :
    ∃ x' y', p.scalar? k.graph.instructions = some x' ∧ q.scalar? k.graph.instructions = some y' ∧
      (x'.registerText = y'.registerText ↔ x.name = y.name ∧ x.isPredicate = y.isPredicate) := by
  have hread : ∀ s ∈ (Source.read text).statements, s.IsRead := fun s hs =>
    Source.isRead_of_mem_read hs
  obtain ⟨hx', hmem⟩ := scalar?_of_isRegisterLike h hread hp hx.1 hx.2
  obtain ⟨hy', -⟩ := scalar?_of_isRegisterLike h hread hq hy.1 hy.2
  refine ⟨_, _, hx', hy', ?_⟩
  rw [Numbering.registerText_scalar hx.2, Numbering.registerText_scalar hy.2,
    Numbering.registerName, Numbering.registerName, Operand.spelling_eq_iff, and_comm]
  exact and_congr_left fun _ => List.idxOf_inj hmem

/-- A register that a comparison writes as a predicate and a move reads as a word. -/
def compared : String := "setp.lt.s32 %x, 1, 2;\nmov.u32 %y, %x;\nexit;\n"

def comparedInstructions : List Instruction := [
  { opcode := .setp, modifiers := ".lt", type := some .s32, d := .predicate "%x",
    a := .immediate 1 .s32, b := .immediate 2 .s32 },
  { opcode := .mov, type := some .u32, d := .register "%y" .u32, a := .register "%x" .u32 },
  { opcode := .exit }]

theorem read_compared : Source.read compared =
    { statements := comparedInstructions.map .instruction } := by
  decide +kernel

theorem registerText_eq_iff_compared : ∃ k, ofStatements (Source.read compared).statements = .ok k ∧
    ∃ x' y', Site.scalar? ⟨0, .d, 0⟩ k.graph.instructions = some x' ∧
      Site.scalar? ⟨1, .a, 0⟩ k.graph.instructions = some y' ∧
      (x'.registerText = y'.registerText ↔ "%x" = "%x" ∧ true = false) := by
  obtain ⟨k, hk⟩ : ∃ k, ofStatements (Source.read compared).statements = .ok k := by
    rw [read_compared]
    exact ⟨_, rfl⟩
  have hd : Site.scalar? ⟨0, .d, 0⟩ (Statement.instructions (Source.read compared).statements) =
      some (.predicate "%x") := by
    rw [read_compared]
    rfl
  have ha : Site.scalar? ⟨1, .a, 0⟩ (Statement.instructions (Source.read compared).statements) =
      some (.register "%x" .u32) := by
    rw [read_compared]
    rfl
  exact ⟨k, hk, registerText_eq_iff hk hd ha (by decide) (by decide)⟩

/-- The name alone does not decide: the two occurrences are written `%p0` and `%r0`. -/
theorem registerText_ne_compared : ∃ k, ofStatements (Source.read compared).statements = .ok k ∧
    ∃ (p q : Site) (x y x' y' : Operand),
      p.scalar? (Statement.instructions (Source.read compared).statements) = some x ∧
      q.scalar? (Statement.instructions (Source.read compared).statements) = some y ∧
      (x.isRegisterLike = true ∧ x.name ≠ "") ∧ (y.isRegisterLike = true ∧ y.name ≠ "") ∧
      p.scalar? k.graph.instructions = some x' ∧ q.scalar? k.graph.instructions = some y' ∧
      x.name = y.name ∧ x'.registerText ≠ y'.registerText := by
  rw [read_compared]
  refine ⟨_, rfl, ⟨0, .d, 0⟩, ⟨1, .a, 0⟩, .predicate "%x", .register "%x" .u32,
    { Operand.predicate "" with number := 0 }, { Operand.register "" .u32 with number := 0 },
    rfl, rfl, by decide, by decide, rfl, rfl, rfl, ?_⟩
  decide

end Kernel

end KernelListing
