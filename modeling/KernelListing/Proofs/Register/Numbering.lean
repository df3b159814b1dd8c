import Mathlib.Data.List.Infix
import KernelListing.Register.Numbering

/-!
# What numbering a graph does

Numbering is a walk with a state, but a number once given is never taken back. So the numbers
can be read off the numbering at the end: `Numbers f names g` says that the walk `f` meets the
names `names a`, and that what it makes of `a` is `g m' a` for each numbering `m'` that goes on
from there. It is passed up from the registers to the operands, instructions and blocks, and
gives the numbered graph as a map over the blocks (`assign_eq`).
-/

namespace KernelListing

namespace Operand

/-- Whether an operand has registers that are to be numbered. -/
def isNumbered (op : Operand) : Bool := op.isValid && ! op.isAlwaysTrue && op.isRegisterLike

theorem isNumbered_of_label {op : Operand} (h : op.mode = .label) : op.isNumbered = false := by
  simp [isNumbered, isRegisterLike, h]

/-- The name of a scalar, if it has one. -/
def ownName (op : Operand) : List String := if op.name.isEmpty then [] else [op.name]

/-- The names of the registers of an operand, in the order in which they are numbered. -/
def registerNames (op : Operand) : List String :=
  if op.isNumbered then op.scalars.flatMap ownName else []

end Operand

def Instruction.registerNames (i : Instruction) : List String :=
  Slot.all.flatMap fun s => (i.operand s).registerNames

def Block.registerNames (b : Block) : List String :=
  b.instructions.flatMap Instruction.registerNames

/-- The names of the registers of a graph, as often as they occur. -/
def FlowGraph.registerNames (g : FlowGraph) : List String := g.blocks.flatMap Block.registerNames

namespace Numbering

/-- The numbering once some names have been met. -/
def note (m : Numbering) (names : List String) : Numbering :=
  names.foldl (fun m name => (allocate name m).2) m

/-- The number of a name that has one. -/
def number (m : Numbering) (name : String) : Nat := m.names.idxOf name

def scalar (m : Numbering) (op : Operand) : Operand :=
  if op.name.isEmpty then op else { op with name := "", number := m.number op.name }

def operand (m : Numbering) (op : Operand) : Operand :=
  if ! op.isNumbered then op
  else if op.elements.isEmpty then m.scalar op
  else { op with elements := op.elements.map m.scalar }

/-- The instruction with the numbers of its registers in some slots. -/
def slots (m : Numbering) (ss : List Slot) (i : Instruction) : Instruction :=
  ss.foldl (fun i s => i.setOperand s (m.operand (i.operand s))) i

def instruction (m : Numbering) (i : Instruction) : Instruction := m.slots Slot.all i

def block (m : Numbering) (b : Block) : Block :=
  { b with instructions := b.instructions.map m.instruction }

theorem instruction_eq (m : Numbering) (i : Instruction) :
    m.instruction i = { i with
      d := m.operand i.d, a := m.operand i.a, b := m.operand i.b, c := m.operand i.c,
      guard := m.operand i.guard, q := m.operand i.q } := by
  simp only [instruction, slots, Slot.all, List.foldl_cons, List.foldl_nil,
    Instruction.setOperand, Instruction.operand]

@[simp] theorem opcode_instruction (m : Numbering) (i : Instruction) :
    (m.instruction i).opcode = i.opcode := by
  rw [instruction_eq]

theorem operand_instruction (m : Numbering) (i : Instruction) (s : Slot) :
    (m.instruction i).operand s = m.operand (i.operand s) := by
  rw [instruction_eq]
  cases s <;> rfl

theorem operand_of_not_isNumbered (m : Numbering) {op : Operand} (h : op.isNumbered = false) :
    m.operand op = op := by
  simp [operand, h]

theorem scalars_operand (m : Numbering) (op : Operand) :
    (m.operand op).scalars = if op.isNumbered then op.scalars.map m.scalar else op.scalars := by
  cases hnumbered : op.isNumbered with
  | false => rw [m.operand_of_not_isNumbered hnumbered, if_neg Bool.false_ne_true]
  | true =>
    unfold operand
    rw [hnumbered, if_pos rfl]
    by_cases hempty : op.elements.isEmpty
    · have helements : (m.scalar op).elements = op.elements := by
        unfold scalar
        split <;> rfl
      simp [Operand.scalars, hempty, helements]
    · simp [Operand.scalars, hempty]

/-! ## Meeting names -/

theorem note_nil (m : Numbering) : m.note [] = m := rfl

theorem note_cons (m : Numbering) (name : String) (names : List String) :
    m.note (name :: names) = (m.note [name]).note names := rfl

theorem note_append (m : Numbering) (names names' : List String) :
    m.note (names ++ names') = (m.note names).note names' := List.foldl_append

theorem note_singleton (m : Numbering) (name : String) :
    m.note [name] = if name ∈ m.names then m else ⟨m.names ++ [name]⟩ := by
  simp only [note, List.foldl_cons, List.foldl_nil, allocate]
  cases hget : m.get? name with
  | none => rw [if_neg (List.idxOf?_eq_none_iff.1 hget)]
  | some n =>
    obtain ⟨hn, rfl, -⟩ := List.idxOf?_eq_some_iff.1 hget
    rw [if_pos (List.getElem_mem hn)]

theorem prefix_note_singleton (m : Numbering) (name : String) :
    m.names <+: (m.note [name]).names := by
  rw [note_singleton]
  split
  · exact List.prefix_refl _
  · exact List.prefix_append ..

theorem prefix_note (m : Numbering) (names : List String) : m.names <+: (m.note names).names := by
  induction names generalizing m with
  | nil => exact List.prefix_refl _
  | cons name names ih => exact (m.prefix_note_singleton name).trans (ih (m.note [name]))

theorem mem_note_singleton (m : Numbering) (name : String) : name ∈ (m.note [name]).names := by
  rw [note_singleton]
  split
  · next h => exact h
  · simp

theorem mem_note {m : Numbering} {names : List String} {name : String} (h : name ∈ names) :
    name ∈ (m.note names).names := by
  induction names generalizing m with
  | nil => exact absurd h List.not_mem_nil
  | cons first names ih =>
    rw [note_cons]
    rcases List.mem_cons.1 h with rfl | h
    · exact (prefix_note ..).subset (m.mem_note_singleton name)
    · exact ih h

theorem number_of_prefix {m m' : Numbering} (h : m.names <+: m'.names) {name : String}
    (hmem : name ∈ m.names) : m'.number name = m.number name := by
  obtain ⟨rest, hrest⟩ := h
  rw [number, ← hrest, List.idxOf_append_of_mem hmem, number]

theorem allocate_eq (name : String) (m : Numbering) :
    allocate name m = ((m.note [name]).number name, m.note [name]) := by
  have hnote := m.note_singleton name
  unfold allocate
  cases hget : m.get? name with
  | none =>
    have hnew : name ∉ m.names := List.idxOf?_eq_none_iff.1 hget
    rw [if_neg hnew] at hnote
    rw [hnote, number, List.idxOf_append_of_notMem hnew, List.idxOf_cons_self]
    rfl
  | some n =>
    obtain ⟨hn, hfind⟩ := List.findIdx?_eq_some_iff_findIdx_eq.1 hget
    have hmem : name ∈ m.names := List.idxOf_lt_length_iff.1 (hfind.trans_lt hn)
    rw [if_pos hmem] at hnote
    rw [hnote]
    exact congrArg (·, m) hfind.symm

/-! ## Walks -/

/-- A walk that meets some names, and whose result can be read off each later numbering. -/
def Numbers {α : Type} (f : α → StateM Numbering α) (names : α → List String)
    (g : Numbering → α → α) : Prop :=
  ∀ (a : α) (m m' : Numbering), (m.note (names a)).names <+: m'.names →
    f a m = (g m' a, m.note (names a))

theorem Numbers.mapM {α : Type} {f : α → StateM Numbering α} {names : α → List String}
    {g : Numbering → α → α} (h : Numbers f names g) :
    Numbers (List.mapM f) (List.flatMap names) (fun m => List.map (g m)) := by
  intro as
  induction as with
  | nil => exact fun m m' _ => rfl
  | cons a as ih =>
    intro m m' hm'
    rw [List.flatMap_cons, note_append] at hm' ⊢
    rw [List.mapM_cons]
    have ha := h a m m' ((prefix_note ..).trans hm')
    have has := ih (m.note (names a)) m' hm'
    simp only [bind, StateT.bind, ha, has]
    rfl

theorem numberScalar_numbers :
    Numbers (Operand.numberScalar allocate) Operand.ownName scalar := by
  intro op m m' hm'
  unfold Operand.numberScalar scalar
  unfold Operand.ownName at hm' ⊢
  cases hempty : op.name.isEmpty with
  | true => rfl
  | false =>
    simp only [hempty, Bool.false_eq_true, if_false] at hm' ⊢
    simp only [bind, StateT.bind, allocate_eq,
      number_of_prefix hm' (mem_note_singleton m op.name)]
    rfl

theorem numberOperand_numbers :
    Numbers (Operand.numberRegisters allocate) Operand.registerNames operand := by
  intro op m m' hm'
  have hskip : (! op.isValid || op.isAlwaysTrue || ! op.isRegisterLike) = ! op.isNumbered := by
    simp [Operand.isNumbered]
  unfold Operand.numberRegisters operand
  unfold Operand.registerNames Operand.scalars at hm' ⊢
  rw [hskip]
  cases hnumbered : op.isNumbered with
  | false => rfl
  | true =>
    rw [hnumbered] at hm'
    cases hvector : op.elements.isEmpty with
    | true =>
      simp only [hvector, if_true, List.flatMap_singleton] at hm' ⊢
      exact numberScalar_numbers op m m' hm'
    | false =>
      simp only [hvector, if_true, Bool.false_eq_true, if_false, Bool.not_true] at hm' ⊢
      have helements := numberScalar_numbers.mapM op.elements m m' hm'
      simp only [bind, StateT.bind, helements]
      rfl

theorem numberSlots_numbers {ss : List Slot} (h : ss.Nodup) :
    Numbers (Instruction.numberSlots allocate ss)
      (fun i => ss.flatMap fun s => (i.operand s).registerNames) (fun m i => m.slots ss i) := by
  induction ss with
  | nil => exact fun i m m' _ => rfl
  | cons s ss ih =>
    intro i m m' hm'
    obtain ⟨hs, hss⟩ := List.nodup_cons.1 h
    simp only [List.flatMap_cons, note_append] at hm'
    have hoperand := numberOperand_numbers (i.operand s) m m' ((prefix_note ..).trans hm')
    -- No slot occurs twice, so the ones to come still hold what they held.
    have hrest : ∀ op, (ss.flatMap fun s' => ((i.setOperand s op).operand s').registerNames) =
        ss.flatMap fun s' => (i.operand s').registerNames := by
      intro op
      refine List.flatMap_congr fun s' hs' => ?_
      rw [i.operand_setOperand_of_ne (ne_of_mem_of_not_mem hs' hs)]
    have hslots := ih hss (i.setOperand s (m'.operand (i.operand s)))
      (m.note (i.operand s).registerNames) m'
    simp only [hrest] at hslots
    simp only [Instruction.numberSlots, List.foldlM_cons, bind, StateT.bind, Functor.map,
      StateT.map, hoperand, List.flatMap_cons, note_append]
    exact hslots hm'

theorem numberInstruction_numbers :
    Numbers (Instruction.numberRegisters allocate) Instruction.registerNames instruction :=
  numberSlots_numbers (by decide)

theorem numberBlock_numbers :
    Numbers (Block.numberRegisters allocate) Block.registerNames block := by
  intro b m m' hm'
  have hinstructions := numberInstruction_numbers.mapM b.instructions m m' hm'
  simp only [Block.numberRegisters, bind, StateT.bind, hinstructions]
  rfl

theorem numberSlot_numbers : Numbers (Block.numberSlot allocate)
    (fun b => b.toList.flatMap Block.registerNames) (fun m => Option.map m.block) := by
  intro b m m' hm'
  cases b with
  | none => rfl
  | some b =>
    simp only [Option.toList_some, List.flatMap_cons, List.flatMap_nil, List.append_nil] at hm' ⊢
    have hb := numberBlock_numbers b m m' hm'
    simp only [Block.numberSlot, Functor.map, StateT.map, hb]
    rfl

theorem numberGraph_numbers : Numbers (FlowGraph.numberRegisters allocate)
    FlowGraph.registerNames (fun m g => g.mapBlocks m.block) := by
  intro g m m' hm'
  have hnames : g.slots.flatMap (fun b => b.toList.flatMap Block.registerNames) =
      g.registerNames := by
    rw [FlowGraph.registerNames, FlowGraph.blocks, List.filterMap_eq_flatMap_toList,
      List.flatMap_assoc]
    rfl
  have hslots := numberSlot_numbers.mapM g.slots m m'
  rw [hnames] at hslots
  simp only [FlowGraph.numberRegisters, bind, StateT.bind, hslots hm']
  rfl

/-- Numbering a graph is numbering each block by the numbering at the end. -/
theorem assign_eq (m : Numbering) (g : FlowGraph) :
    m.assign g = (g.mapBlocks (m.note g.registerNames).block, m.note g.registerNames) :=
  numberGraph_numbers g m _ (List.prefix_refl _)

/-- The numbering of a graph. -/
def ofNames (names : List String) : Numbering := note {} names

theorem ofGraph_eq (g : FlowGraph) :
    ofGraph g = (g.mapBlocks (ofNames g.registerNames).block, ofNames g.registerNames) :=
  assign_eq {} g

end Numbering

end KernelListing
