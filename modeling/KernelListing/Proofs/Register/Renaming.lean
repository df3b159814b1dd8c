import KernelListing.Proofs.Instruction.Spelling
import KernelListing.Proofs.Register.Names

/-!
# Registers by their numbers

A listing writes each register by its kind and its number, and that is the name under which it is
read. These names are told apart like the names of the source, as long as none of those stands for a
predicate and for some other register, and so they get the same numbers
(`instruction_spelledInstruction`).
-/

namespace KernelListing

namespace Numbering

variable (m : Numbering)

theorem registerName_ne_empty (op : Operand) : m.registerName op ≠ "" :=
  Operand.spelling_ne_empty op.isPredicate (m.number op.name)

/-- What is read once an operand has been written has the registers under other names. -/
theorem spelled_eq (op : Operand) : m.spelled op = op.renameRegisters m.registerName := rfl

theorem spelledInstruction_eq (i : Instruction) :
    m.spelledInstruction i = i.renameRegisters m.registerName := rfl

@[simp] theorem type_reread (op : Operand) : (m.reread op).type = op.type := by
  unfold reread
  split
  · next h => rw [h]; rfl
  · rw [spelled_eq, Operand.type_renameRegisters]

@[simp] theorem condition_reread (op : Operand) : (m.reread op).condition = op.condition := by
  unfold reread
  split
  · next h => rw [h]; rfl
  · rw [spelled_eq, Operand.condition_renameRegisters]

theorem registerNames_spelledInstruction (i : Instruction) :
    (m.spelledInstruction i).registerNames = i.numberedScalars.map m.registerName := by
  rw [spelledInstruction_eq]
  exact Instruction.registerNames_renameRegisters fun x _ => m.registerName_ne_empty x

end Numbering

/-! ## The numbers of the registers -/

namespace Numbering

section numbers

variable {ops : List Operand} (h : ∀ x ∈ ops, ∀ y ∈ ops, x.name = y.name →
  x.isPredicate = y.isPredicate)

include h

/-- A listing tells the registers apart as the source does. -/
theorem registerName_eq_iff {x y : Operand} (hx : x ∈ ops) (hy : y ∈ ops) :
    x.name = y.name ↔ (ofNames (ops.map (·.name))).registerName x =
      (ofNames (ops.map (·.name))).registerName y := by
  rw [registerName, registerName, Operand.spelling_eq_iff]
  constructor
  · intro hname
    exact ⟨h x hx y hy hname, by rw [hname]⟩
  · rintro ⟨-, hnumber⟩
    exact (List.idxOf_inj (mem_ofNames (List.mem_map_of_mem hx))).1 hnumber

theorem number_registerName {x : Operand} (hx : x ∈ ops) :
    (ofNames (ops.map (ofNames (ops.map (·.name))).registerName)).number
      ((ofNames (ops.map (·.name))).registerName x) = (ofNames (ops.map (·.name))).number x.name :=
  (number_map (fun _ hx _ hy => registerName_eq_iff h hx hy) hx).symm

theorem instruction_spelledInstruction {i : Instruction} (hi : i.numberedScalars ⊆ ops) :
    (ofNames (ops.map (ofNames (ops.map (·.name))).registerName)).instruction
      ((ofNames (ops.map (·.name))).spelledInstruction i) =
        (ofNames (ops.map (·.name))).instruction i := by
  rw [spelledInstruction_eq]
  exact instruction_renameRegisters fun x hx =>
    ⟨registerName_ne_empty _ x, number_registerName h (hi hx)⟩

end numbers

end Numbering

end KernelListing
