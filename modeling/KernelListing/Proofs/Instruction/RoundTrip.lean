import KernelListing.Proofs.Instruction.Spelling

/-!
# Reading an instruction back

An instruction that has been read can be numbered and written, and its text is read as the
instruction with new names for its registers (`readPiece_instruction`). The text is a piece of code
without a label in front, so it is read so wherever a piece of a listing stands. A guard that always
holds is not written, so that the operation itself must not look like a label then.
-/

namespace KernelListing.Instruction

open Text

/-- What is asked of an instruction so that its text can be read. -/
structure Legible (i : Instruction) : Prop where
  call : i.opcode ≠ .call
  branch : i.opcode = .bra → isLabelName i.d.name.toList = true
  special : ∀ s, ∀ e ∈ (i.operand s).elements, e.mode ≠ .special
  immediate : ∀ s, (i.operand s).mode = .immediate → (i.operand s).value ≠ Int64.minValue
  /-- Nothing is written in front of the operation then. -/
  operation : i.guard = .alwaysTrue → Unlabelled i.operationText.toList

theorem Legible.arguments {j : Instruction} {xs : List Argument}
    (h : (j.putAll Slot.arguments xs).Legible) {s : Slot} {x : Argument}
    (hx : (s, x) ∈ Slot.arguments.zip xs) : x.Legible j.opcode s := by
  have hoperand := operand_putAll_of_mem j (by decide) (by decide) hx
  have hopcode := (operation_putAll j Slot.arguments xs).1
  constructor
  · rw [← hopcode]
    exact h.call
  · rintro hop rfl
    rw [← hoperand]
    exact h.branch (hopcode.trans hop)
  · rw [← hoperand]
    exact h.special s
  · rw [← hoperand]
    exact h.immediate s

/-- The text of a legible instruction is a piece of a listing, and is read as the instruction with
new names for its registers. -/
theorem readPiece_instruction {i : Instruction} (h : IsRead i) (hi : i.Legible) (m : Numbering) :
    Source.readPiece (m.instruction i).text.toList =
        .statement (.instruction (m.rereadInstruction i)) ∧
      IsCode (m.instruction i).text.toList ∧ Trimmed (m.instruction i).text.toList := by
  cases h with
  | @intro guard operation token ts xs hguard hoperation hblank hcode harguments hts hreads =>
    obtain ⟨hvalid, hstands, hagain⟩ := hreads.again (R := StandsFor)
      (f := fun x => (x.text m).toList) (g := Argument.reread m) fun s t x hx ht hread =>
        have hback := readsBack_of_argument? hread (harguments.trimmed t ht) (hts t ht)
          (hi.arguments hx) m
        ⟨hback.valid, hback.standsFor, hback.read⟩
    obtain ⟨hguard', hguardText, halways⟩ := hguard.reread m
    obtain ⟨hlayout, hread⟩ := layout_of_parts hguard' hoperation hblank hcode harguments
      (hstands.imp fun _ _ h => h.toReplaces) hagain
    have hwritten : ∀ x : Argument, (x.map m.operand).written.toList = (x.text m).toList :=
      fun x => congrArg String.toList (written_map_operand m x)
    have htext : (m.instruction ({ operation with guard }.putAll Slot.arguments xs)).text.toList =
        (m.reread guard).guardText.toList ++
          (token ++ argumentTail (xs.map fun x => (x.text m).toList)) := by
      rw [instruction_putAll m hoperation, toList_text_putAll hoperation _
        ((hreads.writable hvalid).map (isValid_operand m)), hguardText, List.map_map]
      simp only [Function.comp_def, hwritten]
    rw [htext, rereadInstruction_putAll m hoperation]
    refine ⟨hlayout.readPiece hread fun hfront => ⟨?_, fun _ u hu => ?_⟩, hlayout.isCode_text,
      hlayout.trimmed_text⟩
    · have hoperation' := hi.operation
      rw [guard_putAll, operationText_putAll] at hoperation'
      have htoken := (operationText_of_readOperation hoperation).1
      exact htoken ▸ hoperation' (halways (hguard'.eq_alwaysTrue hfront))
    · have hheads := ((List.forall₂_and_left _ ts).1 (hstands.imp fun _ _ h => ⟨h.head_ne, h⟩)).1
      exact hheads u (List.mem_of_mem_head? hu)

end KernelListing.Instruction
