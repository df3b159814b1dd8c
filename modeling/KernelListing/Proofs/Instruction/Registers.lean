import KernelListing.Proofs.Instruction.RoundTrip
import KernelListing.Proofs.Operand.Forms
import KernelListing.Proofs.Register.Renaming

/-!
# The registers of an instruction that has been read

What stands in a slot of an instruction that has been read depends on its operation and the slot
(`Fits`). So the registers that are numbered in it are those that it mentions as registers; a branch
mentions none as its destination.
-/

namespace KernelListing.Instruction

open Text

/-- What can stand in a slot of an instruction that has been read. -/
inductive Fits (opcode : Opcode) : Slot → Operand → Prop where
  /-- The slot is empty. -/
  | absent (s : Slot) : Fits opcode s .invalid
  | guard {op : Operand} (h : IsGuard op) : Fits opcode .guard op
  /-- A predicate that a comparison writes. -/
  | comparison (hop : opcode = .setp) {s : Slot} (hs : s = .d ∨ s = .q) (name : String) :
    Fits opcode s (.predicate name)
  /-- The target of a jump. -/
  | target (name : String) : Fits opcode .d (.label name)
  /-- What has been read from a token that may be any operand. -/
  | form {s : Slot} (hs : s = .d → opcode ≠ .bra) {op : Operand} (h : op.Form) : Fits opcode s op

theorem fits_of_argument? {opcode : Opcode} {type : Option DataType} {s : Slot}
    {token : List Char} {x : Argument} (h : argument? opcode type s token = .ok x) :
    Fits opcode s x.1 ∧ ∀ q ∈ x.2, Fits opcode .q q := by
  cases readAs_of_argument? h with
  | pair =>
    refine ⟨.comparison rfl (.inl rfl) _, fun q hq => ?_⟩
    cases hq
    exact .comparison rfl (.inr rfl) _
  | comparison => exact ⟨.comparison rfl (.inl rfl) _, nofun⟩
  | target => exact ⟨.target _, nofun⟩
  | operand hread _ hbra _ =>
    exact ⟨.form (fun hs hop => hbra hop hs) (Operand.form_of_readOperand hread), nofun⟩

theorem IsRead.fits {i : Instruction} (h : IsRead i) (s : Slot) :
    Fits i.opcode s (i.operand s) := by
  cases h with
  | @intro guard operation token ts xs hguard hoperation _ _ _ _ hreads =>
    rw [(operation_putAll { operation with guard } Slot.arguments xs).1]
    refine hreads.forall_operand (P := Fits operation.opcode) (fun s => ?_)
      (fun _ _ _ _ hx => fits_of_argument? hx) s
    rw [operand_operation hoperation]
    split
    · next hs =>
      rw [hs]
      exact .guard hguard
    · exact .absent s

theorem IsRead.isGuard {i : Instruction} (h : IsRead i) : IsGuard i.guard := by
  cases h with
  | intro hguard =>
    rw [guard_putAll]
    exact hguard

/-- Only a comparison has a second destination, and it is a predicate. -/
theorem IsRead.second {i : Instruction} (h : IsRead i) :
    i.q = .invalid ∨ i.opcode = .setp ∧ ∃ name, i.q = .predicate name := by
  cases h with
  | @intro guard operation token ts xs _ hoperation _ _ _ _ hreads =>
    have hbare : operation.q = .invalid := by rw [(operationText_of_readOperation hoperation).2]
    cases xs with
    | nil => exact .inl hbare
    | cons x xs =>
      rw [(operation_putAll _ _ _).1, q_putAll_arguments _ x xs hreads.second_tail]
      cases hx : x.2 with
      | none => exact .inl hbare
      | some q =>
        obtain ⟨hop, -, hname⟩ := hreads.second x (List.mem_cons_self ..) q hx
        exact .inr ⟨hop, hname⟩

namespace Fits

variable {opcode : Opcode} {s : Slot} {op x : Operand}

theorem form_of_elements_ne_nil (h : Fits opcode s op) (hne : op.elements ≠ []) : op.Form := by
  cases h with
  | absent => exact absurd rfl hne
  | guard h => cases h <;> exact absurd rfl hne
  | comparison => exact absurd rfl hne
  | target => exact absurd rfl hne
  | form _ h => exact h

/-- Only a comparison writes a predicate without a name. -/
theorem comparison_of_eq_predicate (h : Fits opcode s op) (heq : op = .predicate "") :
    opcode = .setp ∧ (s = .d ∨ s = .q) := by
  cases h with
  | absent => cases congrArg Operand.mode heq
  | guard h => exact absurd heq h.ne_predicate
  | comparison hop hs => exact ⟨hop, hs⟩
  | target => cases congrArg Operand.mode heq
  | form _ h => exact absurd heq h.ne_predicate

theorem eq_indirect (h : Fits opcode s op) (hmode : op.mode = .indirect) :
    ∃ base offset type, op = .indirect base offset type := by
  cases h with
  | absent => cases hmode
  | guard h => cases h <;> cases hmode
  | comparison => cases hmode
  | target => cases hmode
  | form _ h => exact h.eq_indirect hmode

theorem isNumbered_of_mem_scalars (h : Fits opcode s op) (hx : x ∈ op.scalars)
    (hlike : x.isRegisterLike = true) (hname : x.name ≠ "") : op.isNumbered = true := by
  cases h with
  | absent =>
    rw [List.mem_singleton.1 hx] at hname
    exact absurd rfl hname
  | guard h =>
    cases h with
    | always =>
      rw [List.mem_singleton.1 hx] at hname
      exact absurd rfl hname
    | never =>
      rw [List.mem_singleton.1 hx] at hname
      exact absurd rfl hname
    | ifTrue => exact Operand.isNumbered_register _ .pred
    | ifFalse => exact isNumbered_negate_predicate _
  | comparison _ _ name => exact Operand.isNumbered_register name .pred
  | target =>
    rw [List.mem_singleton.1 hx] at hlike
    cases hlike
  | form _ h => exact h.isNumbered_of_mem_scalars hx hlike

theorem condition_eq (h : Fits opcode s op) (hs : s ≠ .guard) : op.condition = .ifTrue := by
  cases h with
  | absent => rfl
  | guard => exact absurd rfl hs
  | comparison => rfl
  | target => rfl
  | form _ h => exact h.condition_eq

theorem destination_of_bra (h : Fits .bra .d op) : op = .invalid ∨ ∃ name, op = .label name := by
  cases h with
  | absent => exact .inl rfl
  | comparison hop => cases hop
  | target name => exact .inr ⟨name, rfl⟩
  | form hs => exact absurd rfl (hs rfl)

end Fits

/-- The registers that an instruction mentions, in all of its slots. -/
def registers (i : Instruction) : List Operand :=
  Slot.all.flatMap fun s => (i.operand s).scalars.filter fun x => x.isRegisterLike && ! x.name.isEmpty

theorem IsRead.numberedScalars_subset {i : Instruction} (h : IsRead i)
    (hspecial : ∀ s, ∀ e ∈ (i.operand s).elements, e.mode ≠ .special) :
    i.numberedScalars ⊆ i.registers := by
  intro x hx
  obtain ⟨s, hs, hx⟩ := List.mem_flatMap.1 hx
  unfold Operand.numberedScalars at hx
  split at hx
  · next hnumbered =>
    obtain ⟨hx, hname⟩ := List.mem_filter.1 hx
    -- The elements of a vector are register-like as long as none is a hardware register.
    have hlike : x.isRegisterLike = true := by
      unfold Operand.scalars at hx
      split at hx
      · rw [List.mem_singleton.1 hx]
        simp only [Operand.isNumbered, Bool.and_eq_true] at hnumbered
        exact hnumbered.2
      · next hne =>
        have hform := (h.fits s).form_of_elements_ne_nil (by simpa using hne)
        rw [Operand.isRegisterLike, hform.mode_of_mem_elements hx (hspecial s x hx)]
        rfl
    refine List.mem_flatMap.2 ⟨s, hs, List.mem_filter.2 ⟨hx, ?_⟩⟩
    rw [hlike, hname]
    rfl
  · cases hx

theorem IsRead.isNumbered_of_bra {i : Instruction} (h : IsRead i) (hop : i.opcode = .bra) :
    i.d.isNumbered = false := by
  have hfits := h.fits .d
  rw [hop] at hfits
  rcases hfits.destination_of_bra with heq | ⟨name, heq⟩
  · rw [show i.d = .invalid from heq]
    rfl
  · rw [show i.d = .label name from heq]
    exact Operand.isNumbered_of_label rfl

/-! ## Other destinations -/

theorem Legible.renameDestination {i : Instruction} (h : i.Legible) {name : String}
    (hlabel : isLabelName name.toList = true) : (i.renameDestination name).Legible := by
  constructor
  · exact h.call
  · exact fun _ => hlabel
  · intro s
    rw [operand_renameDestination]
    split
    · exact h.special .d
    · exact h.special s
  · intro s
    rw [operand_renameDestination]
    split
    · exact h.immediate .d
    · exact h.immediate s
  · exact h.operation

end KernelListing.Instruction
