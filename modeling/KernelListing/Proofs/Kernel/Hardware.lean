import KernelListing.Proofs.Kernel.Registers

/-!
# Hardware registers

A hardware register is written by its name and has no number, as long as it stands alone in its
slot. In a vector it is visited like the other elements and loses its name, and as the base of an
address it is not told from other registers. `keepsHardware_iff` says that there is no other way to
number a hardware register that is read.
-/

namespace KernelListing.Kernel

open Operand

/-- Where registers are read, those of the hardware have no numbers, and each hardware register is
still written by its name. -/
structure KeepsHardware (ss : List Statement) (k : Kernel) : Prop where
  /-- The names that come from a source, a vector or the base of an address. -/
  unnumbered : ∀ i ∈ Statement.instructions ss, ∀ s, s ∈ [.a, .b, .c] ∨
      (i.operand s).isVector = true ∨ (i.operand s).mode = .indirect →
    ∀ name ∈ (i.operand s).registerNames, name ∈ k.numbering.names →
      isHardwareName name.toList = false
  written : ∀ (p : Site) x, p.scalar? (Statement.instructions ss) = some x → x.mode = .special →
    ∃ x', p.scalar? k.graph.instructions = some x' ∧ x'.text = x.name

/-- Hardware registers stand neither in a vector nor at the base of an address. -/
def HardwareApart (ss : List Statement) : Prop :=
  ∀ i ∈ Statement.instructions ss, ∀ s, (∀ e ∈ (i.operand s).elements, e.mode ≠ .special) ∧
    ((i.operand s).mode = .indirect → isHardwareName (i.operand s).name.toList = false)

theorem text_of_mode_eq_special {op : Operand} (h : op.mode = .special) : op.text = op.name := by
  obtain ⟨⟩ := op
  subst h
  rfl

theorem exists_of_mem_registerNames {op : Operand} {name : String} (h : name ∈ op.registerNames) :
    op.isNumbered = true ∧ ∃ x ∈ op.scalars, x.name = name ∧ name ≠ "" := by
  unfold registerNames at h
  split at h
  · next hnumbered =>
    obtain ⟨x, hx, hname⟩ := List.mem_flatMap.1 h
    unfold ownName at hname
    split at hname
    · cases hname
    · next hne =>
      rw [List.mem_singleton] at hname
      exact ⟨hnumbered, x, hx, hname.symm, by simpa [hname] using hne⟩
  · cases h

/-- A register that is numbered where it is read is no hardware register, unless it stands in a
vector or at the base of an address. -/
theorem isHardwareName_of_mem_registerNames {opcode : Opcode} {s : Slot} {op : Operand}
    (h : Instruction.Fits opcode s op)
    (hread : s ∈ [.a, .b, .c] ∨ op.isVector = true ∨ op.mode = .indirect)
    (hspecial : ∀ e ∈ op.elements, e.mode ≠ .special)
    (hbase : op.mode = .indirect → isHardwareName op.name.toList = false) {name : String}
    (hname : name ∈ op.registerNames) : isHardwareName name.toList = false := by
  obtain ⟨hnumbered, x, hx, rfl, -⟩ := exists_of_mem_registerNames hname
  -- The elements of a vector are told apart by their modes; any other operand has one name, its
  -- own.
  by_cases hvector : op.elements = []
  · have hself := hx
    rw [scalars_of_elements_eq_nil hvector, List.mem_singleton] at hself
    by_cases hmode : op.mode = .indirect
    · rw [hself]
      exact hbase hmode
    · have hs : s ∈ [.a, .b, .c] := by simpa [isVector, hvector, hmode] using hread
      have hregister : op.mode = .register := by
        have hlike := (Bool.and_eq_true_iff.1 hnumbered).2
        simpa [isRegisterLike, hmode] using hlike
      cases h with
      | absent => cases hnumbered
      | guard => exact absurd hs (by decide)
      | comparison _ hd => rcases hd with rfl | rfl <;> exact absurd hs (by decide)
      | target => exact absurd hs (by decide)
      | form _ h => exact (h.isHardwareName_of_mem_scalars hx).2 (hself ▸ hregister)
  · have hform := h.form_of_elements_ne_nil hvector
    have helement := hx
    rw [scalars, if_neg (by simpa using hvector)] at helement
    exact (hform.isHardwareName_of_mem_scalars hx).2
      (hform.mode_of_mem_elements helement (hspecial x helement))

section built

variable {ss : List Statement} {k : Kernel} (h : ofStatements ss = .ok k)
  (hread : ∀ s ∈ ss, s.IsRead)

include h hread

theorem keepsHardware_of_hardwareApart (hapart : HardwareApart ss) : KeepsHardware ss k := by
  constructor
  · intro i hi s hs name hname _
    obtain ⟨hspecial, hbase⟩ := hapart i hi s
    have hfits := (Statement.isRead_of_mem_instructions hread hi).fits s
    exact isHardwareName_of_mem_registerNames hfits hs hspecial hbase hname
  · intro p x hx hmode
    obtain ⟨i, hi, hmem, hscalar⟩ := scalar?_ofStatements h hx
    have hself : x = i.operand p.slot := by
      unfold scalars at hmem
      split at hmem
      · exact List.mem_singleton.1 hmem
      · exact absurd hmode ((hapart i hi p.slot).1 x hmem)
    have hnumbered : (i.operand p.slot).isNumbered = false := by
      simp [isNumbered, isRegisterLike, ← hself, hmode]
    have hbra : i.opcode = .bra → p.slot ≠ .d := by
      intro hop hd
      have hfits := (Statement.isRead_of_mem_instructions hread hi).fits p.slot
      rw [hop, ← hself, hd] at hfits
      rcases hfits.destination_of_bra with rfl | ⟨name, rfl⟩ <;> cases hmode
    rw [hnumbered] at hscalar
    exact ⟨x, hscalar hbra, text_of_mode_eq_special hmode⟩

theorem hardwareApart_of_keepsHardware (hkeeps : KeepsHardware ss k) : HardwareApart ss := by
  intro i hi s
  have hfits := (Statement.isRead_of_mem_instructions hread hi).fits s
  constructor
  · intro e he hmode
    have hvector := List.ne_nil_of_mem he
    have hform := hfits.form_of_elements_ne_nil hvector
    have hmem : e ∈ (i.operand s).scalars := by
      rwa [scalars, if_neg (by simpa using hvector)]
    obtain ⟨hhardware, hne⟩ := (hform.isHardwareName_of_mem_scalars hmem).1 hmode
    have hname := mem_registerNames (hform.isNumbered_of_elements_ne_nil hvector) hmem hne
    have hisVector : (i.operand s).isVector = true := by simpa [isVector] using hvector
    have hfalse := hkeeps.unnumbered i hi s (.inr (.inl hisVector)) _ hname
      (mem_names_of_mem_registerNames h hread hi hname)
    rw [hhardware] at hfalse
    cases hfalse
  · intro hmode
    obtain ⟨base, offset, type, heq⟩ := hfits.eq_indirect hmode
    by_cases hempty : base = ""
    · rw [heq, hempty]
      rfl
    · have hname : (i.operand s).name ∈ (i.operand s).registerNames := by
        rw [heq]
        exact mem_registerNames (isNumbered_indirect offset type base) (List.mem_singleton_self _)
          hempty
      exact hkeeps.unnumbered i hi s (.inr (.inr hmode)) _ hname
        (mem_names_of_mem_registerNames h hread hi hname)

end built

/-- Hardware registers are kept just where they are apart. -/
theorem keepsHardware_iff {text : String} {k : Kernel}
    (h : ofStatements (Source.read text).statements = .ok k) :
    KeepsHardware (Source.read text).statements k ↔
      HardwareApart (Source.read text).statements := by
  have hread : ∀ s ∈ (Source.read text).statements, s.IsRead := fun s hs =>
    Source.isRead_of_mem_read hs
  exact ⟨hardwareApart_of_keepsHardware h hread, keepsHardware_of_hardwareApart h hread⟩

/-- A hardware register that is copied. -/
def copied : String := "mov.u32 %r1, %tid.x;\nexit;\n"

def scalarCopy : Instruction where
  opcode := .mov
  type := some .u32
  d := .register "%r1" .u32
  a := .special "%tid.x" .u32

theorem read_copied : Source.read copied =
    { statements := [.instruction scalarCopy, .instruction { opcode := .exit }] } := by
  decide +kernel

theorem keepsHardware_iff_copied : ∃ k, ofStatements (Source.read copied).statements = .ok k ∧
    KeepsHardware (Source.read copied).statements k := by
  obtain ⟨k, hk⟩ : ∃ k, ofStatements (Source.read copied).statements = .ok k := by
    rw [read_copied]
    exact ⟨_, rfl⟩
  refine ⟨k, hk, (keepsHardware_iff hk).2 ?_⟩
  rw [read_copied]
  intro i hi s
  revert i
  cases s <;> decide

/-- A hardware register that is copied in a vector. -/
def copiedInVector : String := "mov.v2.u32 %r1, \x7b%tid.x, %r2\x7d;\nexit;\n"

def vectorCopy : Instruction where
  opcode := .mov
  modifiers := ".v2"
  type := some .u32
  d := .register "%r1" .u32
  a := vectorOf .u32 [.special "%tid.x" .u32, .register "%r2" .u32]

theorem read_copiedInVector : Source.read copiedInVector =
    { statements := [.instruction vectorCopy, .instruction { opcode := .exit }] } := by
  decide +kernel

/-- In a vector the hardware register gets a number, and nothing is left of its name. -/
theorem not_keepsHardware_copiedInVector :
    ∃ k, ofStatements (Source.read copiedInVector).statements = .ok k ∧
      ¬ KeepsHardware (Source.read copiedInVector).statements k := by
  rw [read_copiedInVector]
  refine ⟨_, rfl, fun hkeeps => ?_⟩
  have hfalse := hkeeps.unnumbered vectorCopy (List.mem_cons_self ..) .a (.inl (by decide)) "%tid.x"
    (by decide) (by decide)
  revert hfalse
  decide

end KernelListing.Kernel
