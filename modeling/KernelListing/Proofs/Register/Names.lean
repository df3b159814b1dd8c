import KernelListing.Proofs.Register.Numbering

/-!
# Numbers do not depend on names

Registers are numbered in the order in which their names are first met, so that names which are
told apart alike get the same numbers (`number_map`). Only the registers that a numbering visits
have names that count: `renameRegisters r` gives each of them the name that `r` has for it, and
leaves alone what is not numbered or has no name. Where the new names have the numbers of the old
ones, numbering makes the same of an instruction under either (`instruction_renameRegisters`).
-/

namespace KernelListing

namespace Numbering

/-! ## Names told apart alike -/

theorem idxOf_map_eq_idxOf_map {α : Type} {f g : α → String} {x : α} {l : List α}
    (h : ∀ y ∈ l, f y = f x ↔ g y = g x) : (l.map f).idxOf (f x) = (l.map g).idxOf (g x) := by
  induction l with
  | nil => rfl
  | cons y l ih =>
    obtain ⟨hy, hl⟩ := List.forall_mem_cons.1 h
    rw [List.map_cons, List.map_cons, List.idxOf_cons, List.idxOf_cons, ih hl]
    by_cases heq : f y = f x
    · rw [heq, hy.1 heq, beq_self_eq_true, beq_self_eq_true]
    · rw [beq_eq_false_iff_ne.2 heq, beq_eq_false_iff_ne.2 (mt hy.2 heq)]

theorem mem_map_iff_mem_map {α : Type} {f g : α → String} {x : α} {l : List α}
    (h : ∀ y ∈ l, f y = f x ↔ g y = g x) : f x ∈ l.map f ↔ g x ∈ l.map g := by
  rw [List.mem_map, List.mem_map]
  exact ⟨fun ⟨y, hy, heq⟩ => ⟨y, hy, (h y hy).1 heq⟩, fun ⟨y, hy, heq⟩ => ⟨y, hy, (h y hy).2 heq⟩⟩

theorem ofNames_concat (names : List String) (name : String) :
    ofNames (names ++ [name]) = if name ∈ (ofNames names).names then ofNames names
      else ⟨(ofNames names).names ++ [name]⟩ := by
  rw [ofNames, note_append, note_singleton]
  rfl

section map

variable {α : Type} {f g : α → String} {l : List α}
  (h : ∀ x ∈ l, ∀ y ∈ l, f x = f y ↔ g x = g y)

include h

/-- The first occurrences of the names are the same. -/
theorem exists_names_eq_map : ∃ first, first ⊆ l ∧ (ofNames (l.map f)).names = first.map f ∧
    (ofNames (l.map g)).names = first.map g := by
  induction l using List.reverseRecOn with
  | nil => exact ⟨[], List.Subset.refl _, rfl, rfl⟩
  | append_singleton l x ih =>
    obtain ⟨first, hfirst, hf, hg⟩ := ih fun x hx y hy =>
      h x (List.mem_append_left _ hx) y (List.mem_append_left _ hy)
    have hmem : f x ∈ first.map f ↔ g x ∈ first.map g := mem_map_iff_mem_map fun y hy =>
      h y (List.mem_append_left _ (hfirst hy)) x
        (List.mem_append_right _ (List.mem_singleton_self x))
    simp only [List.map_append, List.map_singleton, ofNames_concat, hf, hg]
    by_cases hin : f x ∈ first.map f
    · rw [if_pos hin, if_pos (hmem.1 hin)]
      exact ⟨first, List.Subset.trans hfirst (List.subset_append_left _ _), hf, hg⟩
    · rw [if_neg hin, if_neg (mt hmem.2 hin)]
      refine ⟨first ++ [x], List.append_subset.2 ⟨?_, List.subset_append_right _ _⟩,
        by simp, by simp⟩
      exact List.Subset.trans hfirst (List.subset_append_left _ _)

/-- Names that are told apart alike get the same numbers. -/
theorem number_map {x : α} (hx : x ∈ l) :
    (ofNames (l.map f)).number (f x) = (ofNames (l.map g)).number (g x) := by
  obtain ⟨first, hfirst, hf, hg⟩ := exists_names_eq_map h
  rw [number, number, hf, hg]
  exact idxOf_map_eq_idxOf_map fun y hy => h y (hfirst hy) x hx

end map

theorem mem_ofNames {names : List String} {name : String} (h : name ∈ names) :
    name ∈ (ofNames names).names := mem_note h

end Numbering

/-! ## Registers under other names -/

namespace Operand

/-- The registers of an operand that have names and are to be numbered. -/
def numberedScalars (op : Operand) : List Operand :=
  if op.isNumbered then op.scalars.filter fun x => ! x.name.isEmpty else []

/-- The register under another name, if it has a name. -/
def renameScalar (r : Operand → String) (op : Operand) : Operand :=
  if op.name.isEmpty then op else { op with name := r op }

/-- The operand with other names for its registers. -/
def renameRegisters (r : Operand → String) (op : Operand) : Operand :=
  if ! op.isNumbered then op
  else if op.elements.isEmpty then op.renameScalar r
  else { op with elements := op.elements.map (renameScalar r) }

theorem registerNames_eq (op : Operand) :
    op.registerNames = op.numberedScalars.map (·.name) := by
  have hscalars : ∀ ops : List Operand,
      ops.flatMap ownName = (ops.filter fun x => ! x.name.isEmpty).map (·.name) := by
    intro ops
    induction ops with
    | nil => rfl
    | cons x ops ih =>
      rw [List.flatMap_cons, ih, ownName, List.filter_cons]
      cases x.name.isEmpty <;> rfl
  unfold registerNames numberedScalars
  split
  · exact hscalars op.scalars
  · rfl

section renameRegisters

variable (r : Operand → String) (op : Operand)

theorem elements_renameScalar : (op.renameScalar r).elements = op.elements := by
  unfold renameScalar
  split <;> rfl

/-- Nothing but names is changed. -/
theorem exists_renameRegisters :
    ∃ name elements, op.renameRegisters r = { op with name, elements } := by
  unfold renameRegisters renameScalar
  obtain ⟨mode, name, number, type, elements, condition, offset, value⟩ := op
  split
  · exact ⟨name, elements, rfl⟩
  · split
    · split
      · exact ⟨name, elements, rfl⟩
      · exact ⟨_, elements, rfl⟩
    · exact ⟨name, _, rfl⟩

@[simp] theorem mode_renameRegisters : (op.renameRegisters r).mode = op.mode := by
  obtain ⟨name, elements, heq⟩ := exists_renameRegisters r op
  rw [heq]

@[simp] theorem type_renameRegisters : (op.renameRegisters r).type = op.type := by
  obtain ⟨name, elements, heq⟩ := exists_renameRegisters r op
  rw [heq]

@[simp] theorem condition_renameRegisters : (op.renameRegisters r).condition = op.condition := by
  obtain ⟨name, elements, heq⟩ := exists_renameRegisters r op
  rw [heq]

@[simp] theorem isNumbered_renameRegisters :
    (op.renameRegisters r).isNumbered = op.isNumbered := by
  simp [isNumbered, isValid, isAlwaysTrue, isPredicate, isRegisterLike]

variable {r op}

theorem renameRegisters_of_not_isNumbered (h : op.isNumbered = false) :
    op.renameRegisters r = op := by
  rw [renameRegisters, h]
  rfl

theorem scalars_renameRegisters (h : op.isNumbered = true) :
    (op.renameRegisters r).scalars = op.scalars.map (renameScalar r) := by
  unfold renameRegisters
  rw [h]
  by_cases hempty : op.elements.isEmpty
  · simp [scalars, hempty, elements_renameScalar]
  · simp [scalars, hempty]

theorem flatMap_ownName_renameScalar {ops : List Operand}
    (h : ∀ x ∈ ops.filter fun x => ! x.name.isEmpty, r x ≠ "") :
    (ops.map (renameScalar r)).flatMap ownName =
      (ops.filter fun x => ! x.name.isEmpty).map r := by
  induction ops with
  | nil => rfl
  | cons x ops ih =>
    rw [List.map_cons, List.flatMap_cons]
    cases hempty : x.name.isEmpty with
    | true =>
      rw [List.filter_cons_of_neg (by simp [hempty])] at h ⊢
      rw [ih h]
      simp [renameScalar, ownName, hempty]
    | false =>
      rw [List.filter_cons_of_pos (by simp [hempty])] at h ⊢
      obtain ⟨hx, hrest⟩ := List.forall_mem_cons.1 h
      rw [ih hrest]
      simp [renameScalar, ownName, hempty, hx]

theorem registerNames_renameRegisters (h : ∀ x ∈ op.numberedScalars, r x ≠ "") :
    (op.renameRegisters r).registerNames = op.numberedScalars.map r := by
  unfold registerNames
  rw [isNumbered_renameRegisters]
  unfold numberedScalars at h ⊢
  cases hnumbered : op.isNumbered with
  | false => rfl
  | true =>
    rw [hnumbered] at h
    simp only [if_true] at h ⊢
    rw [scalars_renameRegisters hnumbered, flatMap_ownName_renameScalar h]

end renameRegisters

theorem name_ne_of_mem_numberedScalars {op x : Operand} (h : x ∈ op.numberedScalars) :
    x.name ≠ "" := by
  unfold numberedScalars at h
  split at h
  · simpa using (List.mem_filter.1 h).2
  · cases h

end Operand

namespace Instruction

def numberedScalars (i : Instruction) : List Operand :=
  Slot.all.flatMap fun s => (i.operand s).numberedScalars

def renameRegisters (r : Operand → String) (i : Instruction) : Instruction :=
  { i with
    d := i.d.renameRegisters r, a := i.a.renameRegisters r, b := i.b.renameRegisters r,
    c := i.c.renameRegisters r, guard := i.guard.renameRegisters r,
    q := i.q.renameRegisters r }

theorem registerNames_eq (i : Instruction) :
    i.registerNames = i.numberedScalars.map (·.name) := by
  simp only [registerNames, numberedScalars, List.map_flatMap, Operand.registerNames_eq]

theorem operand_renameRegisters (r : Operand → String) (i : Instruction) (s : Slot) :
    (i.renameRegisters r).operand s = (i.operand s).renameRegisters r := by
  cases s <;> rfl

theorem mem_numberedScalars {i : Instruction} {s : Slot} {x : Operand}
    (h : x ∈ (i.operand s).numberedScalars) : x ∈ i.numberedScalars :=
  List.mem_flatMap.2 ⟨s, s.mem_all, h⟩

theorem name_ne_of_mem_numberedScalars {i : Instruction} {x : Operand}
    (h : x ∈ i.numberedScalars) : x.name ≠ "" := by
  obtain ⟨s, -, hs⟩ := List.mem_flatMap.1 h
  exact Operand.name_ne_of_mem_numberedScalars hs

theorem registerNames_renameRegisters {r : Operand → String} {i : Instruction}
    (h : ∀ x ∈ i.numberedScalars, r x ≠ "") :
    (i.renameRegisters r).registerNames = i.numberedScalars.map r := by
  simp only [registerNames, numberedScalars, List.map_flatMap, operand_renameRegisters]
  exact List.flatMap_congr fun s _ =>
    Operand.registerNames_renameRegisters fun x hx => h x (mem_numberedScalars hx)

end Instruction

theorem FlowGraph.ne_empty_of_mem_registerNames {g : FlowGraph} {name : String}
    (h : name ∈ g.registerNames) : name ≠ "" := by
  obtain ⟨b, -, hb⟩ := List.mem_flatMap.1 h
  obtain ⟨i, -, hi⟩ := List.mem_flatMap.1 hb
  rw [i.registerNames_eq] at hi
  obtain ⟨x, hx, rfl⟩ := List.mem_map.1 hi
  exact Instruction.name_ne_of_mem_numberedScalars hx

/-! ## The numbers -/

namespace Numbering

/-- The new names of some registers have the numbers that another numbering has for the old. -/
def Agrees (m' m : Numbering) (r : Operand → String) (xs : List Operand) : Prop :=
  ∀ x ∈ xs, r x ≠ "" ∧ m'.number (r x) = m.number x.name

section agrees

variable {m m' : Numbering} {r : Operand → String}

theorem scalar_renameScalar {x : Operand}
    (h : x.name.isEmpty = false → r x ≠ "" ∧ m'.number (r x) = m.number x.name) :
    m'.scalar (x.renameScalar r) = m.scalar x := by
  unfold Operand.renameScalar scalar
  cases hempty : x.name.isEmpty with
  | true => simp [hempty]
  | false =>
    obtain ⟨hne, hnumber⟩ := h hempty
    simp [hne, hnumber]

theorem operand_renameRegisters {op : Operand} (h : m'.Agrees m r op.numberedScalars) :
    m'.operand (op.renameRegisters r) = m.operand op := by
  cases hnumbered : op.isNumbered with
  | false =>
    rw [Operand.renameRegisters_of_not_isNumbered hnumbered, operand_of_not_isNumbered _ hnumbered,
      operand_of_not_isNumbered _ hnumbered]
  | true =>
    have hscalar : ∀ x ∈ op.scalars, m'.scalar (x.renameScalar r) = m.scalar x := by
      refine fun x hx => scalar_renameScalar fun hne => h x ?_
      rw [Operand.numberedScalars, if_pos hnumbered, List.mem_filter]
      exact ⟨hx, by rw [hne]; rfl⟩
    unfold operand
    rw [Operand.isNumbered_renameRegisters, hnumbered]
    unfold Operand.renameRegisters
    rw [hnumbered]
    unfold Operand.scalars at hscalar
    cases hempty : op.elements.isEmpty with
    | true =>
      rw [hempty] at hscalar
      simpa [Operand.elements_renameScalar, hempty] using hscalar
    | false =>
      rw [hempty] at hscalar
      simp only [Bool.not_true, Bool.false_eq_true, if_false, List.isEmpty_map, hempty,
        List.map_map]
      congr 1
      exact List.map_congr_left hscalar

theorem instruction_renameRegisters {i : Instruction} (h : m'.Agrees m r i.numberedScalars) :
    m'.instruction (i.renameRegisters r) = m.instruction i := by
  have hoperand : ∀ s, m'.operand ((i.operand s).renameRegisters r) = m.operand (i.operand s) :=
    fun s => operand_renameRegisters fun x hx => h x (Instruction.mem_numberedScalars hx)
  rw [instruction_eq, instruction_eq, Instruction.renameRegisters]
  exact congr (congr (congr (congr (congr (congrArg _ (hoperand .d)) (hoperand .a)) (hoperand .b))
    (hoperand .c)) (hoperand .guard)) (hoperand .q)

end agrees

end Numbering

/-! ## Branches under other destinations -/

namespace Instruction

theorem operand_renameDestination (i : Instruction) (name : String) (s : Slot) :
    (i.renameDestination name).operand s =
      if s = .d then { i.d with name } else i.operand s := by
  cases s <;> rfl

theorem numberedScalars_renameDestination {i : Instruction} (h : i.d.isNumbered = false)
    (name : String) : (i.renameDestination name).numberedScalars = i.numberedScalars := by
  refine List.flatMap_congr fun s _ => ?_
  rw [operand_renameDestination]
  split
  · next hs =>
    subst hs
    have hrenamed : ({ i.d with name } : Operand).isNumbered = false := h
    rw [Operand.numberedScalars, hrenamed, Operand.numberedScalars, operand, h]
    rfl
  · rfl

end Instruction

/-- The destination of a branch has no register, so that renaming it does not touch the numbers. -/
theorem Numbering.instruction_renameDestination (m : Numbering) {i : Instruction}
    (h : i.d.isNumbered = false) (name : String) :
    m.instruction (i.renameDestination name) = (m.instruction i).renameDestination name := by
  have hrenamed : (i.renameDestination name).d.isNumbered = false := h
  rw [m.instruction_eq, m.instruction_eq, m.operand_of_not_isNumbered hrenamed,
    m.operand_of_not_isNumbered h]
  rfl

end KernelListing
