import KernelListing.Proofs.Instruction.Layout
import KernelListing.Proofs.Operand.Forms

/-!
# Arguments and guards by number

The registers of an instruction stand in its arguments and in its guard. Each of these is written
with the numbers of its registers, and its text is read with new names for them. An argument also
stands for the token that it was read from.
-/

namespace KernelListing

open Text Instruction

/-- The instruction as it is read once its registers have been written by their numbers. -/
def Numbering.spelledInstruction (m : Numbering) (i : Instruction) : Instruction :=
  { i with
    d := m.spelled i.d, a := m.spelled i.a, b := m.spelled i.b, c := m.spelled i.c,
    guard := m.spelled i.guard, q := m.spelled i.q }

/-- The instruction as it is read once it has been written with the numbers of its registers. -/
def Numbering.rereadInstruction (m : Numbering) (i : Instruction) : Instruction :=
  { i with
    d := m.reread i.d, a := m.reread i.a, b := m.reread i.b, c := m.reread i.c,
    guard := m.reread i.guard, q := m.reread i.q }

/-- Where every predicate has a name, an instruction is read with the names by its numbers. -/
theorem Numbering.rereadInstruction_eq {m : Numbering} {i : Instruction}
    (h : ∀ s, i.operand s ≠ .predicate "") : m.rereadInstruction i = m.spelledInstruction i := by
  have hd : m.reread i.d = m.spelled i.d := reread_of_ne (h .d)
  have ha : m.reread i.a = m.spelled i.a := reread_of_ne (h .a)
  have hb : m.reread i.b = m.spelled i.b := reread_of_ne (h .b)
  have hc : m.reread i.c = m.spelled i.c := reread_of_ne (h .c)
  have hguard : m.reread i.guard = m.spelled i.guard := reread_of_ne (h .guard)
  have hq : m.reread i.q = m.spelled i.q := reread_of_ne (h .q)
  rw [rereadInstruction, spelledInstruction, hd, ha, hb, hc, hguard, hq]

namespace Instruction

def Argument.text (m : Numbering) (x : Argument) : String :=
  (m.operand x.1).text ++ (x.2.map fun q => "|" ++ (m.operand q).text).getD ""

def Argument.reread (m : Numbering) (x : Argument) : Argument :=
  (m.reread x.1, x.2.map m.reread)

/-- What is asked of an argument so that its text can be read. -/
structure Argument.Legible (opcode : Opcode) (s : Slot) (x : Argument) : Prop where
  call : opcode ≠ .call
  branch : opcode = .bra → s = .d → isLabelName x.1.name.toList = true
  special : ∀ e ∈ x.1.elements, e.mode ≠ .special
  immediate : x.1.mode = .immediate → x.1.value ≠ Int64.minValue

theorem isNamed_predicate {name : String} (h : name ≠ "") (type : DataType) :
    Operand.IsNamed type (.predicate name) :=
  ⟨name, .pred, rfl, h, .inl rfl⟩

/-- The text of an argument stands for the token that the argument was read from, and is read as
the argument with new names for its registers. -/
structure Argument.ReadsBack (m : Numbering) (opcode : Opcode) (type : Option DataType) (s : Slot)
    (t : List Char) (x : Argument) : Prop where
  valid : x.1.isValid = true
  standsFor : StandsFor (x.text m).toList t
  read : argument? opcode type s (x.text m).toList = .ok (x.reread m)

section argument

variable {opcode : Opcode} {type : Option DataType} {s : Slot} {t : List Char} {x : Argument}

theorem text_predicate (name : String) (m : Numbering) :
    (m.operand (.predicate name)).text = m.predicateName name := by
  by_cases h : name = ""
  · subst h
    rw [Numbering.predicateName, if_pos rfl]
    simp [Numbering.operand, Numbering.scalar, Operand.predicate, Operand.register, Operand.text,
      Operand.registerText, Operand.spelling, Operand.isPredicate, DataType.isPredicate]
  · have hnamed := isNamed_predicate h .pred
    rw [hnamed.operand, hnamed.text_scalar, Numbering.predicateName, if_neg h]
    rfl

theorem spelled_predicate {name : String} (h : name ≠ "") (m : Numbering) :
    m.spelled (.predicate name) = .predicate (m.registerName (.predicate name)) := by
  rw [(isNamed_predicate h .pred).spelled]
  exact Numbering.spelledScalar_of_name h

theorem reread_predicate (name : String) (m : Numbering) :
    m.reread (.predicate name) = .predicate (m.predicateName name) := by
  by_cases h : name = ""
  · subst h
    exact if_pos rfl
  · have hne : Operand.predicate name ≠ .predicate "" := fun heq => h (congrArg Operand.name heq)
    rw [Numbering.reread_of_ne hne, spelled_predicate h, Numbering.predicateName, if_neg h]
    rfl

theorem readsBack_predicate (name : String) (t : List Char) (m : Numbering) :
    Argument.ReadsBack m .setp type .d t (.predicate name, none) := by
  have htoken := m.isToken_predicateName name
  have hne := m.predicateName_ne_nil name
  have htext : Argument.text m (.predicate name, none) = m.predicateName name := by
    simp [Argument.text, text_predicate]
  constructor
  · rfl
  · rw [htext]
    exact standsFor_of_isToken htoken hne t
  · rw [htext, argument?, if_neg (by simpa using hne), cutAt?_of_forall (htoken.ne (by decide)),
      Argument.reread, reread_predicate, String.ofList_toList]
    rfl

theorem readsBack_pair (name name' : String) (t : List Char) (m : Numbering) :
    Argument.ReadsBack m .setp type .d t (.predicate name, some (.predicate name')) := by
  have htoken := m.isToken_predicateName name
  have htoken' := m.isToken_predicateName name'
  have htext : (Argument.text m (.predicate name, some (.predicate name'))).toList =
      (m.predicateName name).toList ++ '|' :: (m.predicateName name').toList := by
    simp [Argument.text, text_predicate]
  constructor
  · rfl
  · rw [htext]
    refine standsFor_of_forall (fun c hc => ?_) (by simp) t
    rcases List.mem_append.1 hc with hc | hc
    · exact .inr (htoken c hc)
    · exact (List.mem_cons.1 hc).imp_right (htoken' c)
  · rw [htext, argument?, if_neg (by simp), cutAt?_append_cons (htoken.ne (by decide)) rfl]
    simp only [trim_eq_self htoken.trimmed, trim_eq_self htoken'.trimmed, String.ofList_toList,
      Argument.reread, Option.map_some, reread_predicate]

theorem readsBack_label {token : List Char} (h : isLabelName token = true) (t : List Char)
    (m : Numbering) :
    Argument.ReadsBack m .bra type .d t (.label (String.ofList token), none) := by
  have hnumbered : (Operand.label (String.ofList token)).isNumbered = false :=
    Operand.isNumbered_of_label rfl
  have htext : (Argument.text m (.label (String.ofList token), none)).toList = token := by
    rw [Argument.text, m.operand_of_not_isNumbered hnumbered]
    simp [Operand.label, Operand.text]
  have hne := isLabelName_ne_nil h
  constructor
  · rfl
  · rw [htext]
    exact standsFor_of_isToken (isToken_of_isLabelName h) hne t
  · rw [htext, argument?, if_neg (by simpa using hne), Argument.reread,
      Numbering.reread_of_not_isNumbered hnumbered]
    rfl

theorem readsBack_operand {type' : DataType} {op : Operand} {m : Numbering}
    (h : Operand.ReadsBack m type' t op) (hform : op.Form)
    (hread : ∀ cs, cs ≠ [] → argument? opcode type s cs =
      (Operand.readOperand cs type').map (·, none)) :
    Argument.ReadsBack m opcode type s t (op, none) := by
  have htext : Argument.text m (op, none) = (m.operand op).text := by simp [Argument.text]
  constructor
  · exact h.valid
  · rw [htext]
    exact h.standsFor
  · rw [htext, hread _ h.standsFor.ne_nil, h.read, Argument.reread,
      Numbering.reread_of_ne hform.ne_predicate]
    rfl

theorem readsBack_of_argument? (h : argument? opcode type s t = .ok x) (htrimmed : Trimmed t)
    (hcode : IsCode t) (hx : x.Legible opcode s) (m : Numbering) :
    Argument.ReadsBack m opcode type s t x := by
  cases readAs_of_argument? h with
  | pair => exact readsBack_pair _ _ t m
  | comparison => exact readsBack_predicate _ t m
  | target hop =>
    rcases hop with rfl | rfl
    · exact readsBack_label (by simpa [Operand.label] using hx.branch rfl rfl) t m
    · exact absurd rfl hx.call
  | operand hread _ _ hany =>
    have hback := Operand.readsBack_of_readOperand hread htrimmed hcode hx.special hx.immediate m
    exact readsBack_operand hback (Operand.form_of_readOperand hread) hany

end argument

/-! ## Arguments in their slots -/

theorem instruction_putAll (m : Numbering) {token : List Char} {operation : Instruction}
    (h : readOperation token = .ok operation) (guard : Operand) (xs : List Argument) :
    m.instruction ({ operation with guard }.putAll Slot.arguments xs) =
      { operation with guard := m.operand guard }.putAll Slot.arguments
        (xs.map (Argument.map m.operand)) :=
  (m.instruction_eq _).trans (mapOperands_operation rfl h guard xs)

theorem rereadInstruction_putAll (m : Numbering) {token : List Char} {operation : Instruction}
    (h : readOperation token = .ok operation) (guard : Operand) (xs : List Argument) :
    m.rereadInstruction ({ operation with guard }.putAll Slot.arguments xs) =
      { operation with guard := m.reread guard }.putAll Slot.arguments
        (xs.map (Argument.reread m)) :=
  mapOperands_operation (Numbering.reread_of_not_isNumbered rfl) h guard xs

theorem written_map_operand (m : Numbering) (x : Argument) :
    (x.map m.operand).written = x.text m := by
  rw [Argument.written, Argument.text, Argument.map, Option.map_map]
  rfl

theorem isValid_operand (m : Numbering) (op : Operand) : (m.operand op).isValid = op.isValid := by
  unfold Numbering.operand
  split
  · rfl
  · split
    · unfold Numbering.scalar
      split <;> rfl
    · rfl

/-! ## Guards -/

theorem isNumbered_negate_predicate (name : String) :
    (Operand.predicate name).negate.isNumbered = true := by
  simp [Operand.isNumbered, Operand.predicate, Operand.register, Operand.negate,
    Condition.negate, Operand.isValid, Operand.isAlwaysTrue, Operand.isRegisterLike]

theorem spelled_negate_predicate {name : String} (h : name ≠ "") (m : Numbering) :
    m.spelled (Operand.predicate name).negate =
      (Operand.predicate (m.registerName (.predicate name))).negate := by
  rw [Numbering.spelled, isNumbered_negate_predicate]
  have hname : (Operand.predicate name).negate.name ≠ "" := h
  exact Numbering.spelledScalar_of_name hname

theorem IsGuard.ne_predicate {g : Operand} (h : IsGuard g) : g ≠ .predicate "" := by
  intro heq
  cases h with
  | always => cases congrArg Operand.condition heq
  | never => cases congrArg Operand.condition heq
  | ifTrue hname => exact hname.ne (congrArg Operand.name heq)
  | ifFalse hname => exact hname.ne (congrArg Operand.name heq)

theorem isGuardName_registerName (m : Numbering) (op : Operand) :
    IsGuardName (m.registerName op) := by
  have htoken := m.isToken_registerName op
  obtain ⟨rest, hrest⟩ := m.exists_registerName op
  refine ⟨?_, fun c hc => not_isBlank_of_isTokenChar (htoken c hc), htoken.isCode⟩
  rw [hrest]
  rfl

/-- A guard under its new name is a guard, and has the text of the numbered one. -/
theorem IsGuard.reread {g : Operand} (h : IsGuard g) (m : Numbering) :
    IsGuard (m.reread g) ∧ (m.operand g).guardText = (m.reread g).guardText ∧
      (m.reread g = .alwaysTrue → g = .alwaysTrue) := by
  -- A constant guard has no register in it and is left as it is.
  have hself : ∀ g : Operand, g.name = "" → g.elements = [] →
      m.operand g = g ∧ m.spelled g = g := by
    intro g hname helements
    simp [Numbering.operand, Numbering.scalar, Numbering.spelled, Numbering.spelledScalar, hname,
      helements]
  have hscalar : ∀ op : Operand, op.name ≠ "" →
      m.scalar op = { op with name := "", number := m.number op.name } := by
    intro op hop
    rw [Numbering.scalar, if_neg (by simpa using hop)]
  rw [Numbering.reread_of_ne h.ne_predicate]
  cases h with
  | always =>
    obtain ⟨hoperand, hspelled⟩ := hself .alwaysTrue rfl rfl
    rw [hoperand, hspelled]
    exact ⟨.always, rfl, id⟩
  | never =>
    obtain ⟨hoperand, hspelled⟩ := hself Operand.alwaysTrue.negate rfl rfl
    rw [hoperand, hspelled]
    exact ⟨.never, rfl, id⟩
  | @ifTrue name hname =>
    have hname' := isGuardName_registerName m (.predicate name)
    rw [spelled_predicate hname.ne, (guardText_predicate hname'.ne).1,
      (isNamed_predicate hname.ne .pred).operand, hscalar _ hname.ne]
    exact ⟨.ifTrue hname', rfl, fun heq => by cases congrArg Operand.condition heq⟩
  | @ifFalse name hname =>
    have hname' := isGuardName_registerName m (.predicate name)
    rw [spelled_negate_predicate hname.ne, (guardText_predicate hname'.ne).2, Numbering.operand,
      isNumbered_negate_predicate]
    refine ⟨.ifFalse hname', ?_, fun heq => by cases congrArg Operand.condition heq⟩
    show (m.scalar (Operand.predicate name).negate).guardText = _
    rw [hscalar _ hname.ne]
    rfl

end Instruction

end KernelListing
