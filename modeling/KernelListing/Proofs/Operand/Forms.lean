import KernelListing.Proofs.Operand.RoundTrip

/-!
# The forms of an operand

What an operand can be that has been read from a token, whatever the token: `Form` has a case for
each way in which `readOperand` succeeds. A register of an operand that has been read is met when
registers are numbered, and the name of a hardware register stays where the operand itself is one.
-/

namespace KernelListing.Operand

theorem ofRegisterName_eq (token : List Char) (type : DataType) :
    isHardwareName token = true ∧ ofRegisterName token type = special (String.ofList token) .u32 ∨
      isHardwareName token = false ∧
        ∃ type', ofRegisterName token type = register (String.ofList token) type' := by
  unfold ofRegisterName
  split
  · next h => exact .inl ⟨h, rfl⟩
  · next h =>
    rw [Bool.not_eq_true] at h
    split
    · exact .inr ⟨h, .pred, rfl⟩
    · exact .inr ⟨h, type, rfl⟩

/-- The forms of an operand that has been read. -/
inductive Form : Operand → Prop where
  | vector {type : DataType} {elements : List Operand} (hne : elements ≠ [])
    (h : ∀ e ∈ elements, ∃ token type, token ≠ [] ∧ e = ofRegisterName token type) :
    Form (vectorOf type elements)
  | indirect (base : String) (offset : Int32) (type : DataType) : Form (indirect base offset type)
  | address (symbol : String) (offset : Int32) (type : DataType) :
    Form (address symbol offset type)
  | named {token : List Char} (hne : token ≠ []) (type : DataType) :
    Form (ofRegisterName token type)
  | immediate (value : Int64) (type : DataType) : Form (immediate value type)
  | label (name : String) : Form (label name)

theorem form_of_readOperand {token : List Char} {type : DataType} {op : Operand}
    (h : readOperand token type = .ok op) : Form op := by
  cases readAs_of_readOperand h with
  | vector hvector =>
    obtain ⟨first, rest, hheads, hes, rfl⟩ := elements_of_readVector hvector
    refine .vector (List.cons_ne_nil first rest) fun e he => ?_
    obtain ⟨token, htoken, rfl⟩ := List.mem_map.1 (hes ▸ he)
    exact ⟨token, type, ne_nil_of_head? (hheads token htoken), rfl⟩
  | address haddress =>
    obtain ⟨base, offset, -, -, -, rfl, -⟩ := exists_isBase_of_readAddress haddress
    unfold ofBase
    split
    · exact .indirect _ offset type
    · exact .address _ offset type
  | named rest => exact .named (List.cons_ne_nil '%' rest) type
  | @immediate token n _ => exact .immediate n type
  | label => exact .label _

theorem elements_ofRegisterName (token : List Char) (type : DataType) :
    (ofRegisterName token type).elements = [] := by
  rcases ofRegisterName_eq token type with ⟨-, h⟩ | ⟨-, type', h⟩ <;> rw [h] <;> rfl

theorem scalars_of_elements_eq_nil {op : Operand} (h : op.elements = []) : op.scalars = [op] := by
  rw [scalars, h]
  rfl

namespace Form

variable {op x : Operand}

theorem isNumbered_of_mem_scalars (h : Form op) (hx : x ∈ op.scalars)
    (hlike : x.isRegisterLike = true) : op.isNumbered = true := by
  cases h with
  | vector => exact isNumbered_vectorOf _ _
  | indirect base offset type => exact isNumbered_indirect offset type base
  | address symbol offset type =>
    rw [List.mem_singleton.1 hx] at hlike
    cases hlike
  | @named token _ type =>
    rcases ofRegisterName_eq token type with ⟨-, heq⟩ | ⟨-, type', heq⟩
    · rw [heq] at hx
      rw [List.mem_singleton.1 hx] at hlike
      cases hlike
    · rw [heq]
      exact isNumbered_register _ type'
  | immediate value type =>
    rw [List.mem_singleton.1 hx] at hlike
    cases hlike
  | label name =>
    rw [List.mem_singleton.1 hx] at hlike
    cases hlike

theorem ne_predicate (h : Form op) : op ≠ .predicate "" := by
  intro heq
  cases h with
  | vector hne => exact hne (congrArg elements heq)
  | indirect => cases congrArg mode heq
  | address => cases congrArg mode heq
  | @named token hne type =>
    rcases ofRegisterName_eq token type with ⟨-, hop⟩ | ⟨-, type', hop⟩
    · rw [hop] at heq
      cases congrArg mode heq
    · rw [hop] at heq
      have hempty : String.ofList token = "" := congrArg name heq
      exact hne (by simpa using hempty)
  | immediate => cases congrArg mode heq
  | label => cases congrArg mode heq

theorem isNumbered_of_elements_ne_nil (h : Form op) (hne : op.elements ≠ []) :
    op.isNumbered = true := by
  cases h with
  | vector => exact isNumbered_vectorOf _ _
  | indirect => exact absurd rfl hne
  | address => exact absurd rfl hne
  | named _ type => exact absurd (elements_ofRegisterName _ type) hne
  | immediate => exact absurd rfl hne
  | label => exact absurd rfl hne

theorem eq_indirect (h : Form op) (hmode : op.mode = .indirect) :
    ∃ base offset type, op = Operand.indirect base offset type := by
  cases h with
  | vector => cases hmode
  | indirect base offset type => exact ⟨base, offset, type, rfl⟩
  | address => cases hmode
  | @named token _ type =>
    rcases ofRegisterName_eq token type with ⟨-, heq⟩ | ⟨-, type', heq⟩ <;> rw [heq] at hmode <;>
      cases hmode
  | immediate => cases hmode
  | label => cases hmode

theorem mode_of_mem_elements (h : Form op) (hx : x ∈ op.elements) (hspecial : x.mode ≠ .special) :
    x.mode = .register := by
  cases h with
  | vector _ htokens =>
    obtain ⟨token, type, -, rfl⟩ := htokens x hx
    rcases ofRegisterName_eq token type with ⟨-, heq⟩ | ⟨-, type', heq⟩
    · rw [heq] at hspecial
      exact absurd rfl hspecial
    · rw [heq]
      rfl
  | indirect => cases hx
  | address => cases hx
  | @named token _ type =>
    rw [elements_ofRegisterName] at hx
    cases hx
  | immediate => cases hx
  | label => cases hx

theorem condition_eq (h : Form op) : op.condition = .ifTrue := by
  cases h with
  | vector => rfl
  | indirect => rfl
  | address => rfl
  | @named token _ type =>
    rcases ofRegisterName_eq token type with ⟨-, heq⟩ | ⟨-, type', heq⟩ <;> rw [heq] <;> rfl
  | immediate => rfl
  | label => rfl

theorem isHardwareName_ofRegisterName {token : List Char} (hne : token ≠ []) (type : DataType) :
    ((ofRegisterName token type).mode = .special →
      isHardwareName (ofRegisterName token type).name.toList = true ∧
        (ofRegisterName token type).name ≠ "") ∧
    ((ofRegisterName token type).mode = .register →
      isHardwareName (ofRegisterName token type).name.toList = false) := by
  rcases ofRegisterName_eq token type with ⟨hhardware, hop⟩ | ⟨hhardware, type', hop⟩
  · rw [hop]
    refine ⟨fun _ => ?_, by rintro ⟨⟩⟩
    simpa [special] using ⟨hhardware, hne⟩
  · rw [hop]
    refine ⟨by rintro ⟨⟩, fun _ => ?_⟩
    simpa [register] using hhardware

/-- Among the registers of an operand, the hardware registers are told by their names. -/
theorem isHardwareName_of_mem_scalars (h : Form op) (hx : x ∈ op.scalars) :
    (x.mode = .special → isHardwareName x.name.toList = true ∧ x.name ≠ "") ∧
      (x.mode = .register → isHardwareName x.name.toList = false) := by
  cases h with
  | vector hne htokens =>
    rw [scalars, if_neg (by simpa [vectorOf] using hne)] at hx
    obtain ⟨token, type, hne, rfl⟩ := htokens x hx
    exact isHardwareName_ofRegisterName hne type
  | indirect =>
    rw [List.mem_singleton.1 hx]
    exact ⟨by rintro ⟨⟩, by rintro ⟨⟩⟩
  | address =>
    rw [List.mem_singleton.1 hx]
    exact ⟨by rintro ⟨⟩, by rintro ⟨⟩⟩
  | named hne type =>
    rw [scalars_of_elements_eq_nil (elements_ofRegisterName _ type), List.mem_singleton] at hx
    subst hx
    exact isHardwareName_ofRegisterName hne type
  | immediate =>
    rw [List.mem_singleton.1 hx]
    exact ⟨by rintro ⟨⟩, by rintro ⟨⟩⟩
  | label =>
    rw [List.mem_singleton.1 hx]
    exact ⟨by rintro ⟨⟩, by rintro ⟨⟩⟩

end Form

end KernelListing.Operand
