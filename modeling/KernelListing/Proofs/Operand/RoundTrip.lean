import KernelListing.Proofs.Operand.Spelling
import KernelListing.Proofs.Operand.Verbatim

/-!
# Reading an operand back

An operand that has been read can be numbered and written, and its text is read as the operand
with new names for its registers (`readsBack_of_readOperand`). The text also stands for the token
that the operand was read from: it can take its place among the arguments of an instruction.
-/

namespace KernelListing

namespace Operand

open Text Instruction

variable {m : Numbering} {type : DataType}

/-! ## Registers -/

/-- An operand is a register with a name, as the instructions of a type have them. -/
def IsNamed (type : DataType) (op : Operand) : Prop :=
  ∃ name type', op = register name type' ∧ name ≠ "" ∧ (type' = .pred ∨ type' = type)

theorem isNumbered_register (name : String) (type : DataType) :
    (register name type).isNumbered = true := by
  simp [isNumbered, register, isValid, isAlwaysTrue, isRegisterLike]

theorem ofRegisterName_cases {token : List Char} (hne : token ≠ []) (type : DataType) :
    ofRegisterName token type = special (String.ofList token) .u32 ∨
      IsNamed type (ofRegisterName token type) := by
  have hname : String.ofList token ≠ "" := by
    intro h
    exact hne (by simpa using congrArg String.toList h)
  rw [ofRegisterName]
  split
  · exact .inl rfl
  · split
    · exact .inr ⟨String.ofList token, .pred, rfl, hname, .inl rfl⟩
    · exact .inr ⟨String.ofList token, type, rfl, hname, .inr rfl⟩

namespace IsNamed

variable {op : Operand} (h : IsNamed type op)

include h

theorem name_ne : op.name ≠ "" := by
  obtain ⟨name, type', rfl, hname, -⟩ := h
  exact hname

theorem isValid : op.isValid = true := by
  obtain ⟨name, type', rfl, -, -⟩ := h
  rfl

theorem isNumbered : op.isNumbered = true := by
  obtain ⟨name, type', rfl, -, -⟩ := h
  exact isNumbered_register name type'

theorem spelled (m : Numbering) : m.spelled op = m.spelledScalar op := by
  rw [Numbering.spelled, h.isNumbered]
  obtain ⟨name, type', rfl, -, -⟩ := h
  rfl

theorem operand (m : Numbering) : m.operand op = m.scalar op := by
  rw [Numbering.operand, h.isNumbered]
  obtain ⟨name, type', rfl, -, -⟩ := h
  rfl

theorem text_scalar (m : Numbering) : (m.scalar op).text = m.registerName op := by
  rw [← Numbering.registerText_scalar h.name_ne, Numbering.scalar, if_neg]
  · obtain ⟨name, type', rfl, -, -⟩ := h
    rfl
  · simpa using h.name_ne

/-- The text of a register is read as that register under its new name. -/
theorem ofRegisterName_registerName (m : Numbering) :
    ofRegisterName (m.registerName op).toList type = m.spelledScalar op := by
  rw [Numbering.spelledScalar_of_name h.name_ne, Numbering.registerName, ofRegisterName_spelling]
  obtain ⟨name, type', rfl, -, rfl | rfl⟩ := h
  · rfl
  · cases type' <;> rfl

theorem readElement_registerName (m : Numbering) :
    readElement (m.registerName op).toList type = .ok (m.spelledScalar op) := by
  rw [readElement, if_pos]
  · rw [h.ofRegisterName_registerName m]
  · rw [Numbering.registerName, toList_spelling]
    rfl

end IsNamed

/-! ## Vectors -/

theorem isNumbered_vectorOf (type : DataType) (es : List Operand) :
    (vectorOf type es).isNumbered = true := by
  simp [isNumbered, vectorOf, isValid, isAlwaysTrue, isRegisterLike]

theorem isNamed_of_readVector {inner : List Char} {op : Operand}
    (h : readVector inner type = .ok op) (hspecial : ∀ e ∈ op.elements, e.mode ≠ .special) :
    ∃ first rest, (∀ e ∈ first :: rest, IsNamed type e) ∧
      op = vectorOf first.type (first :: rest) := by
  obtain ⟨first, rest, hheads, hes, rfl⟩ := elements_of_readVector h
  refine ⟨first, rest, fun e he => ?_, rfl⟩
  obtain ⟨token, htoken, rfl⟩ := List.mem_map.1 (hes ▸ he)
  have hne := ne_nil_of_head? (hheads token htoken)
  refine (ofRegisterName_cases hne type).resolve_left fun hop => hspecial _ he ?_
  rw [hop]
  rfl

/-- The texts of registers by their numbers, with commas between them. -/
def spelledElements (m : Numbering) (es : List Operand) : List Char :=
  [',', ' '].intercalate (es.map fun e => (m.registerName e).toList)

theorem mem_spelledElements {es : List Operand} {c : Char} (h : c ∈ spelledElements m es) :
    (c = ',' ∨ c = ' ') ∨ isTokenChar c = true := by
  rcases mem_intercalate h with hc | ⟨t, ht, hc⟩
  · exact .inl (by simpa using hc)
  · obtain ⟨e, -, rfl⟩ := List.mem_map.1 ht
    exact .inr (m.isToken_registerName e c hc)

theorem isPlain_of_mem_spelledElements {es : List Operand} {c : Char}
    (h : c ∈ spelledElements m es) : isPlain c = true := by
  rcases mem_spelledElements h with (rfl | rfl) | hc
  · decide
  · decide
  · exact isPlain_of_isTokenChar hc

theorem isNeutral_of_mem_spelledElements {es : List Operand} {c : Char}
    (h : c ∈ spelledElements m es) : c = ',' ∨ isNeutral c = true := by
  rcases mem_spelledElements h with (rfl | rfl) | hc
  · exact .inl rfl
  · exact .inr (by decide)
  · exact .inr (isNeutral_of_isTokenChar hc)

theorem readVector_spelledElements {es : List Operand} {first : Operand} {rest : List Operand}
    (hes : es = first :: rest) (h : ∀ e ∈ es, IsNamed type e) (m : Numbering) :
    readVector (spelledElements m es) type =
      .ok (vectorOf first.type (es.map m.spelledScalar)) := by
  have hread := readVector_intercalate (fun e => (m.registerName e).toList) m.spelledScalar
    (List.cons_ne_nil first rest) fun e he => ⟨(m.isToken_registerName e).trimmed, (m.isToken_registerName e).not_mem (by decide),
      (h e (hes ▸ he)).readElement_registerName m⟩
  have htype : (m.spelledScalar first).type = first.type := by
    unfold Numbering.spelledScalar
    split <;> rfl
  rw [hes, spelledElements, hread, ← htype]
  rfl

theorem text_operand_vectorOf {es : List Operand} (hne : es ≠ []) (h : ∀ e ∈ es, IsNamed type e)
    (type' : DataType) (m : Numbering) :
    (m.operand (vectorOf type' es)).text.toList = '{' :: (spelledElements m es ++ ['}']) := by
  have hempty : es.isEmpty = false := by simpa using hne
  have hoperand : m.operand (vectorOf type' es) = vectorOf type' (es.map m.scalar) := by
    rw [Numbering.operand, isNumbered_vectorOf]
    simp [vectorOf, hempty]
  have htexts : (es.map m.scalar).map (fun e => e.text.toList) =
      es.map fun e => (m.registerName e).toList := by
    rw [List.map_map]
    exact List.map_congr_left fun e he => congrArg String.toList ((h e he).text_scalar m)
  rw [hoperand, text_vectorOf (by simpa using hne), htexts, spelledElements]

theorem isBase_spelling (predicate : Bool) (number : Nat) :
    IsBase (spelling predicate number).toList := by
  have hlist := toList_spelling predicate number
  refine ⟨?_, (isToken_spelling predicate number).trimmed, fun c hc => ?_⟩
  · rw [hlist]
    exact List.cons_ne_nil _ _
  · rw [hlist, List.tail_cons] at hc
    rcases List.mem_cons.1 hc with rfl | hc
    · cases predicate <;> decide
    · have hdigit := isDigit_of_mem_toDigits hc
      constructor
      · rintro rfl
        exact absurd hdigit (by decide)
      · rintro rfl
        exact absurd hdigit (by decide)

section indirect

variable {name : String} (h : name ≠ "") (offset : Int32) (type : DataType) (m : Numbering)

theorem isNumbered_indirect (name : String) : (indirect name offset type).isNumbered = true := by
  simp [isNumbered, indirect, isValid, isAlwaysTrue, isRegisterLike]

include h

theorem text_indirect : (m.operand (indirect name offset type)).text.toList =
    '[' :: ((spelling type.isPredicate (m.number name)).toList ++ (offsetText offset).toList ++
      [']']) := by
  have hscalar : m.scalar (indirect name offset type) =
      { indirect "" offset type with number := m.number name } := by
    rw [Numbering.scalar, if_neg (by simpa [indirect] using h)]
    rfl
  rw [Numbering.operand, isNumbered_indirect]
  show (m.scalar (indirect name offset type)).text.toList = _
  rw [hscalar]
  show ("[" ++ spelling type.isPredicate (m.number name) ++ offsetText offset ++ "]").toList = _
  simp

theorem spelled_indirect : m.spelled (indirect name offset type) =
    indirect (spelling type.isPredicate (m.number name)) offset type := by
  rw [Numbering.spelled, isNumbered_indirect]
  exact Numbering.spelledScalar_of_name h

end indirect

theorem isNumbered_address (symbol : String) (offset : Int32) (type : DataType) :
    (address symbol offset type).isNumbered = false := by
  simp [isNumbered, address, isRegisterLike]

/-- An address is written and read with the same offset behind its base, or behind the text of
the register that is its base. -/
theorem exists_text_ofBase {base : List Char} (h : IsBase base) (offset : Int32) (type : DataType)
    (m : Numbering) : ∃ base', IsBase base' ∧ (base' = base ∨ IsToken base') ∧
      (m.operand (ofBase base offset type)).text.toList =
        '[' :: (base' ++ (offsetText offset).toList ++ [']']) ∧
      m.spelled (ofBase base offset type) = ofBase base' offset type := by
  by_cases hhead : base.head? = some '%'
  · have hname : String.ofList base ≠ "" := by simpa using h.ne_nil
    have hspelling : (spelling type.isPredicate (m.number (String.ofList base))).toList.head? =
        some '%' := by
      rw [toList_spelling]
      rfl
    refine ⟨(spelling type.isPredicate (m.number (String.ofList base))).toList,
      isBase_spelling _ _, .inr (isToken_spelling _ _), ?_, ?_⟩
    · rw [ofBase, if_pos hhead, text_indirect hname]
    · rw [ofBase, if_pos hhead, ofBase, if_pos hspelling, spelled_indirect hname,
        String.ofList_toList]
  · have hnumbered : (ofBase base offset type).isNumbered = false := by
      rw [ofBase, if_neg hhead]
      exact isNumbered_address ..
    refine ⟨base, h, .inl rfl, ?_, Numbering.spelled_of_not_isNumbered hnumbered⟩
    rw [m.operand_of_not_isNumbered hnumbered, text_ofBase h.ne_nil]

/-! ## Operands -/

/-- The text of an operand stands for the token that the operand was read from, and is read as the
operand with new names for its registers. -/
structure ReadsBack (m : Numbering) (type : DataType) (token : List Char) (op : Operand) :
    Prop where
  valid : op.isValid = true
  standsFor : StandsFor (m.operand op).text.toList token
  read : readOperand (m.operand op).text.toList type = .ok (m.spelled op)

theorem Verbatim.readsBack {token : List Char} {op : Operand} (h : Verbatim type token op)
    (hnumbered : op.isNumbered = false) (m : Numbering) : ReadsBack m type token op := by
  constructor
  · exact h.valid
  · rw [m.operand_of_not_isNumbered hnumbered]
    exact h.standsFor
  · rw [m.operand_of_not_isNumbered hnumbered, m.spelled_of_not_isNumbered hnumbered]
    exact h.read

theorem readsBack_vector {inner : List Char} {op : Operand} (h : readVector inner type = .ok op)
    (hspecial : ∀ e ∈ op.elements, e.mode ≠ .special) (m : Numbering) :
    ReadsBack m type ('{' :: (inner ++ ['}'])) op := by
  obtain ⟨first, rest, hnamed, rfl⟩ := isNamed_of_readVector h hspecial
  have htext := text_operand_vectorOf (List.cons_ne_nil first rest) hnamed first.type m
  constructor
  · rfl
  · rw [htext]
    refine standsFor_of_brackets (by decide) ?_ (fun _ => ?_) (fun _ => ?_)
    · exact isCode_of_forall fun c hc => isPlain_of_mem_spelledElements hc
    · exact solid_of_forall (fun c hc => isNeutral_of_mem_spelledElements hc) Nat.one_ne_zero
    · rw [depthBehind_of_forall fun c hc => isNeutral_of_mem_spelledElements hc]
  · rw [htext, readOperand, List.isSuffixOf?_eq_some_iff_append_eq.2 rfl]
    show readVector _ type = _
    rw [readVector_spelledElements rfl hnamed m, Numbering.spelled, isNumbered_vectorOf]
    rfl

theorem readsBack_address {inner : List Char} {op : Operand} (h : readAddress inner type = .ok op)
    (hcode : IsCode inner) (m : Numbering) : ReadsBack m type ('[' :: (inner ++ [']'])) op := by
  obtain ⟨base, offset, front, back, hbase, rfl, rfl, hfront, hback⟩ :=
    exists_isBase_of_readAddress h
  obtain ⟨base', hbase', hor, htext, hspelled⟩ := exists_text_ofBase hbase offset type m
  have hoffset := isToken_offsetText offset
  constructor
  · exact isValid_ofBase base offset type
  · rw [htext]
    -- The base is either as it was written or a register with its number.
    rcases hor with rfl | htoken
    · rw [← text_ofBase hbase.ne_nil offset type]
      exact (verbatim_address h hcode).standsFor
    · have hboth : IsToken (base' ++ (offsetText offset).toList) :=
        List.forall_mem_append.2 ⟨htoken, hoffset⟩
      have hneutral : ∀ c ∈ base' ++ (offsetText offset).toList, isNeutral c = true :=
        fun c hc => isNeutral_of_isTokenChar (hboth c hc)
      refine standsFor_of_brackets (by decide) hboth.isCode (fun _ => ?_) (fun _ => ?_)
      · exact solid_of_isNeutral hneutral 1
      · exact (depthBehind_of_isNeutral hneutral 1).le
  · rw [htext, hspelled, readOperand, List.isSuffixOf?_eq_some_iff_append_eq.2 rfl]
    exact readAddress_append hbase' offset type

theorem readsBack_named {op : Operand} (h : IsNamed type op) (token : List Char) (m : Numbering) :
    ReadsBack m type token op := by
  have htoken := m.isToken_registerName op
  have hread := h.ofRegisterName_registerName m
  obtain ⟨rest, hname⟩ := m.exists_registerName op
  constructor
  · exact h.isValid
  · rw [h.operand, h.text_scalar]
    refine standsFor_of_isToken htoken ?_ token
    rw [hname]
    exact List.cons_ne_nil _ _
  · rw [h.operand, h.text_scalar, h.spelled]
    rw [hname] at hread ⊢
    exact congrArg _ hread

theorem readsBack_of_readOperand {token : List Char} {op : Operand}
    (h : readOperand token type = .ok op) (htrimmed : Trimmed token) (hcode : IsCode token)
    (hspecial : ∀ e ∈ op.elements, e.mode ≠ .special)
    (himmediate : op.mode = .immediate → op.value ≠ Int64.minValue) (m : Numbering) :
    ReadsBack m type token op := by
  have hverbatim := verbatim_of_readOperand h htrimmed hcode himmediate
  cases readAs_of_readOperand h with
  | vector hvector => exact readsBack_vector hvector hspecial m
  | address haddress => exact readsBack_address haddress (hcode.part ⟨['['], [']'], rfl⟩) m
  | named rest =>
    rcases ofRegisterName_cases (List.cons_ne_nil '%' rest) type with hop | hnamed
    · rw [hop] at hverbatim ⊢
      refine hverbatim.readsBack ?_ m
      simp [isNumbered, special, isRegisterLike]
    · exact readsBack_named hnamed _ m
  | immediate =>
    refine hverbatim.readsBack ?_ m
    simp [isNumbered, immediate, isRegisterLike]
  | label => exact hverbatim.readsBack (isNumbered_of_label rfl) m

end Operand

end KernelListing
