import KernelListing.Operand.Printer
import KernelListing.Proofs.Instruction.Arguments

/-!
# Operands as they are written

An operand that has been read can be written before its registers are numbered. Its text need not be
the token that it was read from: blanks, offsets and integers are written in one way only. But the
text is read as the operand again, and it stands for the token among the arguments of an instruction
(`verbatim_of_readOperand`).
-/

namespace KernelListing

/-! ## Results -/

theorem exists_of_map_eq_ok {α β ε : Type} {f : α → β} {r : Except ε α} {b : β}
    (h : r.map f = .ok b) : ∃ a, r = .ok a ∧ f a = b := by
  cases r with
  | error e => cases h
  | ok a => exact ⟨a, rfl, Except.ok.inj h⟩

theorem exists_of_bind_eq_ok {α β ε : Type} {r : Except ε α} {f : α → Except ε β} {b : β}
    (h : r >>= f = .ok b) : ∃ a, r = .ok a ∧ f a = .ok b := by
  cases r with
  | error e => cases h
  | ok a => exact ⟨a, rfl, h⟩

theorem mapM_eq_ok_iff {α β ε : Type} {f : α → Except ε β} {xs : List α} {ys : List β} :
    xs.mapM f = .ok ys ↔ List.Forall₂ (fun x y => f x = .ok y) xs ys := by
  induction xs generalizing ys with
  | nil =>
    rw [List.forall₂_nil_left_iff]
    exact ⟨fun h => (Except.ok.inj h).symm, fun h => h ▸ rfl⟩
  | cons x xs ih =>
    rw [List.mapM_cons, List.forall₂_cons_left_iff]
    cases hx : f x with
    | error e => exact ⟨fun h => (by cases h), fun ⟨y, _, hy, _⟩ => (by cases hy)⟩
    | ok y =>
      constructor
      · intro h
        cases hxs : xs.mapM f with
        | error e =>
          rw [hxs] at h
          cases h
        | ok ys' =>
          rw [hxs] at h
          exact ⟨y, ys', rfl, ih.1 hxs, (Except.ok.inj h).symm⟩
      · rintro ⟨y', ys', hy, hys, rfl⟩
        cases hy
        rw [ih.2 hys]
        rfl

namespace Operand

open Text Instruction

variable {type : DataType}

/-! ## Registers -/

theorem text_ofRegisterName {token : List Char} (hne : token ≠ []) (type : DataType) :
    (ofRegisterName token type).text.toList = token := by
  have hname : (String.ofList token).isEmpty = false := by simpa using hne
  unfold ofRegisterName
  split
  · simp [special, text]
  · split <;> simp [predicate, register, text, registerText, hname]

/-! ## Vectors -/

def vectorOf (type : DataType) (elements : List Operand) : Operand :=
  { mode := .register, type, elements }

theorem text_vectorOf {es : List Operand} (hne : es ≠ []) (type : DataType) :
    (vectorOf type es).text.toList =
      '{' :: ([',', ' '].intercalate (es.map fun e => e.text.toList) ++ ['}']) := by
  have hempty : es.isEmpty = false := by simpa using hne
  simp [vectorOf, text, hempty, texts_eq_map, String.toList_intercalate, Function.comp_def]

theorem readElement_eq_ok_iff {token : List Char} {e : Operand} :
    readElement token type = .ok e ↔ token.head? = some '%' ∧ ofRegisterName token type = e := by
  rw [readElement]
  split
  · next h => simp [eq_of_beq h]
  · next h =>
    rw [beq_iff_eq] at h
    simp [h]

theorem ne_nil_of_head? {token : List Char} {c : Char} (h : token.head? = some c) : token ≠ [] := by
  rintro rfl
  cases h

theorem heads_of_readElement {pieces : List (List Char)} {es : List Operand}
    (h : List.Forall₂ (fun piece e => readElement (trim piece) type = .ok e) pieces es) :
    (∀ t ∈ pieces.map trim, t.head? = some '%') ∧
      (pieces.map trim).map (ofRegisterName · type) = es := by
  induction h with
  | nil => exact ⟨List.forall_mem_nil _, rfl⟩
  | cons he _ ih =>
    obtain ⟨hhead, rfl⟩ := readElement_eq_ok_iff.1 he
    exact ⟨List.forall_mem_cons.2 ⟨hhead, ih.1⟩, congrArg _ ih.2⟩

theorem elements_of_readVector {inner : List Char} {op : Operand}
    (h : readVector inner type = .ok op) : ∃ first rest,
      (∀ t ∈ (split (· == ',') inner).map trim, t.head? = some '%') ∧
      ((split (· == ',') inner).map trim).map (ofRegisterName · type) = first :: rest ∧
      op = vectorOf first.type (first :: rest) := by
  rw [readVector] at h
  cases hpieces : (split (· == ',') inner).mapM fun piece => readElement (trim piece) type with
  | error e =>
    rw [hpieces] at h
    cases h
  | ok es =>
    obtain ⟨hheads, hes⟩ := heads_of_readElement (mapM_eq_ok_iff.1 hpieces)
    rw [hpieces] at h
    cases es with
    | nil => cases h
    | cons first rest =>
      cases h
      exact ⟨first, rest, hheads, hes, rfl⟩

theorem readVector_intercalate {α : Type} {as : List α} (name : α → List Char)
    (element : α → Operand) (hne : as ≠ [])
    (h : ∀ a ∈ as, Trimmed (name a) ∧ ',' ∉ name a ∧
      readElement (name a) type = .ok (element a)) :
    readVector ([',', ' '].intercalate (as.map name)) type =
      (vector (as.map element)).mapError .operand := by
  have hnames : ∀ t ∈ as.map name, Trimmed t ∧ ',' ∉ t := by
    intro t ht
    obtain ⟨a, ha, rfl⟩ := List.mem_map.1 ht
    exact ⟨(h a ha).1, (h a ha).2.1⟩
  have hpieces := map_trim_split_intercalate hnames (by simpa using hne)
  have hread : (as.map name).mapM (readElement · type) = .ok (as.map element) := by
    rw [mapM_eq_ok_iff, List.forall₂_map_left_iff, List.forall₂_map_right_iff, List.forall₂_same]
    exact fun a ha => (h a ha).2.2
  rw [← hpieces, List.mapM_map] at hread
  rw [readVector]
  exact congrArg (· >>= fun es => (vector es).mapError .operand) hread

/-! ## Addresses -/

theorem toList_offsetText_cases (offset : Int32) :
    offset = 0 ∧ (offsetText offset).toList = [] ∨
      (offsetText offset).toList = (toString offset.toInt).toList ∧
        (toString offset.toInt).toList = '-' :: Nat.toDigits 10 (-offset.toInt).toNat ∨
      (offsetText offset).toList = '+' :: (toString offset.toInt).toList := by
  rw [offsetText]
  split
  · next hzero => exact .inl ⟨hzero, rfl⟩
  · split
    · next hneg =>
      rw [Int32.lt_iff_toInt_lt] at hneg
      exact .inr (.inl ⟨rfl, toList_toString_of_neg hneg⟩)
    · exact .inr (.inr (by simp))

theorem isToken_offsetText (offset : Int32) : IsToken (offsetText offset).toList := by
  rcases toList_offsetText_cases offset with ⟨-, h⟩ | ⟨h, -⟩ | h
  · rw [h]
    exact fun c hc => absurd hc List.not_mem_nil
  · rw [h]
    exact isToken_toString_int _
  · rw [h]
    exact .cons (by decide) (isToken_toString_int _)

/-- An offset behind its outer sign is read back. -/
theorem readInteger_toString_toOffset (offset : Int32) :
    readInteger (trim (toString offset.toInt).toList) >>= toOffset = .ok offset := by
  have hle : -2 ^ 31 ≤ offset.toInt := offset.le_toInt
  have hlt : offset.toInt < 2 ^ 31 := offset.toInt_lt
  have hwordMin : Int64.minValue.toInt = -2 ^ 63 := by decide
  have hwordMax : Int64.maxValue.toInt = 2 ^ 63 - 1 := by decide
  have hread := integer?_toString (n := offset.toInt) (by omega) (by omega)
  have hvalue : (Int64.ofInt offset.toInt).toInt = offset.toInt :=
    Int64.toInt_ofInt_of_le (by omega) (by omega)
  have hmin : Int32.minValue.toInt = -2 ^ 31 := by decide
  have hmax : Int32.maxValue.toInt = 2 ^ 31 - 1 := by decide
  rw [trim_eq_self (isToken_toString_int _).trimmed, readInteger, hread]
  show toOffset (Int64.ofInt offset.toInt) = .ok offset
  rw [toOffset, hvalue, if_pos (by omega), Int32.ofInt_toInt]

theorem readOffset_offsetText (offset : Int32) :
    readOffset (offsetText offset).toList = .ok offset := by
  have hread := readInteger_toString_toOffset offset
  rcases toList_offsetText_cases offset with ⟨rfl, h⟩ | ⟨h, hneg⟩ | h
  · rfl
  · rw [h]
    rw [hneg] at hread ⊢
    exact hread
  · rw [h]
    exact hread

/-- What can stand in front of an offset. -/
structure IsBase (cs : List Char) : Prop where
  ne_nil : cs ≠ []
  trimmed : Trimmed cs
  sign : ∀ c ∈ cs.tail, c ≠ '+' ∧ c ≠ '-'

theorem cutOffset_append {cs : List Char} (h : IsBase cs) (offset : Int32) :
    cutOffset (cs ++ (offsetText offset).toList) = (cs, (offsetText offset).toList) := by
  obtain ⟨c, rest, rfl⟩ := List.exists_cons_of_ne_nil h.ne_nil
  have hrest : ∀ c ∈ rest, (! (c == '+' || c == '-')) = true := by
    intro c' hc'
    simpa using h.sign c' hc'
  have hoffset : ∀ c ∈ (offsetText offset).toList.head?, c = '+' ∨ c = '-' := by
    intro c' hc'
    rcases toList_offsetText_cases offset with ⟨-, hlist⟩ | ⟨hlist, hneg⟩ | hlist
    · rw [hlist] at hc'
      cases hc'
    · rw [hlist, hneg] at hc'
      exact .inr (Option.some.inj hc').symm
    · rw [hlist] at hc'
      exact .inl (Option.some.inj hc').symm
  rw [List.cons_append, cutOffset, List.takeWhile_append_of_pos hrest,
    List.dropWhile_append_of_pos hrest]
  cases hlist : (offsetText offset).toList with
  | nil => simp
  | cons sign digits =>
    rw [hlist] at hoffset
    rcases hoffset sign rfl with rfl | rfl <;> simp

/-- The address at a base. -/
def ofBase (base : List Char) (offset : Int32) (type : DataType) : Operand :=
  if base.head? = some '%' then indirect (String.ofList base) offset type
  else address (String.ofList base) offset type

theorem isValid_ofBase (base : List Char) (offset : Int32) (type : DataType) :
    (ofBase base offset type).isValid = true := by
  unfold ofBase
  split <;> rfl

theorem readAddress_eq (inner : List Char) (type : DataType) :
    readAddress inner type = (readOffset (cutOffset (trim inner)).2 >>= fun offset =>
      if trim (cutOffset (trim inner)).1 = [] then .error (.missingBase (String.ofList (trim inner)))
      else .ok (ofBase (trim (cutOffset (trim inner)).1) offset type)) := by
  rw [readAddress]
  congr 1
  funext offset
  generalize trim (cutOffset (trim inner)).1 = base
  unfold ofBase
  split
  · rfl
  · rfl
  · next hne hpercent =>
    rw [if_neg fun hnil => hne hnil, if_neg]
    · rfl
    · intro hhead
      obtain ⟨name, rfl⟩ := List.head?_eq_some_iff.1 hhead
      exact hpercent name rfl

theorem readAddress_append {cs : List Char} (h : IsBase cs) (offset : Int32) (type : DataType) :
    readAddress (cs ++ (offsetText offset).toList) type = .ok (ofBase cs offset type) := by
  have htrimmed : Trimmed (cs ++ (offsetText offset).toList) := by
    by_cases hne : (offsetText offset).toList = []
    · rw [hne, List.append_nil]
      exact h.trimmed
    · exact trimmed_append h.trimmed.1 h.ne_nil (isToken_offsetText offset).trimmed.2 hne
  rw [readAddress_eq, trim_eq_self htrimmed, cutOffset_append h, readOffset_offsetText,
    trim_eq_self h.trimmed]
  exact if_neg h.ne_nil

theorem isNeutral_of_readOffset {cs : List Char} {offset : Int32}
    (h : readOffset cs = .ok offset) : ∀ c ∈ cs, isNeutral c = true := by
  -- The blanks around a literal and its characters are neutral.
  have hliteral : ∀ digits, readInteger (trim digits) >>= toOffset = .ok offset →
      ∀ c ∈ digits, isNeutral c = true := by
    intro digits hread c hc
    obtain ⟨front, back, hdigits, hfront, hback⟩ := trim_neutral digits
    rw [hdigits, List.mem_append, List.mem_append] at hc
    rcases hc with (hc | hc) | hc
    · exact hfront c hc
    · rw [readInteger] at hread
      split at hread
      · next heq => exact isNeutral_of_isLiteralChar (isLiteralChar_of_integer? heq c hc)
      · cases hread
    · exact hback c hc
  unfold readOffset at h
  split at h
  · exact fun c hc => absurd hc List.not_mem_nil
  · exact List.forall_mem_cons.2 ⟨by decide, hliteral _ h⟩
  · exact hliteral _ h

/-- The base of an address that has been read, with nothing but neutral text around it. -/
theorem exists_isBase_of_readAddress {inner : List Char} {op : Operand}
    (h : readAddress inner type = .ok op) : ∃ base offset front back,
      IsBase base ∧ op = ofBase base offset type ∧ inner = front ++ base ++ back ∧
        (∀ c ∈ front, isNeutral c = true) ∧ ∀ c ∈ back, isNeutral c = true := by
  obtain ⟨front, back, hinner, hfront, hback⟩ := trim_neutral inner
  rw [readAddress_eq] at h
  generalize htrim : trim inner = text at h hinner
  have hparts : text = (cutOffset text).1 ++ (cutOffset text).2 := by
    cases text <;> simp [cutOffset]
  -- The sign of the offset is looked for behind the first character, which may be one itself.
  have hsign : ∀ c ∈ (cutOffset text).1.tail, c ≠ '+' ∧ c ≠ '-' := by
    intro c hc
    cases text with
    | nil => cases hc
    | cons first rest => simpa using List.mem_takeWhile_imp hc
  generalize cutOffset text = parts at h hparts hsign
  obtain ⟨front', back', hbase, hfront', hback'⟩ := trim_neutral parts.1
  have htrimmed := (trim_spec parts.1).1
  generalize trim parts.1 = base at h hbase htrimmed
  obtain ⟨offset, hoffset, h⟩ := exists_of_bind_eq_ok h
  split at h
  · cases h
  · next hne =>
    refine ⟨base, offset, front ++ front', back' ++ parts.2 ++ back, ⟨hne, htrimmed, ?_⟩,
      (Except.ok.inj h).symm, ?_, List.forall_mem_append.2 ⟨hfront, hfront'⟩, ?_⟩
    · intro c hc
      refine hsign c ?_
      rw [hbase]
      cases base with
      | nil => cases hc
      | cons first rest => cases front' <;> simp_all
    · rw [hinner, hparts, hbase]
      simp only [List.append_assoc]
    · exact List.forall_mem_append.2
        ⟨List.forall_mem_append.2 ⟨hback', isNeutral_of_readOffset hoffset⟩, hback⟩

theorem text_ofBase {base : List Char} (hne : base ≠ []) (offset : Int32) (type : DataType) :
    (ofBase base offset type).text.toList =
      '[' :: (base ++ (offsetText offset).toList ++ [']']) := by
  have hname : (String.ofList base).isEmpty = false := by simpa using hne
  unfold ofBase
  split
  · simp [indirect, text, registerText, hname]
  · simp [address, text]

/-! ## Integers -/

theorem readOperand_toString {n : Int64} (h : n ≠ Int64.minValue) (type : DataType) :
    readOperand (toString n.toInt).toList type = .ok (immediate n type) := by
  have hinteger := integer?_toString_toInt h
  obtain ⟨c, cs, hcs, hc⟩ := exists_toString_int n.toInt
  have hread : readInteger (c :: cs) = .ok n := by
    rw [readInteger, ← hcs, hinteger]
  have hnot : ∀ d, (d.isDigit || d == '-') = false → c ≠ d := by
    rintro d hd rfl
    rw [hc] at hd
    cases hd
  rw [hcs, readOperand]
  · rw [if_pos (show (c :: cs).head?.any (fun c => c.isDigit || c == '-') = true from hc), hread]
    rfl
  all_goals
    intro rest heq
    exact hnot _ (by decide) (List.cons.inj heq).1

/-! ## Operands -/

/-- The text of an operand stands for the token that the operand was read from, and is read as the
operand. -/
structure Verbatim (type : DataType) (token : List Char) (op : Operand) : Prop where
  valid : op.isValid = true
  standsFor : StandsFor op.text.toList token
  read : readOperand op.text.toList type = .ok op

theorem verbatim_vector {inner : List Char} {op : Operand} (h : readVector inner type = .ok op)
    (hcode : IsCode inner) : Verbatim type ('{' :: (inner ++ ['}'])) op := by
  obtain ⟨first, rest, hheads, hes, rfl⟩ := elements_of_readVector h
  generalize hnames : (split (· == ',') inner).map trim = names at hheads hes
  have hname : ∀ t ∈ names, Trimmed t ∧ ',' ∉ t ∧ IsCode t := by
    intro t ht
    obtain ⟨piece, hpiece, rfl⟩ := List.mem_map.1 (hnames ▸ ht)
    obtain ⟨hcomma, hpart⟩ := mem_split hpiece
    have htrim := trim_isInfix piece
    refine ⟨(trim_spec piece).1, fun hmem => ?_, hcode.part (htrim.trans hpart)⟩
    exact absurd (hcomma ',' (htrim.subset hmem)) (by decide)
  have htexts : (names.map (ofRegisterName · type)).map (fun e => e.text.toList) = names := by
    rw [List.map_map]
    exact (List.map_congr_left fun t ht =>
      text_ofRegisterName (ne_nil_of_head? (hheads t ht)) type).trans (List.map_id names)
  have hne : names ≠ [] := by
    rintro rfl
    cases hes
  have htext : (vectorOf first.type (first :: rest)).text.toList =
      '{' :: ([',', ' '].intercalate names ++ ['}']) := by
    rw [text_vectorOf (List.cons_ne_nil first rest), ← hes, htexts]
  -- The pieces keep their commas, so blanks around them are all that the text can lose.
  constructor
  · rfl
  · rw [htext]
    refine standsFor_of_skeleton (by decide) (isCode_intercalate fun t ht => (hname t ht).2.2) ?_
    rw [← hnames, skeleton_map_trim_split]
  · have hread := readVector_intercalate id (ofRegisterName · type) hne fun t ht =>
        ⟨(hname t ht).1, (hname t ht).2.1, readElement_eq_ok_iff.2 ⟨hheads t ht, rfl⟩⟩
    rw [List.map_id, hes] at hread
    rw [htext, readOperand, List.isSuffixOf?_eq_some_iff_append_eq.2 rfl]
    exact hread

theorem verbatim_address {inner : List Char} {op : Operand} (h : readAddress inner type = .ok op)
    (hcode : IsCode inner) : Verbatim type ('[' :: (inner ++ [']'])) op := by
  obtain ⟨base, offset, front, back, hbase, rfl, rfl, hfront, hback⟩ :=
    exists_isBase_of_readAddress h
  have hoffset := isToken_offsetText offset
  have htext := text_ofBase hbase.ne_nil offset type
  constructor
  · exact isValid_ofBase base offset type
  · rw [htext]
    refine standsFor_of_skeleton (by decide) ?_ ?_
    · rw [isCode_append_right fun c hc => isPlain_of_isTokenChar (hoffset c hc)]
      exact hcode.part ⟨front, back, rfl⟩
    · rw [skeleton_neutral_append hfront hback, skeleton_append,
        skeleton_of_isNeutral fun c hc => isNeutral_of_isTokenChar (hoffset c hc), List.append_nil]
  · rw [htext, readOperand, List.isSuffixOf?_eq_some_iff_append_eq.2 rfl]
    exact readAddress_append hbase offset type

theorem verbatim_immediate {n : Int64} (h : n ≠ Int64.minValue) (token : List Char) :
    Verbatim type token (immediate n type) := by
  have htext : (immediate n type).text.toList = (toString n.toInt).toList := rfl
  obtain ⟨c, cs, hcs, -⟩ := exists_toString_int n.toInt
  constructor
  · rfl
  · rw [htext]
    refine standsFor_of_isToken (isToken_toString_int _) ?_ token
    rw [hcs]
    exact List.cons_ne_nil c cs
  · rw [htext]
    exact readOperand_toString h type

theorem verbatim_token {token : List Char} {op : Operand} (h : readOperand token type = .ok op)
    (hvalid : op.isValid = true) (htext : op.text.toList = token)
    (hstands : StandsFor token token) : Verbatim type token op :=
  ⟨hvalid, htext ▸ hstands, htext ▸ h⟩

theorem isValid_ofRegisterName (token : List Char) (type : DataType) :
    (ofRegisterName token type).isValid = true := by
  unfold ofRegisterName
  split
  · rfl
  · split <;> rfl

/-- The ways in which a token is read as an operand. -/
inductive ReadAs (type : DataType) : List Char → Operand → Prop where
  | vector {inner : List Char} {op : Operand} (h : readVector inner type = .ok op) :
    ReadAs type ('{' :: (inner ++ ['}'])) op
  | address {inner : List Char} {op : Operand} (h : readAddress inner type = .ok op) :
    ReadAs type ('[' :: (inner ++ [']'])) op
  | named (rest : List Char) : ReadAs type ('%' :: rest) (ofRegisterName ('%' :: rest) type)
  | immediate {token : List Char} {n : Int64} (h : readInteger token = .ok n) :
    ReadAs type token (immediate n type)
  | label {token : List Char} (h : isLabelName token = true) :
    ReadAs type token (label (String.ofList token))

theorem readAs_of_readOperand {token : List Char} {op : Operand}
    (h : readOperand token type = .ok op) : ReadAs type token op := by
  unfold readOperand at h
  split at h
  · split at h
    · next rest inner hinner =>
      obtain rfl := List.isSuffixOf?_eq_some_iff_append_eq.1 hinner
      exact .vector h
    · cases h
  · split at h
    · next rest inner hinner =>
      obtain rfl := List.isSuffixOf?_eq_some_iff_append_eq.1 hinner
      exact .address h
    · cases h
  · next rest =>
    cases h
    exact .named rest
  · split at h
    · obtain ⟨n, hn, rfl⟩ := exists_of_map_eq_ok h
      exact .immediate hn
    · split at h
      · next hlabel =>
        cases h
        exact .label hlabel
      · cases h

theorem verbatim_of_readOperand {token : List Char} {op : Operand}
    (h : readOperand token type = .ok op) (htrimmed : Trimmed token) (hcode : IsCode token)
    (himmediate : op.mode = .immediate → op.value ≠ Int64.minValue) : Verbatim type token op := by
  cases readAs_of_readOperand h with
  | vector hvector => exact verbatim_vector hvector (hcode.part ⟨['{'], ['}'], rfl⟩)
  | address haddress => exact verbatim_address haddress (hcode.part ⟨['['], [']'], rfl⟩)
  | named rest =>
    have hne : '%' :: rest ≠ [] := List.cons_ne_nil _ _
    exact verbatim_token h (isValid_ofRegisterName _ type) (text_ofRegisterName hne type)
      ⟨⟨hne, htrimmed, hcode, id, id⟩, by simp⟩
  | immediate => exact verbatim_immediate (himmediate rfl) token
  | label hlabel =>
    exact verbatim_token h rfl (by simp [Operand.label, text])
      (standsFor_of_isToken (isToken_of_isLabelName hlabel) (isLabelName_ne_nil hlabel) token)

end Operand

end KernelListing
