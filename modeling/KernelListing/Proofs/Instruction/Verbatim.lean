import KernelListing.Proofs.Instruction.Layout
import KernelListing.Proofs.Source.Lines
import KernelListing.Proofs.Source.Statements

/-!
# Instructions as they are written

An instruction that has been read can be written before its registers are numbered. Names are
written as they were read, whatever characters they hold, and blanks, offsets, integers and guards
are written in one way only. The text is read as the instruction again (`read_text_iff`), but for an
instruction with a guard that is not written, whose operation is then taken for a label because a
colon follows it (`Mislabelled`).
-/

namespace KernelListing

open Text

namespace Instruction

/-! ## Arguments -/

/-- The text of an argument can take the place of the token that the argument was read from, and is
read as the argument. -/
structure Argument.Verbatim (opcode : Opcode) (type : Option DataType) (s : Slot) (t : List Char)
    (x : Argument) : Prop where
  valid : x.1.isValid = true
  replaces : Replaces x.written.toList t
  read : argument? opcode type s x.written.toList = .ok x

section argument

variable {opcode : Opcode} {type : Option DataType} {s : Slot} {t : List Char} {x : Argument}

theorem text_named_predicate {name : String} (h : name ≠ "") :
    (Operand.predicate name).text = name := by
  have hempty : name.isEmpty = false := by simpa using h
  simp [Operand.predicate, Operand.register, Operand.text, Operand.registerText, hempty]

theorem written_of_none (op : Operand) : Argument.written (op, none) = op.text :=
  String.append_empty

theorem verbatim_of_written (h : argument? opcode type s t = .ok x) (htrimmed : Trimmed t)
    (hcode : IsCode t) (hvalid : x.1.isValid = true) (hwritten : x.written.toList = t) :
    Argument.Verbatim opcode type s t x := by
  have hne : t ≠ [] := by
    rintro rfl
    cases h
  refine ⟨hvalid, ?_, ?_⟩
  · rw [hwritten]
    exact replaces_of_skeleton rfl hne htrimmed hcode
  · rw [hwritten]
    exact h

/-- Two names keep the bar between them, and lose the blanks around it. -/
theorem verbatim_pair {first second : List Char} (hbar : ∀ c ∈ first, (c == '|') = false)
    (hfirst : trim first ≠ []) (hsecond : trim second ≠ [])
    (hcode : IsCode (first ++ '|' :: second)) (type : Option DataType) :
    Argument.Verbatim .setp type .d (first ++ '|' :: second)
      (.predicate (String.ofList (trim first)),
        some (.predicate (String.ofList (trim second)))) := by
  have hname : ∀ cs : List Char, cs ≠ [] → String.ofList cs ≠ "" := fun cs hne => by simpa using hne
  have htext : (Argument.written (.predicate (String.ofList (trim first)),
      some (.predicate (String.ofList (trim second))))).toList =
        trim first ++ '|' :: trim second := by
    simp [Argument.written, text_named_predicate (hname _ hfirst),
      text_named_predicate (hname _ hsecond)]
  have htrimmed := (trim_spec first).1
  have htrimmed' := (trim_spec second).1
  obtain ⟨hcode₁, hcode₂⟩ := (isCode_append_cons (by decide)).1 hcode
  refine ⟨rfl, ?_, ?_⟩
  · rw [htext]
    refine replaces_of_skeleton ?_ (by simp) ?_ ?_
    · rw [skeleton_append, skeleton_append, skeleton_cons_of_isNeutral (by decide),
        skeleton_cons_of_isNeutral (by decide), skeleton_trim, skeleton_trim]
    · refine trimmed_append htrimmed.1 hfirst ?_ (List.cons_ne_nil _ _)
      rw [List.getLast?_cons_of_ne_nil hsecond]
      exact htrimmed'.2
    · exact (isCode_append_cons (by decide)).2
        ⟨hcode₁.part (trim_isInfix first), hcode₂.part (trim_isInfix second)⟩
  · have hcut : cutAt? (· == '|') (trim first ++ '|' :: trim second) =
        some (trim first, trim second) :=
      cutAt?_append_cons (fun c hc => hbar c ((trim_isInfix first).subset hc)) rfl _
    rw [htext, argument?, if_neg (by simp), hcut]
    simp only [trim_eq_self htrimmed, trim_eq_self htrimmed']

theorem verbatim_operand {type' : DataType} {op : Operand} (h : op.Verbatim type' t)
    (hread : ∀ cs, cs ≠ [] → argument? opcode type s cs =
      (Operand.readOperand cs type').map (·, none)) :
    Argument.Verbatim opcode type s t (op, none) := by
  constructor
  · exact h.valid
  · rw [written_of_none]
    exact h.standsFor.toReplaces
  · rw [written_of_none, hread _ h.standsFor.ne_nil, h.read]
    rfl

theorem verbatim_of_argument? (h : argument? opcode type s t = .ok x) (htrimmed : Trimmed t)
    (hcode : IsCode t) (hnamed : x.1 ≠ .predicate "" ∧ ∀ q ∈ x.2, q ≠ .predicate "")
    (himmediate : x.1.mode = .immediate → x.1.value ≠ Int64.minValue) :
    Argument.Verbatim opcode type s t x := by
  cases readAs_of_argument? h with
  | pair hcut =>
    obtain ⟨hfirst, hsecond⟩ := hnamed
    obtain ⟨c, hc, rfl, hbar⟩ := cutAt?_eq_some hcut
    obtain rfl := eq_of_beq hc
    have hne : ∀ cs : List Char, Operand.predicate (String.ofList cs) ≠ .predicate "" →
        cs ≠ [] := by
      rintro cs hcs rfl
      exact hcs rfl
    exact verbatim_pair hbar (hne _ hfirst) (hne _ (hsecond _ rfl)) hcode type
  | comparison hne =>
    refine verbatim_of_written h htrimmed hcode rfl ?_
    rw [written_of_none, text_named_predicate (by simpa using hne), String.toList_ofList]
  | target =>
    refine verbatim_of_written h htrimmed hcode rfl ?_
    rw [written_of_none, Operand.text_label rfl]
    exact String.toList_ofList
  | operand hread _ _ hany =>
    exact verbatim_operand (Operand.verbatim_of_readOperand hread htrimmed hcode himmediate) hany

end argument

/-! ## Instructions -/

/-- The operation of an instruction is the first thing in its text, could be the name of a label,
and has a colon behind it. -/
structure Mislabelled (i : Instruction) : Prop where
  guard : i.guard.isAlwaysTrue = true
  operation : isLabelName i.operationText.toList = true
  destination : i.d.text.toList.head? = some ':'

instance (i : Instruction) : Decidable i.Mislabelled :=
  decidable_of_iff (i.guard.isAlwaysTrue = true ∧ isLabelName i.operationText.toList = true ∧
      i.d.text.toList.head? = some ':')
    ⟨fun ⟨hguard, hoperation, hdestination⟩ => ⟨hguard, hoperation, hdestination⟩,
      fun ⟨hguard, hoperation, hdestination⟩ => ⟨hguard, hoperation, hdestination⟩⟩

theorem IsGuard.eq_of_isAlwaysTrue {g : Operand} (h : IsGuard g) (htrue : g.isAlwaysTrue = true) :
    g = .alwaysTrue := by
  cases h <;> first | rfl | cases htrue

theorem head?_written (x : Argument) :
    x.written.toList.head? = some ':' ↔ x.1.text.toList.head? = some ':' := by
  rw [Argument.written, String.toList_append, List.head?_append]
  cases x.1.text.toList with
  | nil => cases x.2 <;> simp
  | cons c cs => simp

theorem head?_text_destination {token : List Char} {operation : Instruction}
    (h : readOperation token = .ok operation) (guard : Operand) (xs : List Argument) :
    ({ operation with guard }.putAll Slot.arguments xs).d.text.toList.head? = some ':' ↔
      ∃ u ∈ (xs.map fun x => x.written.toList).head?, u.head? = some ':' := by
  cases xs with
  | nil =>
    have hd : ({ operation with guard }.putAll Slot.arguments []).d = .invalid := by
      rw [(operationText_of_readOperation h).2]
      rfl
    rw [hd]
    simp [Operand.text, Operand.invalid]
  | cons x xs =>
    have hd : ({ operation with guard }.putAll Slot.arguments (x :: xs)).d = x.1 :=
      operand_putAll_of_mem { operation with guard } (s := .d) (by decide) (by decide)
        (List.mem_cons_self ..)
    rw [hd, ← head?_written]
    simp

/-- A colon behind an operation that could be the name of a label makes it one. -/
theorem readPiece_mislabelled {token u : List Char} (hlabel : isLabelName token = true)
    (hu : u.head? = some ':') (us : List (List Char)) :
    ∃ r, Source.readPiece (token ++ argumentTail (u :: us)) =
      .statement (.label (String.ofList token)) ++ r := by
  have htoken := isToken_of_isLabelName hlabel
  obtain ⟨rest, hrest⟩ : ∃ rest, [',', ' '].intercalate (u :: us) = ':' :: rest := by
    have hne : u ≠ [] := Operand.ne_nil_of_head? hu
    have hhead := (head?_intercalate [',', ' '] hne us).trans hu
    exact List.head?_eq_some_iff.1 hhead
  have hblank : trim (token ++ [' ']) = token := trim_append_blank htoken.trimmed
  have hcut : cutAt? (· == ':') (token ++ argumentTail (u :: us)) =
      some (token ++ [' '], rest) := by
    rw [argumentTail_cons, hrest, List.append_cons]
    refine cutAt?_append_cons (fun c hc => ?_) rfl rest
    rcases List.mem_append.1 hc with hc | hc
    · exact htoken.ne (by decide) c hc
    · rw [List.mem_singleton.1 hc]
      decide
  rw [Source.readPiece_label hcut (hblank.symm ▸ hlabel), hblank]
  exact ⟨_, rfl⟩

/-- The text of an instruction is a piece of code, and is read as the instruction unless it looks
like a label. -/
theorem readPiece_text {i : Instruction} (h : IsRead i) (hmodifiers : ':' ∉ i.modifiers.toList)
    (himmediate : ∀ s, (i.operand s).mode = .immediate → (i.operand s).value ≠ Int64.minValue)
    (hnamed : ∀ s, i.operand s ≠ .predicate "") : IsCode i.text.toList ∧ Trimmed i.text.toList ∧
      (Source.readPiece i.text.toList = .statement (.instruction i) ↔ ¬ i.Mislabelled) := by
  have hunlabelled := unlabelled_of_not_mem (not_mem_operationText hmodifiers)
  cases h with
  | @intro guard operation token ts xs hguard hoperation hblank hcode harguments hts hreads =>
    obtain ⟨hvalid, hreplaces, hagain⟩ := hreads.again (R := Replaces)
      (f := fun x => x.written.toList) (g := id) fun s t x hx ht hread => by
        have hoperand := operand_putAll_of_mem { operation with guard } (by decide) (by decide) hx
        have hsecond : ∀ q ∈ x.2, q ≠ .predicate "" := fun q hq =>
          q_putAll_of_mem _ hreads.second_tail (List.of_mem_zip hx).2 hq ▸ hnamed .q
        have hback := verbatim_of_argument? hread (harguments.trimmed t ht) (hts t ht)
          ⟨hoperand ▸ hnamed s, hsecond⟩ (hoperand ▸ himmediate s)
        exact ⟨hback.valid, hback.replaces, hback.read⟩
    rw [List.map_id] at hagain
    obtain ⟨hlayout, hread⟩ :=
      layout_of_parts hguard hoperation hblank hcode harguments hreplaces hagain
    have htoken := (operationText_of_readOperation hoperation).1
    have hdestination := head?_text_destination hoperation guard xs
    rw [operationText_putAll] at hunlabelled
    rw [toList_text_putAll hoperation guard (hreads.writable hvalid)]
    refine ⟨hlayout.isCode_text, hlayout.trimmed_text, fun hpiece hmis => ?_, fun hnot => ?_⟩
    · -- A label is read first.
      obtain ⟨halways, hname, hcolon⟩ := hmis
      obtain ⟨u, hu, hhead⟩ := hdestination.1 hcolon
      obtain ⟨us, hus⟩ := List.head?_eq_some_iff.1 hu
      rw [guard_putAll] at halways
      rw [operationText_putAll] at hname
      obtain ⟨r, hr⟩ := readPiece_mislabelled (htoken ▸ hname) hhead us
      rw [hguard.eq_of_isAlwaysTrue halways, hus] at hpiece
      cases congrArg Reading.statements (hr.symm.trans hpiece)
    · -- A label could only stand in front where the guard is not written.
      refine hlayout.readPiece hread fun hfront => ⟨htoken ▸ hunlabelled, ?_⟩
      intro hname u hu hcolon
      refine hnot ⟨?_, ?_, hdestination.2 ⟨u, hu, hcolon⟩⟩
      · rw [guard_putAll, hguard.eq_alwaysTrue hfront]
        rfl
      · rw [operationText_putAll]
        exact htoken.symm ▸ hname

end Instruction

/-- The text of an instruction that is read from a listing, ended by a semicolon, is read as the
instruction and nothing else, unless it looks like a label. -/
theorem Source.read_text_iff {text : String} {i : Instruction}
    (h : .instruction i ∈ (read text).statements) (hmodifiers : ':' ∉ i.modifiers.toList)
    (himmediate : ∀ s, (i.operand s).mode = .immediate → (i.operand s).value ≠ Int64.minValue)
    (hnamed : ∀ s, (i.operand s).isRegisterLike = true → (i.operand s).name = "" →
      (i.operand s).isAlwaysTrue = true ∨ (i.operand s).isAlwaysFalse = true ∨
        (i.operand s).isVector = true) :
    read (i.text ++ ";") = { statements := [.instruction i] } ↔ ¬ i.Mislabelled := by
  have hnamed' : ∀ s, i.operand s ≠ .predicate "" := by
    intro s heq
    have hor := hnamed s
    rw [heq] at hor
    revert hor
    decide
  obtain ⟨hcode, htrimmed, hread⟩ :=
    Instruction.readPiece_text (isRead_of_mem_read h) hmodifiers himmediate hnamed'
  rw [read_piece String.toList_append hcode htrimmed]
  exact hread

namespace Instruction

/-- A store with more blanks and a longer offset than its text has, and a bar and a blank in names. -/
def scattering : String := "@!%p st.v2.f32 [ %a.b + 0x10 ],\x7b %x|1 , %y z \x7d ;"

def scattered : Instruction where
  opcode := .st
  modifiers := ".v2"
  type := some .f32
  d := .indirect "%a.b" 16 .f32
  a := .vectorOf .f32 [.register "%x|1" .f32, .register "%y z" .f32]
  guard := (Operand.predicate "%p").negate

theorem read_scattering : Source.read scattering = { statements := [.instruction scattered] } := by
  decide +kernel

theorem read_text_iff_scattering :
    scattered.text = "@!%p st.v2.f32 [%a.b+16], \x7b%x|1, %y z\x7d" ∧
    Source.read (scattered.text ++ ";") = { statements := [.instruction scattered] } := by
  have hread : .instruction scattered ∈ (Source.read scattering).statements := by
    rw [read_scattering]
    exact List.mem_singleton_self _
  refine ⟨by decide, (Source.read_text_iff hread ?_ ?_ ?_).2 ?_⟩
  · decide
  · exact fun s => by cases s <;> decide
  · exact fun s => by cases s <;> decide
  · decide

/-- A branch to a label that starts with a colon, read behind a guard that always holds. -/
def jumping : String := "@pt bra :x;"

def jump : Instruction where
  opcode := .bra
  d := .label ":x"

theorem read_jumping : Source.read jumping = { statements := [.instruction jump] } := by
  decide +kernel

/-- The guard is not written, and what is left of the branch looks like a label. -/
theorem read_text_jump : Source.read (jump.text ++ ";") =
    { statements := [.label "bra"], errors := [.unknownInstruction "x"] } := by
  decide +kernel

/-- The exception cannot be left out. -/
theorem not_forall_read_text : ¬ ∀ (text : String) (i : Instruction),
    .instruction i ∈ (Source.read text).statements → ':' ∉ i.modifiers.toList →
    (∀ s, (i.operand s).mode = .immediate → (i.operand s).value ≠ Int64.minValue) →
    (∀ s, (i.operand s).isRegisterLike = true → (i.operand s).name = "" →
      (i.operand s).isAlwaysTrue = true ∨ (i.operand s).isAlwaysFalse = true ∨
        (i.operand s).isVector = true) →
    Source.read (i.text ++ ";") = { statements := [.instruction i] } := by
  intro h
  have hread := h jumping jump (by rw [read_jumping]; exact List.mem_singleton_self _) (by decide)
    (fun s => by cases s <;> decide) (fun s => by cases s <;> decide)
  rw [read_text_jump] at hread
  cases congrArg Reading.statements hread

end Instruction

end KernelListing
