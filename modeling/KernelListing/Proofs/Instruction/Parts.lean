import KernelListing.Instruction.Printer
import KernelListing.Proofs.Instruction.Arguments

/-!
# The parts of an instruction

An instruction is put together from its guard, its operation and its arguments. What an argument
is read as depends on the operation and the slot alone (`argument?`), so reading several of them
is reading each one and putting it in its place (`readArguments_iff`). `IsRead` says of an
instruction that it is made of parts that have been read.
-/

namespace KernelListing.Instruction

open Text

/-- What is read from one argument: an operand, and a second destination if there is one. -/
abbrev Argument := Operand × Option Operand

/-- What an argument is read as. -/
def argument? (opcode : Opcode) (type : Option DataType) (s : Slot) (token : List Char) :
    Except ReadError Argument :=
  if token.isEmpty then .error (.missingOperand opcode)
  else
    match opcode, s with
    | .setp, .d =>
      match cutAt? (· == '|') token with
      | some (first, second) =>
        .ok (.predicate (String.ofList (trim first)),
          some (.predicate (String.ofList (trim second))))
      | none => .ok (.predicate (String.ofList token), none)
    | .selp, .c => (Operand.readOperand token .pred).map (·, none)
    | .bra, .d => .ok (.label (String.ofList token), none)
    | .call, .d => .ok (.label (String.ofList token), none)
    | _, _ => (Operand.readOperand token (type.getD .b32)).map (·, none)

def put (i : Instruction) (s : Slot) (x : Argument) : Instruction :=
  { i.setOperand s x.1 with q := x.2.getD (i.setOperand s x.1).q }

def putAll (i : Instruction) : List Slot → List Argument → Instruction
  | s :: ss, x :: xs => (i.put s x).putAll ss xs
  | _, _ => i

theorem argument?_of_plain {opcode : Opcode} {s : Slot} {token : List Char}
    (hne : ¬ token.isEmpty = true) (hsetp : opcode = .setp → s = .d → False)
    (hselp : opcode = .selp → s = .c → False) (hbra : opcode = .bra → s = .d → False)
    (hcall : opcode = .call → s = .d → False) (type : Option DataType) :
    argument? opcode type s token =
      (Operand.readOperand token (type.getD .b32)).map (·, none) := by
  unfold argument?
  rw [if_neg hne]
  split
  · exact (hsetp rfl rfl).elim
  · exact (hselp rfl rfl).elim
  · exact (hbra rfl rfl).elim
  · exact (hcall rfl rfl).elim
  · rfl

theorem readArgument_eq (i : Instruction) (s : Slot) (token : List Char) :
    readArgument i s token = (argument? i.opcode i.type s token).map (i.put s) := by
  have hplain : ∀ r : Except ReadError Operand,
      r.map (i.setOperand s) = (r.map ((·, none) : Operand → Argument)).map (i.put s) := by
    intro r
    cases r <;> rfl
  obtain ⟨opcode, modifiers, type, d, a, b, c, guard, q⟩ := i
  unfold readArgument
  dsimp only
  split
  · next hempty =>
    unfold argument?
    rw [if_pos hempty]
    rfl
  · next hne =>
    split
    · unfold argument?
      rw [if_neg hne]
      cases hcut : cutAt? (· == '|') token <;> rfl
    · unfold argument?
      rw [if_neg hne]
      exact hplain _
    · unfold argument?
      rw [if_neg hne]
      rfl
    · unfold argument?
      rw [if_neg hne]
      rfl
    · next hsetp hselp hbra hcall =>
      rw [argument?_of_plain hne hsetp hselp hbra hcall]
      exact hplain _

@[simp] theorem opcode_put (i : Instruction) (s : Slot) (x : Argument) :
    (i.put s x).opcode = i.opcode := by
  cases s <;> rfl

@[simp] theorem type_put (i : Instruction) (s : Slot) (x : Argument) :
    (i.put s x).type = i.type := by
  cases s <;> rfl

@[simp] theorem modifiers_put (i : Instruction) (s : Slot) (x : Argument) :
    (i.put s x).modifiers = i.modifiers := by
  cases s <;> rfl

theorem operation_putAll (i : Instruction) (ss : List Slot) (xs : List Argument) :
    (i.putAll ss xs).opcode = i.opcode ∧ (i.putAll ss xs).modifiers = i.modifiers ∧
      (i.putAll ss xs).type = i.type := by
  induction ss generalizing i xs with
  | nil => exact ⟨rfl, rfl, rfl⟩
  | cons s ss ih =>
    cases xs with
    | nil => exact ⟨rfl, rfl, rfl⟩
    | cons x xs => simpa [putAll] using ih (i.put s x) xs

/-- Tokens that are read as arguments, each for its slot. -/
inductive Reads (opcode : Opcode) (type : Option DataType) :
    List Slot → List (List Char) → List Argument → Prop where
  | nil {ss : List Slot} : Reads opcode type ss [] []
  | cons {s : Slot} {ss : List Slot} {t : List Char} {ts : List (List Char)} {x : Argument}
    {xs : List Argument} (hx : argument? opcode type s t = .ok x) (h : Reads opcode type ss ts xs) :
    Reads opcode type (s :: ss) (t :: ts) (x :: xs)

/-- Reading arguments is reading each of them and putting it in its slot. -/
theorem readArguments_eq_ok_iff {i i' : Instruction} {ss : List Slot} {ts : List (List Char)}
    (h : ts.length ≤ ss.length) : readArguments i (ss.zip ts) = .ok i' ↔
      ∃ xs, Reads i.opcode i.type ss ts xs ∧ i' = i.putAll ss xs := by
  induction ts generalizing i ss with
  | nil =>
    rw [List.zip_nil_right, readArguments]
    constructor
    · rintro ⟨⟩
      refine ⟨[], .nil, ?_⟩
      cases ss <;> rfl
    · rintro ⟨xs, hxs, rfl⟩
      cases hxs
      cases ss <;> rfl
  | cons t ts ih =>
    cases ss with
    | nil => simp at h
    | cons s ss =>
      have hstep : ∀ i : Instruction, readArguments i (ss.zip ts) = .ok i' ↔
          ∃ xs, Reads i.opcode i.type ss ts xs ∧ i' = i.putAll ss xs :=
        fun i => ih (by simpa using h)
      rw [List.zip_cons_cons, readArguments, readArgument_eq]
      cases hx : argument? i.opcode i.type s t with
      | error e =>
        constructor
        · intro hread
          simp only [Except.map] at hread
          split at hread <;> cases hread
        · rintro ⟨xs, hxs, -⟩
          cases hxs with
          | cons hx' _ =>
            rw [hx] at hx'
            cases hx'
      | ok x =>
        show readArguments (i.put s x) (ss.zip ts) = .ok i' ↔ _
        -- Putting an argument into its slot changes neither the opcode nor the type that the others
        -- are read by.
        rw [hstep, opcode_put, type_put]
        constructor
        · rintro ⟨xs, hxs, rfl⟩
          exact ⟨x :: xs, .cons hx hxs, rfl⟩
        · rintro ⟨xs, hxs, rfl⟩
          cases hxs with
          | cons hx' hxs =>
            rw [hx] at hx'
            cases hx'
            exact ⟨_, hxs, rfl⟩

/-! ## Operations -/

theorem name_toList (op : Opcode) : ∃ c cs, op.name.toList = c :: cs ∧ c.isAlpha = true ∧
    ∀ c ∈ op.name.toList, c ≠ ':' := by
  cases op <;> exact ⟨_, _, rfl, by decide, by decide⟩

theorem operationText_of_readOperation {cs : List Char} {i : Instruction}
    (h : readOperation cs = .ok i) : i.operationText.toList = cs ∧
      i = { opcode := i.opcode, modifiers := i.modifiers, type := i.type } := by
  have hparts := flatten_intersperse_split '.' cs
  rw [readOperation] at h
  generalize split (· == '.') cs = parts at h hparts
  dsimp only at h
  split at h
  · cases h
  · next opcode hopcode =>
    cases h
    refine ⟨?_, rfl⟩
    have hname := Opcode.name_of_ofName? hopcode
    rw [operationText, hname, ← hparts]
    cases htype : parts.tail.getLast?.bind fun name => DataType.ofName? (String.ofList name) with
    | none => simp
    | some t =>
      obtain ⟨last, hlast, ht⟩ := Option.bind_eq_some_iff.1 htype
      have htail : parts.tail = parts.tail.dropLast ++ [last] :=
        (List.dropLast_append_getLast? last hlast).symm
      have hname' := DataType.name_of_ofName? ht
      conv_rhs => rw [htail]
      simp [hname']

/-! ## Guards -/

/-- A name that a predicate can have in a guard. -/
structure IsGuardName (name : String) : Prop where
  head : name.toList.head? = some '%'
  blank : ∀ c ∈ name.toList, isBlank c = false
  isCode : IsCode name.toList

theorem IsGuardName.ne {name : String} (h : IsGuardName name) : name ≠ "" := by
  rintro rfl
  cases h.head

/-- The guards that an instruction can have. -/
inductive IsGuard : Operand → Prop where
  | always : IsGuard .alwaysTrue
  | never : IsGuard (Operand.alwaysTrue.negate)
  | ifTrue {name : String} (h : IsGuardName name) : IsGuard (.predicate name)
  | ifFalse {name : String} (h : IsGuardName name) : IsGuard (Operand.predicate name).negate

theorem isGuard_of_readPredicate? {name : List Char} {op : Operand}
    (h : readPredicate? name = some op) (hblank : ∀ c ∈ name, isBlank c = false)
    (hcode : IsCode name) : IsGuard op ∧ IsGuard op.negate := by
  unfold readPredicate? at h
  split at h
  · cases h
    exact ⟨.always, .never⟩
  · split at h
    · next hhead =>
      cases h
      have hname : IsGuardName (String.ofList name) := by
        constructor <;> rwa [String.toList_ofList]
      exact ⟨.ifTrue hname, .ifFalse hname⟩
    · cases h

theorem isGuard_of_readGuard {token : List Char} {op : Operand} (h : readGuard token = .ok op)
    (hblank : ∀ c ∈ token, isBlank c = false) (hcode : IsCode token) : IsGuard op := by
  unfold readGuard at h
  dsimp only at h
  split at h
  · next op hop =>
    cases h
    split at hop
    · next name =>
      obtain ⟨op', hop', rfl⟩ := Option.map_eq_some_iff.1 hop
      exact (isGuard_of_readPredicate? hop' (List.forall_mem_cons.1 hblank).2
        (hcode.part (List.suffix_cons _ _).isInfix)).2
    · exact (isGuard_of_readPredicate? hop hblank hcode).1
  · cases h

theorem isGuard_of_readGuarded {cs rest : List Char} {op : Operand}
    (h : readGuarded cs = .ok (op, rest)) (hcode : IsCode cs) : IsGuard op ∧ rest <:+: cs := by
  unfold readGuarded at h
  split at h
  · next token =>
    have hword : (cutAt isBlank token).1 <:+: '@' :: token :=
      (List.takeWhile_prefix _).isInfix.trans (List.suffix_cons _ _).isInfix
    have hsuffix : trimStart (cutAt isBlank token).2 <:+: token := by
      refine (List.dropWhile_suffix _).isInfix.trans ?_
      exact ((List.tail_suffix _).trans (List.dropWhile_suffix _)).isInfix
    cases hguard : readGuard (cutAt isBlank token).1 with
    | error e =>
      dsimp only at h
      rw [hguard] at h
      cases h
    | ok guard =>
      dsimp only at h
      rw [hguard] at h
      cases h
      refine ⟨isGuard_of_readGuard hguard (fun c hc => ?_) (hcode.part hword),
        hsuffix.trans (List.suffix_cons _ _).isInfix⟩
      simpa using List.mem_takeWhile_imp hc
  · cases h
    exact ⟨.always, List.infix_refl _⟩

/-! ## Instructions -/

/-- An instruction is made of parts that have been read from code. -/
inductive IsRead : Instruction → Prop where
  | intro {guard : Operand} {operation : Instruction} {token : List Char}
    {ts : List (List Char)} {xs : List Argument} (hguard : IsGuard guard)
    (hoperation : readOperation token = .ok operation) (htoken : ∀ c ∈ token, isBlank c = false)
    (hcode : IsCode token) (harguments : Arguments ts) (hts : ∀ t ∈ ts, IsCode t)
    (hreads : Reads operation.opcode operation.type Slot.arguments ts xs) :
    IsRead ({ operation with guard }.putAll Slot.arguments xs)

/-- An instruction is read as its guard, its operation and its arguments. -/
theorem exists_parts_of_readInstruction {cs : List Char} {i : Instruction}
    (h : readInstruction cs = .ok i) : ∃ guard rest operation xs,
      readGuarded cs = .ok (guard, rest) ∧ readOperation (cutAt isBlank rest).1 = .ok operation ∧
        Reads operation.opcode operation.type Slot.arguments
          (splitArguments (cutAt isBlank rest).2) xs ∧
            i = { operation with guard }.putAll Slot.arguments xs := by
  unfold readInstruction at h
  cases hguarded : readGuarded cs with
  | error e =>
    rw [hguarded] at h
    cases h
  | ok result =>
    obtain ⟨guard, rest⟩ := result
    rw [hguarded] at h
    cases hoperation : readOperation (cutAt isBlank rest).1 with
    | error e =>
      simp [Except.mapError, bind, Except.bind, hoperation] at h
    | ok operation =>
      simp only [Except.mapError, bind, Except.bind, hoperation] at h
      split at h
      · cases h
      · next hlength =>
        obtain ⟨xs, hreads, rfl⟩ := (readArguments_eq_ok_iff (Nat.le_of_not_lt hlength)).1 h
        exact ⟨guard, rest, operation, xs, rfl, hoperation, hreads, rfl⟩

theorem readInstruction_ne_nil {cs : List Char} {es : List ReadError}
    (h : readInstruction cs = .error es) : es ≠ [] := by
  rw [readInstruction] at h
  cases hguarded : readGuarded cs with
  | error e =>
    rw [hguarded] at h
    cases h
    exact List.cons_ne_nil _ _
  | ok result =>
    rw [hguarded] at h
    cases hoperation : readOperation (cutAt isBlank result.2).1 with
    | error e =>
      simp only [Except.mapError, bind, Except.bind, hoperation] at h
      cases h
      exact List.cons_ne_nil _ _
    | ok operation =>
      simp only [Except.mapError, bind, Except.bind, hoperation] at h
      split at h
      · cases h
        exact List.cons_ne_nil _ _
      · exact readArguments_ne_nil h

theorem isRead_of_readInstruction {cs : List Char} {i : Instruction}
    (h : readInstruction cs = .ok i) (hcode : IsCode cs) : IsRead i := by
  obtain ⟨guard, rest, operation, xs, hguarded, hoperation, hreads, rfl⟩ :=
    exists_parts_of_readInstruction h
  obtain ⟨hguard, hrest⟩ := isGuard_of_readGuarded hguarded hcode
  obtain ⟨harguments, hpart⟩ := splitArguments_spec (cutAt isBlank rest).2
  have hcode' := hcode.part hrest
  refine .intro hguard hoperation ?_ (hcode'.part ?_) harguments (fun t ht => ?_) hreads
  · intro c hc
    simpa using List.mem_takeWhile_imp hc
  · exact (List.takeWhile_prefix _).isInfix
  · refine (hcode'.part ?_).part (hpart t ht)
    exact ((List.tail_suffix _).trans (List.dropWhile_suffix _)).isInfix

/-! ## Destinations -/

theorem renameDestination_put (i : Instruction) {s : Slot} (hs : s ≠ .d) (x : Argument)
    (name : String) : (i.put s x).renameDestination name = (i.renameDestination name).put s x := by
  cases s with
  | d => exact absurd rfl hs
  | a => rfl
  | b => rfl
  | c => rfl
  | guard => rfl
  | q => rfl

theorem renameDestination_putAll (i : Instruction) {ss : List Slot} (hss : .d ∉ ss)
    (xs : List Argument) (name : String) :
    (i.putAll ss xs).renameDestination name = (i.renameDestination name).putAll ss xs := by
  induction ss generalizing i xs with
  | nil => rfl
  | cons s ss ih =>
    obtain ⟨hs, hss⟩ := not_or.1 (mt List.mem_cons.2 hss)
    cases xs with
    | nil => rfl
    | cons x xs => rw [putAll, ih (i.put s x) hss, i.renameDestination_put (Ne.symm hs), putAll]

/-- A branch can be read with any other label for its destination. -/
theorem IsRead.renameDestination {i : Instruction} (h : IsRead i) (hop : i.opcode = .bra)
    (hname : i.d.name ≠ "") {name : String} (hlabel : isLabelName name.toList = true) :
    IsRead (i.renameDestination name) := by
  cases h with
  | @intro guard operation token ts xs hguard hoperation htoken hcode harguments hts hreads =>
    have hbra : operation.opcode = .bra := by
      rw [← hop]
      exact (operation_putAll { operation with guard } Slot.arguments xs).1.symm
    have hbare := (operationText_of_readOperation hoperation).2
    cases hreads with
    | nil =>
      refine absurd ?_ hname
      show operation.d.name = ""
      rw [hbare]
      rfl
    | @cons s ss t ts x xs hx hreads =>
      have htoken' := isToken_of_isLabelName hlabel
      have hne := isLabelName_ne_nil hlabel
      have hargument : ∀ token : List Char, token ≠ [] →
          argument? operation.opcode operation.type .d token =
            .ok (.label (String.ofList token), none) := by
        intro token hne
        rw [hbra, argument?, if_neg (by simpa using hne)]
      -- The destination of a branch is its first argument, so that one alone is replaced.
      have hput : ({ operation with guard }.putAll Slot.arguments (x :: xs)).renameDestination name =
          { operation with guard }.putAll Slot.arguments ((.label name, none) :: xs) := by
        have ht : t ≠ [] := by
          rintro rfl
          cases hx
        obtain rfl := Except.ok.inj ((hargument t ht).symm.trans hx)
        rw [Slot.arguments, putAll, renameDestination_putAll _ (by decide)]
        rfl
      have hx' := hargument name.toList hne
      rw [String.ofList_toList] at hx'
      rw [hput]
      have hreplaces := (standsFor_of_isToken htoken' hne t).toReplaces
      refine .intro hguard hoperation htoken hcode (harguments.cons_replaces hreplaces) ?_
        (.cons hx' hreads)
      exact List.forall_mem_cons.2 ⟨htoken'.isCode, (List.forall_mem_cons.1 hts).2⟩

end KernelListing.Instruction
