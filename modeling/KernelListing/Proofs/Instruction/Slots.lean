import KernelListing.Proofs.Instruction.Parts
import KernelListing.Proofs.Operand.Verbatim

/-!
# Arguments in their slots

Which operand an instruction has in a slot once some arguments have been put in their slots, and
which second destination. Every argument is read in one of four ways (`readAs_of_argument?`). An
operation has no operands of its own, so that changing the operands of an instruction that has been
read is changing its guard and its arguments (`mapOperands_operation`).
-/

namespace KernelListing.Instruction

open Text

section putAll

variable (i : Instruction) {ss : List Slot} {xs : List Argument}

theorem operand_put (s : Slot) (x : Argument) (h : s ≠ .q) : (i.put s x).operand s = x.1 := by
  cases s <;> first | rfl | exact absurd rfl h

theorem operand_put_of_ne {s s' : Slot} (x : Argument) (h : s' ≠ s) (hq : s' ≠ .q) :
    (i.put s x).operand s' = i.operand s' := by
  cases s <;> cases s' <;> first | rfl | exact absurd rfl h | exact absurd rfl hq

theorem operand_putAll_of_not_mem {s : Slot} (h : s ∉ ss.take xs.length) (hq : s ≠ .q) :
    (i.putAll ss xs).operand s = i.operand s := by
  induction ss generalizing i xs with
  | nil => rfl
  | cons s' ss ih =>
    cases xs with
    | nil => rfl
    | cons x xs =>
      rw [List.length_cons, List.take_succ_cons, List.mem_cons, not_or] at h
      rw [putAll, ih (i.put s' x) h.2, operand_put_of_ne i x h.1 hq]

theorem operand_putAll_of_mem (hss : ss.Nodup) (hq : .q ∉ ss) {s : Slot} {x : Argument}
    (h : (s, x) ∈ ss.zip xs) : (i.putAll ss xs).operand s = x.1 := by
  induction ss generalizing i xs with
  | nil => cases h
  | cons s' ss ih =>
    cases xs with
    | nil => cases h
    | cons x' xs =>
      rw [List.nodup_cons] at hss
      rw [List.mem_cons, not_or] at hq
      rw [List.zip_cons_cons, List.mem_cons] at h
      rcases h with h | h
      · obtain ⟨rfl, rfl⟩ := Prod.mk.inj h
        rw [putAll, operand_putAll_of_not_mem _ (fun hmem => hss.1 (List.mem_of_mem_take hmem))
          (Ne.symm hq.1), operand_put i s x (Ne.symm hq.1)]
      · exact ih (i.put s' x') hss.2 hq.2 h

theorem q_putAll (hq : .q ∉ ss) (h : ∀ x ∈ xs, x.2 = none) : (i.putAll ss xs).q = i.q := by
  induction ss generalizing i xs with
  | nil => rfl
  | cons s ss ih =>
    cases xs with
    | nil => rfl
    | cons x xs =>
      obtain ⟨hx, hxs⟩ := List.forall_mem_cons.1 h
      rw [List.mem_cons, not_or] at hq
      rw [putAll, ih (i.put s x) hq.2 hxs, put, hx]
      cases s <;> first | rfl | exact absurd rfl hq.1

end putAll

theorem guard_putAll (i : Instruction) (xs : List Argument) :
    (i.putAll Slot.arguments xs).guard = i.guard :=
  operand_putAll_of_not_mem i (s := .guard)
    (fun h => absurd (List.mem_of_mem_take h) (by decide)) (by decide)

theorem operationText_putAll (j : Instruction) (ss : List Slot) (xs : List Argument) :
    (j.putAll ss xs).operationText = j.operationText := by
  obtain ⟨hopcode, hmodifiers, htype⟩ := operation_putAll j ss xs
  rw [operationText, hopcode, hmodifiers, htype, operationText]

theorem operand_put_cases (i : Instruction) (s : Slot) (x : Argument) (s' : Slot) :
    s' = s ∧ (i.put s x).operand s' = x.1 ∨ s' = .q ∧ x.2 = some ((i.put s x).operand s') ∨
      (i.put s x).operand s' = i.operand s' := by
  obtain ⟨op, q⟩ := x
  cases q <;> cases s <;> cases s' <;> simp [put, setOperand, operand]

theorem operand_operation {token : List Char} {operation : Instruction}
    (h : readOperation token = .ok operation) (guard : Operand) (s : Slot) :
    ({ operation with guard } : Instruction).operand s =
      if s = .guard then guard else .invalid := by
  rw [(operationText_of_readOperation h).2]
  cases s <;> rfl

/-- What holds of the operands of an instruction and of arguments for their slots holds once the
arguments have been put in their slots. -/
theorem Reads.forall_operand {P : Slot → Operand → Prop} {opcode : Opcode}
    {type : Option DataType} {ss : List Slot} {ts : List (List Char)} {xs : List Argument}
    (h : Reads opcode type ss ts xs) {i : Instruction} (hi : ∀ s, P s (i.operand s))
    (hargument : ∀ s t, (s, t) ∈ ss.zip ts → ∀ x, argument? opcode type s t = .ok x →
      P s x.1 ∧ ∀ q ∈ x.2, P .q q) : ∀ s, P s ((i.putAll ss xs).operand s) := by
  induction h generalizing i with
  | nil => rwa [putAll.eq_2 _ _ _ (by simp)]
  | @cons s ss t ts x xs hx _ ih =>
    rw [List.zip_cons_cons] at hargument
    refine ih (i := i.put s x) (fun s' => ?_)
      fun s' t' hmem => hargument s' t' (List.mem_cons_of_mem _ hmem)
    obtain ⟨hfirst, hsecond⟩ := hargument s t (List.mem_cons_self ..) x hx
    rcases i.operand_put_cases s x s' with ⟨rfl, heq⟩ | ⟨rfl, heq⟩ | heq
    · rw [heq]
      exact hfirst
    · exact hsecond _ heq
    · rw [heq]
      exact hi s'

/-! ## Readings of an argument -/

/-- The ways in which an argument is read: a comparison may have two destinations or one, a jump
has its target, and everything else is an operand of a type that does not depend on the text. -/
inductive Argument.ReadAs (type : Option DataType) :
    Opcode → Slot → List Char → Argument → Prop where
  | pair {token first second : List Char} (hcut : cutAt? (· == '|') token = some (first, second)) :
    ReadAs type .setp .d token
      (.predicate (String.ofList (trim first)), some (.predicate (String.ofList (trim second))))
  | comparison {token : List Char} (hne : token ≠ []) (hcut : cutAt? (· == '|') token = none) :
    ReadAs type .setp .d token (.predicate (String.ofList token), none)
  | target {opcode : Opcode} {token : List Char} (hop : opcode = .bra ∨ opcode = .call) :
    ReadAs type opcode .d token (.label (String.ofList token), none)
  | operand {opcode : Opcode} {s : Slot} {token : List Char} {type' : DataType} {op : Operand}
    (hread : Operand.readOperand token type' = .ok op) (hsetp : opcode = .setp → s ≠ .d)
    (hbra : opcode = .bra → s ≠ .d) (hany : ∀ cs, cs ≠ [] → argument? opcode type s cs =
      (Operand.readOperand cs type').map (·, none)) :
    ReadAs type opcode s token (op, none)

theorem readAs_of_argument? {opcode : Opcode} {type : Option DataType} {s : Slot}
    {token : List Char} {x : Argument} (h : argument? opcode type s token = .ok x) :
    Argument.ReadAs type opcode s token x := by
  unfold argument? at h
  split at h
  · cases h
  · next hempty =>
    split at h
    · split at h
      · next hcut =>
        cases h
        exact .pair hcut
      · next hcut =>
        cases h
        exact .comparison (by simpa using hempty) hcut
    · obtain ⟨op, hop, rfl⟩ := exists_of_map_eq_ok h
      refine .operand hop nofun nofun fun cs hne => ?_
      rw [argument?, if_neg (by simpa using hne)]
    · cases h
      exact .target (.inl rfl)
    · cases h
      exact .target (.inr rfl)
    · next hsetp hselp hbra hcall =>
      obtain ⟨op, hop, rfl⟩ := exists_of_map_eq_ok h
      exact .operand hop hsetp hbra fun cs hne =>
        argument?_of_plain (by simpa using hne) hsetp hselp hbra hcall type

/-! ## Second destinations -/

theorem second_of_argument? {opcode : Opcode} {type : Option DataType} {s : Slot} {t : List Char}
    {x : Argument} (h : argument? opcode type s t = .ok x) {q : Operand}
    (hq : q ∈ x.2) : opcode = .setp ∧ s = .d ∧ ∃ name, q = .predicate name := by
  cases readAs_of_argument? h with
  | pair =>
    cases hq
    exact ⟨rfl, rfl, _, rfl⟩
  | comparison => cases hq
  | target => cases hq
  | operand => cases hq

section reads

variable {opcode : Opcode} {type : Option DataType} {ss : List Slot} {ts : List (List Char)}
  {xs : List Argument}

theorem Reads.length_eq (h : Reads opcode type ss ts xs) :
    xs.length = ts.length ∧ xs.length ≤ ss.length := by
  induction h with
  | nil => exact ⟨rfl, Nat.zero_le _⟩
  | cons _ _ ih => exact ⟨congrArg (· + 1) ih.1, Nat.succ_le_succ ih.2⟩

/-- A second destination comes from an argument for the first slot. -/
theorem Reads.second (h : Reads opcode type ss ts xs) : ∀ x ∈ xs, ∀ q ∈ x.2,
    opcode = .setp ∧ .d ∈ ss ∧ ∃ name, q = .predicate name := by
  induction h with
  | nil => exact List.forall_mem_nil _
  | cons hx _ ih =>
    refine List.forall_mem_cons.2 ⟨fun q hq => ?_, fun x hmem q hq => ?_⟩
    · obtain ⟨hop, rfl, hname⟩ := second_of_argument? hx hq
      exact ⟨hop, List.mem_cons_self .., hname⟩
    · obtain ⟨hop, hd, hname⟩ := ih x hmem q hq
      exact ⟨hop, List.mem_cons_of_mem _ hd, hname⟩

theorem Reads.second_tail (h : Reads opcode type Slot.arguments ts xs) :
    ∀ x ∈ xs.tail, x.2 = none := by
  cases h with
  | nil => exact List.forall_mem_nil _
  | cons _ h =>
    exact fun x hx => Option.eq_none_iff_forall_not_mem.2 fun q hq =>
      absurd (h.second x hx q hq).2.1 (by decide)

end reads

theorem q_putAll_arguments (i : Instruction) (x : Argument) (xs : List Argument)
    (h : ∀ y ∈ xs, y.2 = none) : (i.putAll Slot.arguments (x :: xs)).q = x.2.getD i.q := by
  rw [Slot.arguments, putAll, q_putAll _ (by decide) h]
  rfl

theorem q_putAll_of_mem (i : Instruction) {xs : List Argument} (h : ∀ x ∈ xs.tail, x.2 = none)
    {x : Argument} (hx : x ∈ xs) {q : Operand} (hq : q ∈ x.2) :
    (i.putAll Slot.arguments xs).q = q := by
  cases xs with
  | nil => cases hx
  | cons y ys =>
    rw [q_putAll_arguments i y ys h]
    rcases List.mem_cons.1 hx with rfl | hx
    · rw [Option.mem_def.1 hq]
      rfl
    · rw [h x hx] at hq
      cases hq

/-! ## Changing operands -/

def mapOperands (f : Operand → Operand) (i : Instruction) : Instruction :=
  { i with d := f i.d, a := f i.a, b := f i.b, c := f i.c, guard := f i.guard, q := f i.q }

def Argument.map (f : Operand → Operand) (x : Argument) : Argument := (f x.1, x.2.map f)

theorem mapOperands_put (f : Operand → Operand) (i : Instruction) (s : Slot) (x : Argument) :
    (i.put s x).mapOperands f = (i.mapOperands f).put s (x.map f) := by
  obtain ⟨op, q⟩ := x
  cases s <;> cases q <;> rfl

theorem mapOperands_putAll (f : Operand → Operand) (i : Instruction) (ss : List Slot)
    (xs : List Argument) :
    (i.putAll ss xs).mapOperands f = (i.mapOperands f).putAll ss (xs.map (Argument.map f)) := by
  induction ss generalizing i xs with
  | nil => rfl
  | cons s ss ih =>
    cases xs with
    | nil => rfl
    | cons x xs =>
      rw [putAll, ih, mapOperands_put]
      rfl

theorem mapOperands_operation {f : Operand → Operand} (hf : f .invalid = .invalid)
    {token : List Char} {operation : Instruction} (h : readOperation token = .ok operation)
    (guard : Operand) (xs : List Argument) :
    ({ operation with guard }.putAll Slot.arguments xs).mapOperands f =
      { operation with guard := f guard }.putAll Slot.arguments (xs.map (Argument.map f)) := by
  rw [mapOperands_putAll]
  congr 1
  rw [(operationText_of_readOperation h).2, mapOperands]
  dsimp only
  rw [hf]

end KernelListing.Instruction
