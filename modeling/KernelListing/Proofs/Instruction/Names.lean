import KernelListing.Proofs.Instruction.Registers
import KernelListing.Proofs.Source.Statements

/-!
# The names of registers

A register that has been numbered has no name any more, so one that is read must have one: without
a name it would pass for register zero. Registers are read with their names wherever they stand, but
for the two destinations of a comparison, of which either may be left out.
-/

namespace KernelListing

open Text

def Operand.HasNames (op : Operand) : Prop :=
  op.isRegisterLike = true → ∀ x ∈ op.scalars, x.name ≠ ""

/-- The registers of an operand in a slot have names, unless it is one of the two constant
guards. -/
def Operand.HasNamesIn (s : Slot) (op : Operand) : Prop :=
  s = .guard ∧ (op.isAlwaysTrue = true ∨ op.isAlwaysFalse = true) ∨ op.HasNames

instance (op : Operand) : Decidable op.HasNames :=
  inferInstanceAs (Decidable (op.isRegisterLike = true → ∀ x ∈ op.scalars, x.name ≠ ""))

instance (s : Slot) (op : Operand) : Decidable (op.HasNamesIn s) :=
  inferInstanceAs (Decidable (s = .guard ∧ (op.isAlwaysTrue = true ∨ op.isAlwaysFalse = true) ∨
    op.HasNames))

def Instruction.HasNames (i : Instruction) : Prop := ∀ s, (i.operand s).HasNamesIn s

namespace Operand

theorem hasNames_predicate_iff {name : String} : (predicate name).HasNames ↔ name ≠ "" := by
  constructor
  · exact fun h => h rfl _ (List.mem_singleton_self _)
  · intro hne _ x hx
    rw [List.mem_singleton.1 hx]
    exact hne

theorem hasNames_of_isRegisterLike {op : Operand} (h : op.isRegisterLike = false) :
    op.HasNames := fun hlike => by
  rw [h] at hlike
  cases hlike

theorem name_ofRegisterName (token : List Char) (type : DataType) :
    (ofRegisterName token type).name = String.ofList token := by
  rcases ofRegisterName_eq token type with ⟨-, h⟩ | ⟨-, type', h⟩ <;> rw [h] <;> rfl

/-- A register is read with its name, alone, in a vector or as the base of an address. -/
theorem hasNames_of_readOperand {token : List Char} {type : DataType} {op : Operand}
    (h : readOperand token type = .ok op) : op.HasNames := by
  have hname : ∀ {cs : List Char}, cs ≠ [] → String.ofList cs ≠ "" := fun hne => by simpa using hne
  cases readAs_of_readOperand h with
  | vector hvector =>
    obtain ⟨first, rest, hheads, hes, rfl⟩ := elements_of_readVector hvector
    intro _ x hx
    rw [scalars, if_neg (by simp [vectorOf]), vectorOf, ← hes] at hx
    obtain ⟨token, htoken, rfl⟩ := List.mem_map.1 hx
    rw [name_ofRegisterName]
    exact hname (ne_nil_of_head? (hheads token htoken))
  | address haddress =>
    obtain ⟨base, offset, -, -, hbase, rfl, -⟩ := exists_isBase_of_readAddress haddress
    unfold ofBase
    split
    · intro _ x hx
      rw [List.mem_singleton.1 hx]
      exact hname hbase.ne_nil
    · exact hasNames_of_isRegisterLike rfl
  | named rest =>
    intro _ x hx
    rw [scalars_of_elements_eq_nil (elements_ofRegisterName _ type), List.mem_singleton] at hx
    rw [hx, name_ofRegisterName]
    exact hname (List.cons_ne_nil _ _)
  | immediate => exact hasNames_of_isRegisterLike rfl
  | label => exact hasNames_of_isRegisterLike rfl

end Operand

namespace Instruction

/-- A token with a bar in it and nothing on one side of the first one. -/
def HalfBlank (token : List Char) : Prop :=
  ∃ first second, token = first ++ '|' :: second ∧ '|' ∉ first ∧ (trim first = [] ∨ trim second = [])

theorem halfBlank_iff_cutAt? {token : List Char} : HalfBlank token ↔
    ∃ halves ∈ cutAt? (· == '|') token, trim halves.1 = [] ∨ trim halves.2 = [] := by
  constructor
  · rintro ⟨first, second, rfl, hbar, hblank⟩
    exact ⟨(first, second), cutAt?_append_cons (beq_false_of_not_mem hbar) rfl second, hblank⟩
  · rintro ⟨⟨first, second⟩, hcut, hblank⟩
    obtain ⟨c, hc, rfl, hbar⟩ := cutAt?_eq_some hcut
    obtain rfl := eq_of_beq hc
    exact ⟨first, second, rfl, fun hmem => absurd (hbar '|' hmem) (by decide), hblank⟩

/-- What is read from an argument has names, unless it is the two destinations of a comparison and
one is left out. -/
theorem hasNames_argument_iff {opcode : Opcode} {type : Option DataType} {s : Slot}
    {token : List Char} {x : Argument} (h : argument? opcode type s token = .ok x) :
    (x.1.HasNames ∧ ∀ q ∈ x.2, q.HasNames) ↔
      ¬ (opcode = .setp ∧ s = .d ∧ HalfBlank token) := by
  have hblank : ∀ cs : List Char, Operand.HasNames (.predicate (String.ofList cs)) ↔ cs ≠ [] := by
    intro cs
    rw [Operand.hasNames_predicate_iff]
    simp
  cases readAs_of_argument? h with
  | pair hcut => simp [halfBlank_iff_cutAt?, hcut, hblank]
  | comparison hne hcut => simp [halfBlank_iff_cutAt?, hcut, hblank, hne]
  | target hop =>
    refine iff_of_true ⟨Operand.hasNames_of_isRegisterLike rfl, nofun⟩ fun ⟨hsetp, _⟩ => ?_
    rw [hsetp] at hop
    exact absurd hop (by decide)
  | operand hread hsetp _ _ =>
    exact iff_of_true ⟨Operand.hasNames_of_readOperand hread, nofun⟩
      fun ⟨hop, hs, _⟩ => hsetp hop hs

def argumentTokens (cs : List Char) : List (List Char) :=
  match readGuarded cs with
  | .ok (_, rest) => splitArguments (cutAt isBlank rest).2
  | .error _ => []

/-- An instruction is a comparison whose text leaves out one of two destinations. -/
def LacksDestination (i : Instruction) (cs : List Char) : Prop :=
  i.opcode = .setp ∧ ∃ token ∈ (argumentTokens cs).head?, HalfBlank token

theorem IsGuard.hasNamesIn {op : Operand} (h : IsGuard op) : op.HasNamesIn .guard := by
  cases h with
  | always => exact .inl ⟨rfl, .inl rfl⟩
  | never => exact .inl ⟨rfl, .inr rfl⟩
  | ifTrue h => exact .inr (Operand.hasNames_predicate_iff.2 h.ne)
  | ifFalse h =>
    refine .inr fun _ x hx => ?_
    rw [List.mem_singleton.1 hx]
    exact h.ne

theorem head?_of_mem_zip {ts : List (List Char)} {t : List Char}
    (h : (Slot.d, t) ∈ Slot.arguments.zip ts) : ts.head? = some t := by
  cases ts with
  | nil => cases h
  | cons t' ts =>
    rw [Slot.arguments, List.zip_cons_cons, List.mem_cons] at h
    rcases h with h | h
    · rw [(Prod.mk.inj h).2]
      rfl
    · exact absurd (List.of_mem_zip h).1 (by decide)

theorem hasNames_iff_of_readInstruction {cs : List Char} {i : Instruction} (hcode : IsCode cs)
    (h : readInstruction cs = .ok i) : i.HasNames ↔ ¬ i.LacksDestination cs := by
  obtain ⟨guard, rest, operation, xs, hguarded, hoperation, hreads, rfl⟩ :=
    exists_parts_of_readInstruction h
  have htokens : argumentTokens cs = splitArguments (cutAt isBlank rest).2 := by
    rw [argumentTokens, hguarded]
  rw [LacksDestination, htokens, (operation_putAll _ _ _).1]
  -- Only the destination of a comparison can be read without a name, as one half of a pair.
  generalize splitArguments (cutAt isBlank rest).2 = ts at hreads
  constructor
  · rintro hnames ⟨hop, token, htoken, hhalf⟩
    have hnamed := fun s (hs : s ≠ Slot.guard) => (hnames s).resolve_left fun h => hs h.1
    have htail := hreads.second_tail
    cases hreads with
    | nil => cases htoken
    | @cons _ _ t ts x xs hx hreads =>
      obtain rfl := Option.some.inj htoken
      have hmem : (Slot.d, x) ∈ Slot.arguments.zip (x :: xs) := List.mem_cons_self ..
      refine (hasNames_argument_iff hx).1 ⟨?_, fun q hq => ?_⟩ ⟨hop, rfl, hhalf⟩
      · rw [← operand_putAll_of_mem { operation with guard } (by decide) (by decide) hmem]
        exact hnamed .d (by decide)
      · rw [← q_putAll_of_mem { operation with guard } htail (List.mem_cons_self ..) hq]
        exact hnamed .q (by decide)
  · intro hnot s
    refine hreads.forall_operand (P := Operand.HasNamesIn) (fun s => ?_) (fun s t hmem x hx => ?_) s
    · rw [operand_operation hoperation]
      split
      · next hs =>
        rw [hs]
        exact (isGuard_of_readGuarded hguarded hcode).1.hasNamesIn
      · exact .inr (Operand.hasNames_of_isRegisterLike rfl)
    · have hnames := (hasNames_argument_iff hx).2 fun ⟨hop, hs, hhalf⟩ =>
        hnot ⟨hop, t, head?_of_mem_zip (hs ▸ hmem), hhalf⟩
      exact ⟨.inr hnames.1, fun q hq => .inr (hnames.2 q hq)⟩

/-- The registers of an instruction that is read from a listing have names, unless it is a
comparison whose text leaves out one of two destinations. -/
theorem hasNames_iff {text : String} {i : Instruction}
    (h : .instruction i ∈ (Source.read text).statements) :
    ∃ cs, IsCode cs ∧ readInstruction cs = .ok i ∧ (i.HasNames ↔ ¬ i.LacksDestination cs) := by
  obtain ⟨cs, hcode, hread⟩ := Source.exists_readInstruction_of_mem_read h
  exact ⟨cs, hcode, hread, hasNames_iff_of_readInstruction hcode hread⟩

/-- A comparison with two destinations behind a guard. -/
def comparing : String := "@!%q setp.lt.s32 %p1 | %p2, %r1, 4;"

def comparison : Instruction where
  opcode := .setp
  modifiers := ".lt"
  type := some .s32
  d := .predicate "%p1"
  a := .register "%r1" .s32
  b := .immediate 4 .s32
  guard := (Operand.predicate "%q").negate
  q := .predicate "%p2"

theorem read_comparing : Source.read comparing = { statements := [.instruction comparison] } := by
  decide +kernel

theorem hasNames_iff_comparing : .instruction comparison ∈ (Source.read comparing).statements ∧
    comparison.HasNames ∧
    ∃ cs, readInstruction cs = .ok comparison ∧ ¬ comparison.LacksDestination cs := by
  have hmem : .instruction comparison ∈ (Source.read comparing).statements := by
    rw [read_comparing]
    exact List.mem_singleton_self _
  have hnames : comparison.HasNames := fun s => by cases s <;> decide
  obtain ⟨cs, -, hread, hiff⟩ := hasNames_iff hmem
  exact ⟨hmem, hnames, cs, hread, hiff.1 hnames⟩

/-- A comparison with nothing in front of the bar. -/
def halving : String := "setp.lt.s32 |%p2, %r1, %r2;"

def halved : Instruction where
  opcode := .setp
  modifiers := ".lt"
  type := some .s32
  d := .predicate ""
  a := .register "%r1" .s32
  b := .register "%r2" .s32
  q := .predicate "%p2"

theorem read_halving : Source.read halving = { statements := [.instruction halved] } := by
  decide +kernel

/-- The destination that is left out is read as a register without a name, which passes for the one
with the number zero. -/
theorem not_hasNames_halved : .instruction halved ∈ (Source.read halving).statements ∧
    ¬ halved.HasNames ∧ halved.d.text = "%p0" := by
  rw [read_halving]
  refine ⟨List.mem_singleton_self _, fun hnames => ?_, by decide⟩
  exact absurd (hnames .d) (by decide)

end Instruction

end KernelListing
