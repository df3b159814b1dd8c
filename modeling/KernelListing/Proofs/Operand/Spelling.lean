import KernelListing.Operand.Printer
import KernelListing.Operand.Reader
import KernelListing.Proofs.Kernel.Labels
import KernelListing.Proofs.Register.Numbering
import KernelListing.Proofs.Text.Token

/-!
# Registers by number

A numbered register is written by its kind and its number. When that text is read, it becomes the
name of the register: `Numbering.spelled` is the operand that comes out, and differs from the one
that was numbered only in the names of its registers. A comparison may write a predicate without a
name, which is then written by the number zero; `Numbering.reread` gives it that name, too.
-/

namespace KernelListing

open Text

namespace Operand

/-- The text of the register with a number. -/
def spelling (predicate : Bool) (number : Nat) : String :=
  (if predicate then "%p" else "%r") ++ toString number

theorem toList_spelling (predicate : Bool) (number : Nat) : (spelling predicate number).toList =
    '%' :: (if predicate then 'p' else 'r') :: Nat.toDigits 10 number := by
  cases predicate <;> simp [spelling]

theorem spelling_ne_empty (predicate : Bool) (number : Nat) : spelling predicate number ≠ "" := by
  intro h
  have hlist := toList_spelling predicate number
  rw [h] at hlist
  cases hlist

theorem isToken_spelling (predicate : Bool) (number : Nat) :
    IsToken (spelling predicate number).toList := by
  rw [toList_spelling]
  refine .cons (by decide) (.cons ?_ (isToken_toDigits number))
  cases predicate <;> decide

/-- The text of a numbered register tells its kind and its number. -/
theorem spelling_eq_iff {predicate predicate' : Bool} {n n' : Nat} :
    spelling predicate n = spelling predicate' n' ↔ predicate = predicate' ∧ n = n' := by
  constructor
  · intro h
    have hlist := congrArg String.toList h
    rw [toList_spelling, toList_spelling] at hlist
    have hkind := (List.cons.inj (List.cons.inj hlist).2).1
    obtain rfl : predicate = predicate' := by
      cases predicate <;> cases predicate' <;> first | rfl | exact absurd hkind (by decide)
    exact ⟨rfl, Label.toString_injective ((String.append_right_inj _).1 h)⟩
  · rintro ⟨rfl, rfl⟩
    rfl

theorem ofRegisterName_spelling (predicate : Bool) (number : Nat) (type : DataType) :
    ofRegisterName (spelling predicate number).toList type =
      register (spelling predicate number) (if predicate then .pred else type) := by
  have hhardware : isHardwareName (spelling predicate number).toList = false := by
    rw [toList_spelling]
    cases predicate <;> simp [isHardwareName, hardwareNames, ← String.toList_inj]
  have hdigits : (Nat.toDigits 10 number).isEmpty = false := by simp
  have hall : (Nat.toDigits 10 number).all Char.isDigit = true :=
    List.all_eq_true.2 fun c hc => isDigit_of_mem_toDigits hc
  rw [ofRegisterName, hhardware, String.ofList_toList, toList_spelling]
  cases predicate with
  | true => simp [isPredicateName, hdigits, hall, Operand.predicate]
  | false => simp [isPredicateName]

end Operand

namespace Numbering

/-- The name by which a register is read once it has been written by its number. -/
def registerName (m : Numbering) (op : Operand) : String :=
  Operand.spelling op.isPredicate (m.number op.name)

theorem isToken_registerName (m : Numbering) (op : Operand) :
    IsToken (m.registerName op).toList := Operand.isToken_spelling _ _

theorem exists_registerName (m : Numbering) (op : Operand) :
    ∃ rest, (m.registerName op).toList = '%' :: rest :=
  ⟨_, Operand.toList_spelling op.isPredicate (m.number op.name)⟩

/-- The register as it is read once it has been written by its number. -/
def spelledScalar (m : Numbering) (op : Operand) : Operand :=
  if op.name.isEmpty then op else { op with name := m.registerName op }

/-- The operand as it is read once its registers have been written by their numbers. -/
def spelled (m : Numbering) (op : Operand) : Operand :=
  if ! op.isNumbered then op
  else if op.elements.isEmpty then m.spelledScalar op
  else { op with elements := op.elements.map m.spelledScalar }

variable {m : Numbering} {op : Operand}

theorem spelled_of_not_isNumbered (h : op.isNumbered = false) : m.spelled op = op := by
  rw [spelled, h]
  rfl

theorem spelledScalar_of_name (h : op.name ≠ "") :
    m.spelledScalar op = { op with name := m.registerName op } := by
  rw [spelledScalar, if_neg (by simpa using h)]

/-- The operand as it is read once it has been written. -/
def reread (m : Numbering) (op : Operand) : Operand :=
  if op = .predicate "" then .predicate (Operand.spelling true 0) else m.spelled op

theorem reread_of_ne (h : op ≠ .predicate "") : m.reread op = m.spelled op := if_neg h

theorem reread_of_not_isNumbered (h : op.isNumbered = false) : m.reread op = op := by
  rw [reread_of_ne, spelled_of_not_isNumbered h]
  rintro rfl
  exact absurd h (by decide)

/-- The name by which a predicate is read once it has been written. -/
def predicateName (m : Numbering) (name : String) : String :=
  Operand.spelling true (if name = "" then 0 else m.number name)

theorem isToken_predicateName (m : Numbering) (name : String) :
    IsToken (m.predicateName name).toList := Operand.isToken_spelling _ _

theorem predicateName_ne_nil (m : Numbering) (name : String) :
    (m.predicateName name).toList ≠ [] := by
  rw [predicateName, Operand.toList_spelling]
  exact List.cons_ne_nil _ _

theorem registerText_scalar (h : op.name ≠ "") :
    (m.scalar op).registerText = m.registerName op := by
  rw [scalar, if_neg (by simpa using h)]
  rfl

end Numbering

end KernelListing
