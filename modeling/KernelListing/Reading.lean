import KernelListing.ReadError
import KernelListing.Statement.Basic

/-!
# Readings

What reading a text yields: the statements that could be read and the errors found on the way,
each in the order of the text. A faulty piece costs only itself, so readings are joined (`++`)
and never stop.
-/

namespace KernelListing

/-- The statements and the errors of a text. -/
structure Reading where
  statements : List Statement := []
  errors : List ReadError := []
  deriving DecidableEq, Repr, Inhabited

namespace Reading

/-- The reading of one text followed by that of another. -/
def append (r r' : Reading) : Reading :=
  ⟨r.statements ++ r'.statements, r.errors ++ r'.errors⟩

instance : Append Reading := ⟨append⟩

/-- The reading of several texts, one after the other. -/
def join (rs : List Reading) : Reading := rs.foldr (· ++ ·) {}

def statement (s : Statement) : Reading := { statements := [s] }

def error (e : ReadError) : Reading := { errors := [e] }

/-- The reading of a statement, or of the error that kept it from being read. -/
def ofExcept : Except ReadError Statement → Reading
  | .ok s => statement s
  | .error e => error e

@[simp] theorem statements_append (r r' : Reading) :
    (r ++ r').statements = r.statements ++ r'.statements := rfl

@[simp] theorem errors_append (r r' : Reading) : (r ++ r').errors = r.errors ++ r'.errors := rfl

@[ext] theorem ext {r r' : Reading} (hs : r.statements = r'.statements)
    (he : r.errors = r'.errors) : r = r' := by
  cases r
  cases r'
  simp_all

theorem append_assoc (r r' r'' : Reading) : r ++ r' ++ r'' = r ++ (r' ++ r'') := by
  ext : 1 <;> simp

@[simp] theorem empty_append (r : Reading) : ({} : Reading) ++ r = r := rfl

@[simp] theorem append_empty (r : Reading) : r ++ ({} : Reading) = r := by
  ext : 1 <;> simp

@[simp] theorem join_nil : join [] = {} := rfl

@[simp] theorem join_cons (r : Reading) (rs : List Reading) : join (r :: rs) = r ++ join rs :=
  rfl

theorem join_append (rs rs' : List Reading) : join (rs ++ rs') = join rs ++ join rs' := by
  induction rs with
  | nil => rfl
  | cons r rs ih => simp [ih, append_assoc]

end Reading

end KernelListing
