/-!
# Data types

The types of operands, registers, parameters and variables, with the names they carry in a
listing. `ofName?_name` and `name_of_ofName?` say that reading a name and writing it are
inverse to each other.
-/

namespace KernelListing

/-- The type of a value: a signed, unsigned, untyped or floating-point word of some width, or
a predicate. -/
inductive DataType where
  | s8 | s16 | s32 | s64
  | u8 | u16 | u32 | u64
  | b8 | b16 | b32 | b64
  | f16 | f32 | f64
  | pred
  deriving DecidableEq, Repr, Inhabited

namespace DataType

/-- The name of a type, as it stands behind the dot. -/
def name : DataType → String
  | s8 => "s8" | s16 => "s16" | s32 => "s32" | s64 => "s64"
  | u8 => "u8" | u16 => "u16" | u32 => "u32" | u64 => "u64"
  | b8 => "b8" | b16 => "b16" | b32 => "b32" | b64 => "b64"
  | f16 => "f16" | f32 => "f32" | f64 => "f64"
  | pred => "pred"

def all : List DataType :=
  [s8, s16, s32, s64, u8, u16, u32, u64, b8, b16, b32, b64, f16, f32, f64, pred]

/-- The type of a given name. -/
def ofName? (text : String) : Option DataType := all.find? (·.name == text)

theorem mem_all (t : DataType) : t ∈ all := by cases t <;> decide

theorem ofName?_name (t : DataType) : ofName? t.name = some t := by cases t <;> decide

theorem name_of_ofName? {text : String} {t : DataType} (h : ofName? text = some t) :
    t.name = text := by
  simpa using List.find?_some h

/-- Whether values of the type are predicates. -/
def isPredicate (t : DataType) : Bool := t == pred

end DataType

end KernelListing
