/-!
# Integer literals

An integer is written in decimal, or in hexadecimal behind `0x` or `0X`, with an optional minus
sign in front of it all. The digits may carry one more sign of their own, so `0x-10` and `--5`
are literals too. What stands behind the outer sign has to fit sixty-four bits; the outer sign
negates in sixty-four bits.
-/

namespace KernelListing.Text

/-- The value of a digit, in any base up to sixteen. -/
def digitValue? (c : Char) : Option Nat :=
  if c.isDigit then some (c.toNat - '0'.toNat)
  else if 'a' ≤ c ∧ c ≤ 'f' then some (c.toNat - 'a'.toNat + 10)
  else if 'A' ≤ c ∧ c ≤ 'F' then some (c.toNat - 'A'.toNat + 10)
  else none

/-- The value of a run of digits that continues a number whose value so far is `value`. -/
def digitsValue? (base value : Nat) : List Char → Option Nat
  | [] => some value
  | c :: cs =>
    match digitValue? c with
    | some digit => if digit < base then digitsValue? base (base * value + digit) cs else none
    | none => none

/-- The value of a natural number: at least one digit, and digits only. -/
def natural? (base : Nat) (cs : List Char) : Option Nat :=
  if cs.isEmpty then none else digitsValue? base 0 cs

/-- The value of a natural number behind at most one sign. -/
def signed? (base : Nat) : List Char → Option Int
  | '+' :: cs => (natural? base cs).map Int.ofNat
  | '-' :: cs => (natural? base cs).map fun n => - Int.ofNat n
  | cs => (natural? base cs).map Int.ofNat

/-- A number as a sixty-four bit word, if it fits. -/
def toWord? (n : Int) : Option Int64 :=
  if Int64.minValue.toInt ≤ n ∧ n ≤ Int64.maxValue.toInt then some (Int64.ofInt n) else none

/-- The value of a literal behind its outer sign: the base mark decides the base. -/
def magnitude? : List Char → Option Int64
  | '0' :: 'x' :: cs => (signed? 16 cs).bind toWord?
  | '0' :: 'X' :: cs => (signed? 16 cs).bind toWord?
  | cs => (signed? 10 cs).bind toWord?

/-- The value of an integer literal. -/
def integer? : List Char → Option Int64
  | '-' :: cs => (magnitude? cs).map (- ·)
  | cs => magnitude? cs

end KernelListing.Text
