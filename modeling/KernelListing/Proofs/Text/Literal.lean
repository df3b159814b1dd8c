import KernelListing.Text.IntegerLiteral

/-!
# Writing and reading integers

An integer that is written in decimal is read back, unless its digits alone do not fit sixty-four
bits. Whatever is read as an integer is made of few characters.
-/

namespace KernelListing.Text

theorem digitValue?_of_isDigit {c : Char} (h : c.isDigit = true) :
    digitValue? c = some (c.toNat - '0'.toNat) := by
  rw [digitValue?, if_pos h]

theorem digitsValue?_of_isDigit {cs : List Char} (h : ∀ c ∈ cs, c.isDigit = true) (value : Nat) :
    digitsValue? 10 value cs = some (Nat.ofDigitChars 10 cs value) := by
  induction cs generalizing value with
  | nil => rw [digitsValue?, Nat.ofDigitChars_nil]
  | cons c cs ih =>
    obtain ⟨hc, hcs⟩ := List.forall_mem_cons.1 h
    have hlt : c.toNat - '0'.toNat < 10 := by
      simp only [Char.isDigit, Bool.and_eq_true, decide_eq_true_eq] at hc
      have hle : c.toNat ≤ '9'.toNat := hc.2
      have hzero : '0'.toNat = 48 := rfl
      have hnine : '9'.toNat = 57 := rfl
      omega
    rw [digitsValue?, digitValue?_of_isDigit hc, Nat.ofDigitChars_cons]
    simp only [hlt, if_true]
    exact ih hcs _

theorem isDigit_of_mem_toDigits {n : Nat} {c : Char} (h : c ∈ Nat.toDigits 10 n) :
    c.isDigit = true :=
  Nat.isDigit_of_mem_toDigits (by decide) (by decide) h

theorem natural?_toDigits (n : Nat) : natural? 10 (Nat.toDigits 10 n) = some n := by
  have hne : (Nat.toDigits 10 n).isEmpty = false := by simp
  rw [natural?, hne, digitsValue?_of_isDigit fun c hc => isDigit_of_mem_toDigits hc,
    Nat.ofDigitChars_ten_toDigits]
  rfl

theorem signed?_toDigits (n : Nat) : signed? 10 (Nat.toDigits 10 n) = some (Int.ofNat n) := by
  have hdigit := fun c => isDigit_of_mem_toDigits (n := n) (c := c)
  unfold signed?
  split
  · next heq =>
    have hplus := hdigit '+' (heq ▸ List.mem_cons_self ..)
    exact absurd hplus (by decide)
  · next heq =>
    have hminus := hdigit '-' (heq ▸ List.mem_cons_self ..)
    exact absurd hminus (by decide)
  · rw [natural?_toDigits, Option.map_some]

theorem magnitude?_toDigits {n : Nat} (h : Int.ofNat n ≤ Int64.maxValue.toInt) :
    magnitude? (Nat.toDigits 10 n) = some (Int64.ofInt n) := by
  have hdigit := fun c => isDigit_of_mem_toDigits (n := n) (c := c)
  unfold magnitude?
  split
  · next heq =>
    have hmark := hdigit 'x' (heq ▸ by simp)
    exact absurd hmark (by decide)
  · next heq =>
    have hmark := hdigit 'X' (heq ▸ by simp)
    exact absurd hmark (by decide)
  · have hmin : Int64.minValue.toInt ≤ 0 := by decide
    rw [signed?_toDigits, Option.bind_some, toWord?,
      if_pos ⟨Int.le_trans hmin (Int.natCast_nonneg n), h⟩]
    rfl

theorem integer?_toString {n : Int} (h : Int64.minValue.toInt < n)
    (h' : n ≤ Int64.maxValue.toInt) :
    integer? (toString n).toList = some (Int64.ofInt n) := by
  have hmin : Int64.minValue.toInt = -Int64.maxValue.toInt - 1 := by decide
  rw [Int.toString_eq_repr, Int.repr_eq_if]
  split
  · next hnonneg =>
    obtain ⟨k, rfl⟩ := Int.eq_ofNat_of_zero_le hnonneg
    rw [Int.toNat_natCast, Nat.toList_repr, integer?]
    · exact magnitude?_toDigits h'
    · intro cs heq
      have hminus := isDigit_of_mem_toDigits (n := k) (c := '-') (heq ▸ List.mem_cons_self ..)
      exact absurd hminus (by decide)
  · next hneg =>
    obtain ⟨k, hk⟩ := Int.eq_ofNat_of_zero_le (show 0 ≤ -n by omega)
    obtain rfl : n = -(k : Int) := by omega
    rw [Int.neg_neg, Int.toNat_natCast, String.toList_append, Nat.toList_repr]
    show (magnitude? (Nat.toDigits 10 k)).map (- ·) = _
    rw [magnitude?_toDigits (by simp only [Int.ofNat_eq_natCast]; omega), Option.map_some,
      Int64.ofInt_neg]

/-- A word is read back from its decimal text, unless it is the least one. -/
theorem integer?_toString_toInt {v : Int64} (h : v ≠ Int64.minValue) :
    integer? (toString v.toInt).toList = some v := by
  have hne : v.toInt ≠ Int64.minValue.toInt := fun heq => h (Int64.toInt_inj.1 heq)
  have hle := v.minValue_le_toInt
  rw [integer?_toString (by omega) v.toInt_le, Int64.ofInt_toInt]

/-- The characters of an integer literal. -/
def isLiteralChar (c : Char) : Bool := (digitValue? c).isSome || c ∈ ['x', 'X', '+', '-']

theorem isLiteralChar_of_digitsValue? {base value n : Nat} {cs : List Char}
    (h : digitsValue? base value cs = some n) : ∀ c ∈ cs, isLiteralChar c = true := by
  induction cs generalizing value with
  | nil => exact fun c hc => absurd hc List.not_mem_nil
  | cons c cs ih =>
    rw [digitsValue?] at h
    cases hdigit : digitValue? c with
    | none =>
      rw [hdigit] at h
      cases h
    | some digit =>
      simp only [hdigit] at h
      split at h
      · exact List.forall_mem_cons.2 ⟨by simp [isLiteralChar, hdigit], ih h⟩
      · cases h

theorem isLiteralChar_of_natural? {base n : Nat} {cs : List Char}
    (h : natural? base cs = some n) : ∀ c ∈ cs, isLiteralChar c = true := by
  unfold natural? at h
  split at h
  · cases h
  · exact isLiteralChar_of_digitsValue? h

theorem isLiteralChar_of_signed? {base : Nat} {n : Int} {cs : List Char}
    (h : signed? base cs = some n) : ∀ c ∈ cs, isLiteralChar c = true := by
  unfold signed? at h
  split at h
  · obtain ⟨k, hk, -⟩ := Option.map_eq_some_iff.1 h
    exact List.forall_mem_cons.2 ⟨by decide, isLiteralChar_of_natural? hk⟩
  · obtain ⟨k, hk, -⟩ := Option.map_eq_some_iff.1 h
    exact List.forall_mem_cons.2 ⟨by decide, isLiteralChar_of_natural? hk⟩
  · obtain ⟨k, hk, -⟩ := Option.map_eq_some_iff.1 h
    exact isLiteralChar_of_natural? hk

theorem isLiteralChar_of_magnitude? {n : Int64} {cs : List Char}
    (h : magnitude? cs = some n) : ∀ c ∈ cs, isLiteralChar c = true := by
  unfold magnitude? at h
  split at h
  · obtain ⟨k, hk, -⟩ := Option.bind_eq_some_iff.1 h
    simpa [List.forall_mem_cons] using ⟨by decide, by decide, isLiteralChar_of_signed? hk⟩
  · obtain ⟨k, hk, -⟩ := Option.bind_eq_some_iff.1 h
    simpa [List.forall_mem_cons] using ⟨by decide, by decide, isLiteralChar_of_signed? hk⟩
  · obtain ⟨k, hk, -⟩ := Option.bind_eq_some_iff.1 h
    exact isLiteralChar_of_signed? hk

theorem isLiteralChar_of_integer? {n : Int64} {cs : List Char}
    (h : integer? cs = some n) : ∀ c ∈ cs, isLiteralChar c = true := by
  unfold integer? at h
  split at h
  · obtain ⟨k, hk, -⟩ := Option.map_eq_some_iff.1 h
    exact List.forall_mem_cons.2 ⟨by decide, isLiteralChar_of_magnitude? hk⟩
  · exact isLiteralChar_of_magnitude? h

end KernelListing.Text
