import Mathlib.Data.List.Forall2
import Mathlib.Data.Nat.Digits.Defs
import KernelListing.Proofs.Text.Literal

/-!
# The grammar of integer literals

What a literal looks like and which integer it denotes, apart from any reader: a `Numeral` is a run
of digits, `Marked` puts the mark of its base in front of it, and a `Literal` may have a minus sign
in front of both. The reader takes more than this, for the digits may have a sign of their own
(`Oversigned`), and less, for the digits alone have to fit a word (`integer?_eq_some_iff`).
-/

namespace KernelListing.Text

/-- The digits, each in the place of its value. -/
def digitChars : List Char := "0123456789abcdef".toList

/-- A character is a digit of a value. Letters count alike in either case. -/
def IsDigitOf (c : Char) (digit : Nat) : Prop := digitChars[digit]? = some c.toLower

instance (c : Char) (digit : Nat) : Decidable (IsDigitOf c digit) :=
  inferInstanceAs (Decidable (digitChars[digit]? = some c.toLower))

/-- A run of digits in a base and the number it denotes. -/
inductive Numeral (base : Nat) : List Char → Int → Prop where
  | intro {cs : List Char} {digits : List Nat} (hne : cs ≠ [])
    (h : List.Forall₂ IsDigitOf cs digits) (hlt : ∀ digit ∈ digits, digit < base) :
    Numeral base cs (Nat.ofDigits base digits.reverse : Nat)

/-- Digits behind a sign of their own. -/
inductive Resigned (base : Nat) : List Char → Int → Prop where
  | plus {cs : List Char} {n : Int} (h : Numeral base cs n) : Resigned base ('+' :: cs) n
  | minus {cs : List Char} {n : Int} (h : Numeral base cs n) : Resigned base ('-' :: cs) (-n)

/-- Digits of some form behind the mark of their base. Decimal digits have none. -/
inductive Marked (Digits : Nat → List Char → Int → Prop) : List Char → Int → Prop where
  | decimal {cs : List Char} {n : Int} (h : Digits 10 cs n) : Marked Digits cs n
  | hexadecimal {cs : List Char} {n : Int} {x : Char} (hx : x = 'x' ∨ x = 'X')
    (h : Digits 16 cs n) : Marked Digits ('0' :: x :: cs) n

/-- An integer literal and the integer it denotes. -/
inductive Literal : List Char → Int → Prop where
  | bare {cs : List Char} {n : Int} (h : Marked Numeral cs n) : Literal cs n
  | minus {cs : List Char} {n : Int} (h : Marked Numeral cs n) : Literal ('-' :: cs) (-n)

/-- A literal with a sign too many, directly in front of its digits, and the word that is made of
it. The digits with their own sign fit a word, which the outer sign negates. -/
inductive Oversigned : List Char → Int64 → Prop where
  | bare {cs : List Char} {v : Int64} (hhead : cs.head? ≠ some '-')
    (h : Marked Resigned cs v.toInt) : Oversigned cs v
  | minus {cs : List Char} {v : Int64} (h : Marked Resigned cs v.toInt) :
    Oversigned ('-' :: cs) (-v)

/-! ## Digits -/

theorem toNat_lt_of_toLower {c : Char} (h : c.toLower.toNat < 128) : c.toNat < 128 := by
  unfold Char.toLower at h
  split at h
  · next hupper => exact Nat.lt_of_le_of_lt hupper.2 (by decide)
  · exact h

theorem lt_of_digitValue? {c : Char} {digit : Nat} (h : digitValue? c = some digit) :
    c.toNat < 128 ∧ digit < 16 := by
  have hle : ∀ d : Char, c ≤ d → c.toNat ≤ d.toNat := fun d h => h
  unfold digitValue? at h
  split at h
  · next hdigit =>
    have hnine := hle '9' (of_decide_eq_true (Bool.and_eq_true_iff.1 hdigit).2)
    have hvalue : '9'.toNat = 57 ∧ '0'.toNat = 48 := ⟨rfl, rfl⟩
    cases h
    omega
  · split at h
    · next hlower =>
      have hf := hle 'f' hlower.2
      have hvalue : 'f'.toNat = 102 ∧ 'a'.toNat = 97 := ⟨rfl, rfl⟩
      cases h
      omega
    · split at h
      · next hupper =>
        have hf := hle 'F' hupper.2
        have hvalue : 'F'.toNat = 70 ∧ 'A'.toNat = 65 := ⟨rfl, rfl⟩
        cases h
        omega
      · cases h

theorem lt_of_isDigitOf {c : Char} {digit : Nat} (h : IsDigitOf c digit) :
    c.toNat < 128 ∧ digit < 16 := by
  have hascii : digitChars.all (·.toNat < 128) = true := by decide
  have hlower := List.all_eq_true.1 hascii _ (List.mem_of_getElem? h)
  exact ⟨toNat_lt_of_toLower (of_decide_eq_true hlower), (List.getElem?_eq_some_iff.1 h).1⟩

theorem digitValue?_eq_some_iff {c : Char} {digit : Nat} :
    digitValue? c = some digit ↔ IsDigitOf c digit := by
  have hall : ∀ n < 128, ∀ digit < 16,
      digitValue? (Char.ofNat n) = some digit ↔ IsDigitOf (Char.ofNat n) digit := by
    decide +kernel
  have hascii : c.toNat < 128 → digit < 16 → (digitValue? c = some digit ↔ IsDigitOf c digit) := by
    intro hc hdigit
    have h := hall c.toNat hc digit hdigit
    rwa [Char.ofNat_toNat] at h
  constructor
  · intro h
    exact (hascii (lt_of_digitValue? h).1 (lt_of_digitValue? h).2).1 h
  · intro h
    exact (hascii (lt_of_isDigitOf h).1 (lt_of_isDigitOf h).2).2 h

theorem digitsValue?_eq_some_iff {base value n : Nat} {cs : List Char} :
    digitsValue? base value cs = some n ↔ ∃ digits, List.Forall₂ IsDigitOf cs digits ∧
      (∀ digit ∈ digits, digit < base) ∧
        n = Nat.ofDigits base digits.reverse + base ^ digits.length * value := by
  induction cs generalizing value with
  | nil =>
    rw [digitsValue?, Option.some.injEq]
    constructor
    · rintro rfl
      exact ⟨[], .nil, List.forall_mem_nil _, by simp⟩
    · rintro ⟨_, ⟨⟩, -, rfl⟩
      simp
  | cons c cs ih =>
    -- What has been read so far is worth one more power of the base for each digit behind it.
    have hstep : ∀ (digit : Nat) (digits : List Nat),
        Nat.ofDigits base digits.reverse + base ^ digits.length * (base * value + digit) =
          Nat.ofDigits base (digit :: digits).reverse +
            base ^ (digit :: digits).length * value := by
      intro digit digits
      rw [List.reverse_cons, Nat.ofDigits_append, Nat.ofDigits_singleton, List.length_reverse,
        List.length_cons]
      ring
    rw [digitsValue?]
    constructor
    · intro h
      split at h
      · next digit hdigit =>
        split at h
        · next hlt =>
          obtain ⟨digits, hdigits, hall, rfl⟩ := ih.1 h
          exact ⟨digit :: digits, .cons (digitValue?_eq_some_iff.1 hdigit) hdigits,
            List.forall_mem_cons.2 ⟨hlt, hall⟩, hstep digit digits⟩
        · cases h
      · cases h
    · rintro ⟨_, _ | ⟨hdigit, hdigits⟩, hall, rfl⟩
      obtain ⟨hlt, hall⟩ := List.forall_mem_cons.1 hall
      rw [digitValue?_eq_some_iff.2 hdigit]
      dsimp only
      rw [if_pos hlt]
      exact ih.2 ⟨_, hdigits, hall, (hstep _ _).symm⟩

theorem natural?_eq_some_iff {base : Nat} {cs : List Char} {n : Int} :
    (natural? base cs).map Int.ofNat = some n ↔ Numeral base cs n := by
  unfold natural?
  constructor
  · intro h
    split at h
    · cases h
    · next hempty =>
      obtain ⟨k, hk, rfl⟩ := Option.map_eq_some_iff.1 h
      obtain ⟨digits, hdigits, hlt, rfl⟩ := digitsValue?_eq_some_iff.1 hk
      exact .intro (by simpa using hempty) hdigits hlt
  · rintro ⟨hne, hdigits, hlt⟩
    rw [if_neg (by simpa using hne), digitsValue?_eq_some_iff.2 ⟨_, hdigits, hlt, rfl⟩]
    rfl

namespace Numeral

variable {base : Nat} {cs : List Char} {n : Int}

theorem nonneg (h : Numeral base cs n) : 0 ≤ n := by
  cases h
  exact Int.natCast_nonneg _

theorem mem_digitChars (h : Numeral base cs n) : ∀ c ∈ cs, c.toLower ∈ digitChars := by
  obtain ⟨-, hdigits, -⟩ := h
  exact ((List.forall₂_and_left _ _).1
    (hdigits.imp fun c digit hdigit => ⟨List.mem_of_getElem? hdigit, hdigit⟩)).1

end Numeral

/-! ## Signs and marks -/

theorem signed?_eq_some_iff {base : Nat} {cs : List Char} {n : Int} :
    signed? base cs = some n ↔ Numeral base cs n ∨ Resigned base cs n := by
  -- The digits are read before the sign is put on.
  have hneg : ∀ cs : List Char, (natural? base cs).map (fun k => - Int.ofNat k) = some n ↔
      Numeral base cs (-n) := by
    intro cs
    rw [← natural?_eq_some_iff]
    cases natural? base cs with
    | none => simp
    | some k =>
      simp only [Option.map_some, Option.some.injEq]
      omega
  unfold signed?
  split
  · next cs =>
    rw [natural?_eq_some_iff]
    constructor
    · exact fun h => .inr (.plus h)
    · rintro (h | h)
      · exact absurd (h.mem_digitChars '+' (List.mem_cons_self ..)) (by decide)
      · cases h with
        | plus h => exact h
  · next cs =>
    rw [hneg]
    constructor
    · intro h
      have hminus := Resigned.minus h
      rw [Int.neg_neg] at hminus
      exact .inr hminus
    · rintro (h | h)
      · exact absurd (h.mem_digitChars '-' (List.mem_cons_self ..)) (by decide)
      · cases h with
        | minus h => rwa [Int.neg_neg]
  · next hplus hminus =>
    rw [natural?_eq_some_iff]
    refine (or_iff_left ?_).symm
    rintro (h | h)
    · exact hplus _ rfl
    · exact hminus _ rfl

theorem toWord?_eq_some_iff {n : Int} {v : Int64} : toWord? n = some v ↔ n = v.toInt := by
  have hmin : Int64.minValue.toInt = -2 ^ 63 := by decide
  have hmax : Int64.maxValue.toInt = 2 ^ 63 - 1 := by decide
  unfold toWord?
  constructor
  · intro h
    split at h
    · next hrange =>
      cases h
      rw [Int64.toInt_ofInt_of_le (by omega) (by omega)]
    · cases h
  · rintro rfl
    have hle := v.le_toInt
    have hlt := v.toInt_lt
    rw [if_pos (by omega), Int64.ofInt_toInt]

section marked

variable {Digits : Nat → List Char → Int → Prop} {cs : List Char} {n : Int}

/-- What starts with a mark is not decimal. -/
theorem marked_hexadecimal_iff {x : Char} (hx : x = 'x' ∨ x = 'X')
    (hdecimal : ¬ Digits 10 ('0' :: x :: cs) n) :
    Marked Digits ('0' :: x :: cs) n ↔ Digits 16 cs n := by
  constructor
  · intro h
    cases h with
    | decimal h => exact absurd h hdecimal
    | hexadecimal _ h => exact h
  · exact .hexadecimal hx

theorem marked_decimal_iff (hmark : ∀ x cs', x = 'x' ∨ x = 'X' → cs ≠ '0' :: x :: cs') :
    Marked Digits cs n ↔ Digits 10 cs n := by
  constructor
  · intro h
    cases h with
    | decimal h => exact h
    | hexadecimal hx _ => exact absurd rfl (hmark _ _ hx)
  · exact .decimal

end marked

theorem magnitude?_eq_some_iff {cs : List Char} {v : Int64} : magnitude? cs = some v ↔
    Marked Numeral cs v.toInt ∨ Marked Resigned cs v.toInt := by
  have hword : ∀ base (cs : List Char), (signed? base cs).bind toWord? = some v ↔
      Numeral base cs v.toInt ∨ Resigned base cs v.toInt := by
    intro base cs
    rw [Option.bind_eq_some_iff, ← signed?_eq_some_iff]
    constructor
    · rintro ⟨n, hn, hv⟩
      rwa [← toWord?_eq_some_iff.1 hv]
    · exact fun h => ⟨v.toInt, h, toWord?_eq_some_iff.2 rfl⟩
  have hmarked : ∀ {x : Char}, x = 'x' ∨ x = 'X' → ∀ cs : List Char,
      ((signed? 16 cs).bind toWord? = some v ↔
        Marked Numeral ('0' :: x :: cs) v.toInt ∨ Marked Resigned ('0' :: x :: cs) v.toInt) := by
    intro x hx cs
    -- A mark is neither digit nor sign, so `0x` and `0X` are never read as decimal.
    rw [hword, marked_hexadecimal_iff hx, marked_hexadecimal_iff hx]
    · rintro ⟨⟩
    · intro h
      have hmem := h.mem_digitChars x (by simp)
      rcases hx with rfl | rfl <;> exact absurd hmem (by decide)
  unfold magnitude?
  split
  · exact hmarked (.inl rfl) _
  · exact hmarked (.inr rfl) _
  · next hlower hupper =>
    have hmark : ∀ x cs', x = 'x' ∨ x = 'X' → cs ≠ '0' :: x :: cs' := by
      rintro x cs' (rfl | rfl) rfl
      · exact hlower cs' rfl
      · exact hupper cs' rfl
    rw [hword, marked_decimal_iff hmark, marked_decimal_iff hmark]

theorem Marked.not_minus {cs : List Char} {n : Int} : ¬ Marked Numeral ('-' :: cs) n := by
  intro h
  cases h with
  | decimal h => exact absurd (h.mem_digitChars '-' (List.mem_cons_self ..)) (by decide)

theorem Marked.nonneg {cs : List Char} {n : Int} (h : Marked Numeral cs n) : 0 ≤ n := by
  cases h with
  | decimal h => exact h.nonneg
  | hexadecimal _ h => exact h.nonneg

theorem literal_cons_minus_iff {cs : List Char} {n : Int} :
    Literal ('-' :: cs) n ↔ Marked Numeral cs (-n) := by
  constructor
  · intro h
    cases h with
    | bare h => exact absurd h Marked.not_minus
    | minus h => rwa [Int.neg_neg]
  · intro h
    have hminus := Literal.minus h
    rwa [Int.neg_neg] at hminus

theorem literal_iff_of_head? {cs : List Char} (hhead : cs.head? ≠ some '-') {n : Int} :
    Literal cs n ↔ Marked Numeral cs n := by
  constructor
  · intro h
    cases h with
    | bare h => exact h
    | minus _ => exact absurd rfl hhead
  · exact .bare

theorem toInt_neg_of_ne {v : Int64} (h : v ≠ Int64.minValue) : (-v).toInt = -v.toInt := by
  have hle := v.le_toInt
  have hlt := v.toInt_lt
  have hne : v.toInt ≠ -2 ^ 63 := fun heq => h (Int64.toInt_inj.1 heq)
  rw [Int64.toInt_neg, Int.bmod_eq_of_le (by omega) (by omega)]

/-- An integer is read from a literal, unless it is the least one, and from a literal with a sign too
many. -/
theorem integer?_eq_some_iff {cs : List Char} {v : Int64} : integer? cs = some v ↔
    Literal cs v.toInt ∧ v ≠ Int64.minValue ∨ Oversigned cs v := by
  have hmin : Int64.minValue.toInt = -2 ^ 63 := by decide
  -- A magnitude is not negative, so it is never the one number without a negation.
  have hne : ∀ {w : Int64}, 0 ≤ w.toInt → w ≠ Int64.minValue := by
    rintro w hw rfl
    omega
  unfold integer?
  split
  · next cs =>
    rw [literal_cons_minus_iff, Option.map_eq_some_iff]
    constructor
    · rintro ⟨w, hw, rfl⟩
      rcases magnitude?_eq_some_iff.1 hw with h | h
      · have hneg := toInt_neg_of_ne (hne h.nonneg)
        refine .inl ⟨by rwa [hneg, Int.neg_neg], fun heq => ?_⟩
        have hlt := w.toInt_lt
        rw [heq] at hneg
        omega
      · exact .inr (.minus h)
    · rintro (⟨h, hv⟩ | h)
      · rw [← toInt_neg_of_ne hv] at h
        exact ⟨-v, magnitude?_eq_some_iff.2 (.inl h), Int64.neg_neg⟩
      · cases h with
        | bare hhead _ => exact absurd rfl hhead
        | minus h => exact ⟨_, magnitude?_eq_some_iff.2 (.inr h), rfl⟩
  · next hminus =>
    have hhead : cs.head? ≠ some '-' := fun hhead =>
      (List.head?_eq_some_iff.1 hhead).elim hminus
    rw [literal_iff_of_head? hhead, magnitude?_eq_some_iff]
    constructor
    · rintro (h | h)
      · exact .inl ⟨h, hne h.nonneg⟩
      · exact .inr (.bare hhead h)
    · rintro (⟨h, -⟩ | h)
      · exact .inl h
      · cases h with
        | bare _ h => exact .inr h
        | minus _ => exact absurd rfl (hminus _)

end KernelListing.Text
