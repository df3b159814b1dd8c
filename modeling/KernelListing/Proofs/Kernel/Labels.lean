import KernelListing.Kernel.Label
import KernelListing.Text.LabelName

/-!
# Generated labels are distinct

A canonical label tells its block, since the digits of the block's id can be read back from the
padded text. A synthetic label is none of those that are in use, and tells its position. Both can
be read as labels.
-/

namespace KernelListing.Label

theorem toString_injective : Function.Injective (toString : Nat → String) := by
  intro a b h
  have hdigits := congrArg (fun s => Nat.ofDigitChars 10 s.toList 0) h
  simpa [Nat.toString_eq_repr] using hdigits

theorem padded_injective (width : Nat) : Function.Injective (padded width) := by
  intro a b h
  -- Zeros in front make no difference to the value of the digits.
  have hvalue : ∀ n, Nat.ofDigitChars 10 (padded width n).toList 0 = n := by
    intro n
    rw [padded, String.toList_ofList, List.leftpad, Nat.ofDigitChars_append,
      Nat.ofDigitChars_replicate_zero, Nat.mul_zero, Nat.ofDigitChars_ten_toDigits]
  rw [← hvalue a, ← hvalue b, h]

theorem canonical_injective (kernelId : Nat) : Function.Injective (canonical kernelId) := by
  intro a b h
  exact padded_injective 4 ((String.append_right_inj _).1 h)

theorem canonical_ne_empty (kernelId blockId : Nat) : canonical kernelId blockId ≠ "" := by
  intro h
  have hnil := congrArg String.toList h
  simp [canonical] at hnil

theorem candidate_injective (base : String) : Function.Injective (candidate base) := by
  intro a b h
  have hlength : ∀ n : Nat, (candidate base (n + 1)).toList ≠ base.toList := by
    intro n hn
    simp [candidate] at hn
  cases a with
  | zero =>
    cases b with
    | zero => rfl
    | succ b => exact absurd (congrArg String.toList h).symm (hlength b)
  | succ a =>
    cases b with
    | zero => exact absurd (congrArg String.toList h) (hlength a)
    | succ b => exact toString_injective ((String.append_right_inj _).1 h)

theorem exists_firstUnused (base : String) (used : List String) (n : Nat) :
    ∃ m, n ≤ m ∧ firstUnused base used n = candidate base m := by
  fun_induction firstUnused base used n with
  | case1 used n _ _ ih =>
    obtain ⟨m, hm, heq⟩ := ih
    exact ⟨m, Nat.le_of_succ_le hm, heq⟩
  | case2 used n => exact ⟨n, Nat.le_refl n, rfl⟩

theorem firstUnused_not_mem (base : String) (used : List String) (n : Nat) :
    firstUnused base used n ∉ used := by
  fun_induction firstUnused base used n with
  | case1 used n _ _ ih =>
    obtain ⟨m, hm, heq⟩ := exists_firstUnused base (used.erase (candidate base n)) (n + 1)
    have hne : firstUnused base (used.erase (candidate base n)) (n + 1) ≠ candidate base n := by
      rw [heq]
      exact (candidate_injective base).ne (Nat.ne_of_gt hm)
    exact fun hin => ih ((List.mem_erase_of_ne hne).2 hin)
  | case2 used n hnot => exact hnot

/-! ## The texts of labels -/

theorem isLabelName_of_forall {cs : List Char} (h : ∀ c ∈ cs, Text.isLabelChar c = true) :
    Text.isLabelName ('$' :: cs) = true := by
  have hall : ('$' :: cs).all Text.isLabelChar = true := by
    rw [List.all_eq_true, List.forall_mem_cons]
    exact ⟨by decide, h⟩
  rw [Text.isLabelName, hall]
  rfl

theorem isLabelChar_of_mem_toDigits {n : Nat} {c : Char} (h : c ∈ Nat.toDigits 10 n) :
    Text.isLabelChar c = true := by
  have hdigit := Nat.isDigit_of_mem_toDigits (by decide) (by decide) h
  simp [Text.isLabelChar, Char.isAlphanum, hdigit]

theorem isLabelName_canonical (kernelId blockId : Nat) :
    Text.isLabelName (canonical kernelId blockId).toList = true := by
  have htext : (canonical kernelId blockId).toList = '$' :: ("BB_".toList ++
      (Nat.toDigits 10 kernelId ++ '_' :: (Nat.toDigits 10 blockId).leftpad 4 '0')) := by
    simp [canonical, padded]
  rw [htext]
  refine isLabelName_of_forall fun c hc => ?_
  simp only [List.mem_append, List.mem_cons, List.leftpad, List.mem_replicate] at hc
  rcases hc with hc | hc | rfl | ⟨-, rfl⟩ | hc
  · exact List.all_eq_true.1 (show "BB_".toList.all Text.isLabelChar = true by decide) c hc
  · exact isLabelChar_of_mem_toDigits hc
  · decide
  · decide
  · exact isLabelChar_of_mem_toDigits hc

/-- A synthetic label is the position, and a counter if the position alone is taken. -/
theorem synthetic_toList (used : List String) (position : Nat) : ∃ tail,
    (synthetic used position).toList = "$__Block_".toList ++ (Nat.toDigits 10 position ++ tail) ∧
      (tail = [] ∨ ∃ n, tail = '_' :: Nat.toDigits 10 n) := by
  obtain ⟨n, -, heq⟩ := exists_firstUnused ("$__Block_" ++ toString position) used 0
  rw [synthetic, heq]
  cases n with
  | zero => exact ⟨[], by simp [candidate], .inl rfl⟩
  | succ n => exact ⟨_, by simp [candidate], .inr ⟨n + 1, rfl⟩⟩

theorem isLabelName_synthetic (used : List String) (position : Nat) :
    Text.isLabelName (synthetic used position).toList = true := by
  obtain ⟨tail, htext, htail⟩ := synthetic_toList used position
  rw [htext]
  refine isLabelName_of_forall fun c hc => ?_
  have hc : c ∈ "__Block_".toList ++ (Nat.toDigits 10 position ++ tail) := hc
  rw [List.mem_append, List.mem_append] at hc
  rcases hc with hc | hc | hc
  · exact List.all_eq_true.1 (show "__Block_".toList.all Text.isLabelChar = true by decide) c hc
  · exact isLabelChar_of_mem_toDigits hc
  · rcases htail with rfl | ⟨n, rfl⟩
    · cases hc
    · rcases List.mem_cons.1 hc with rfl | hc
      · decide
      · exact isLabelChar_of_mem_toDigits hc

theorem synthetic_not_mem (used : List String) (position : Nat) : synthetic used position ∉ used :=
  firstUnused_not_mem _ used 0

/-- The position can be read back from a synthetic label. -/
theorem synthetic_injective (used : List String) : Function.Injective (synthetic used) := by
  have hdigits : ∀ position, ((synthetic used position).toList.drop 9).takeWhile Char.isDigit =
      Nat.toDigits 10 position := by
    intro position
    obtain ⟨tail, htext, htail⟩ := synthetic_toList used position
    have hall : ∀ c ∈ Nat.toDigits 10 position, c.isDigit = true := fun c hc =>
      Nat.isDigit_of_mem_toDigits (by decide) (by decide) hc
    rw [htext, List.drop_left' (by rfl), List.takeWhile_append_of_pos hall]
    rcases htail with rfl | ⟨n, rfl⟩ <;> simp
  intro position position' h
  have hvalue := congrArg (fun l => Nat.ofDigitChars 10 ((l.toList.drop 9).takeWhile Char.isDigit) 0) h
  simpa [hdigits] using hvalue

end KernelListing.Label
