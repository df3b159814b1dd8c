import KernelListing.Proofs.Text.Code
import KernelListing.Proofs.Text.Literal
import KernelListing.Text.LabelName

/-!
# Token characters

Registers, integers, names of labels and names of operations are written in few characters. None
of these separates anything, so that a text of them is a token wherever it stands.
-/

namespace KernelListing.Text

/-- A character of a register, an integer, a label or an operation. -/
def isTokenChar (c : Char) : Bool := c.isAlphanum || c ∈ ['%', '_', '$', '.', '+', '-', '@', '!']

section tokenChar

variable {c : Char}

theorem ne_of_isTokenChar (h : isTokenChar c = true) {d : Char} (hd : isTokenChar d = false) :
    c ≠ d := by
  intro heq
  rw [heq, hd] at h
  cases h

theorem isPlain_of_isTokenChar (h : isTokenChar c = true) : isPlain c = true :=
  isPlain_iff.2 ⟨ne_of_isTokenChar h (by decide), ne_of_isTokenChar h (by decide),
    ne_of_isTokenChar h (by decide), ne_of_isTokenChar h (by decide)⟩

theorem toNat_lt_of_isTokenChar (h : isTokenChar c = true) : c.toNat < 128 := by
  have hle : ∀ d : Char, c.val ≤ d.val → c.toNat ≤ d.toNat := fun d h => h
  have hclass : (((c.isUpper || c.isLower) || c.isDigit) ||
      decide (c ∈ ['%', '_', '$', '.', '+', '-', '@', '!'])) = true := h
  simp only [List.mem_cons, List.not_mem_nil, or_false, Bool.or_eq_true, decide_eq_true_eq] at hclass
  rcases hclass with ((h | h) | h) | h
  · have hupper : 'A'.val ≤ c.val ∧ c.val ≤ 'Z'.val := of_decide_eq_true h
    exact Nat.lt_of_le_of_lt (hle 'Z' hupper.2) (by decide)
  · have hlower := of_decide_eq_true (Bool.and_eq_true_iff.1 h).2
    exact Nat.lt_of_le_of_lt (hle 'z' hlower) (by decide)
  · have hdigit := of_decide_eq_true (Bool.and_eq_true_iff.1 h).2
    exact Nat.lt_of_le_of_lt (hle '9' hdigit) (by decide)
  · rcases h with rfl | rfl | rfl | rfl | rfl | rfl | rfl | rfl <;> decide

theorem not_isBlank_of_isTokenChar (h : isTokenChar c = true) : isBlank c = false := by
  have hall : ∀ n < 128, isTokenChar (Char.ofNat n) = true → isBlank (Char.ofNat n) = false := by
    decide +kernel
  rw [← Char.ofNat_toNat c] at h ⊢
  exact hall c.toNat (toNat_lt_of_isTokenChar (by rwa [Char.ofNat_toNat] at h)) h

theorem isTokenChar_of_isDigit (h : c.isDigit = true) : isTokenChar c = true := by
  simp [isTokenChar, Char.isAlphanum, h]

theorem isTokenChar_of_isLabelChar (h : isLabelChar c = true) : isTokenChar c = true := by
  simp only [isLabelChar, Bool.or_eq_true, beq_iff_eq] at h
  rcases h with ((h | rfl) | rfl) | rfl
  · simp [isTokenChar, h]
  · decide
  · decide
  · decide

end tokenChar

def IsToken (cs : List Char) : Prop := ∀ c ∈ cs, isTokenChar c = true

instance : DecidablePred IsToken := fun cs =>
  inferInstanceAs (Decidable (∀ c ∈ cs, isTokenChar c = true))

namespace IsToken

variable {cs : List Char}

theorem cons {c : Char} (hc : isTokenChar c = true) (h : IsToken cs) : IsToken (c :: cs) :=
  List.forall_mem_cons.2 ⟨hc, h⟩

theorem trimmed (h : IsToken cs) : Trimmed cs :=
  trimmed_of_forall fun c hc => not_isBlank_of_isTokenChar (h c hc)

theorem isCode (h : IsToken cs) : IsCode cs :=
  isCode_of_forall fun c hc => isPlain_of_isTokenChar (h c hc)

theorem ne (h : IsToken cs) {d : Char} (hd : isTokenChar d = false) : ∀ c ∈ cs, (c == d) = false :=
  fun c hc => beq_eq_false_iff_ne.2 (ne_of_isTokenChar (h c hc) hd)

theorem not_mem (h : IsToken cs) {d : Char} (hd : isTokenChar d = false) : d ∉ cs :=
  fun hmem => ne_of_isTokenChar (h d hmem) hd rfl

theorem isChain_open (h : IsToken cs) : cs.IsChain Open := by
  induction cs with
  | nil => exact List.isChain_nil
  | cons c cs ih =>
    obtain ⟨hc, hcs⟩ := List.forall_mem_cons.1 h
    exact List.isChain_cons.2
      ⟨fun c' _ hopen => ne_of_isTokenChar hc (by decide) hopen.1, ih hcs⟩

end IsToken

theorem isToken_toDigits (n : Nat) : IsToken (Nat.toDigits 10 n) :=
  fun _ hc => isTokenChar_of_isDigit (isDigit_of_mem_toDigits hc)

theorem isToken_toString_nat (n : Nat) : IsToken (toString n).toList := by
  rw [Nat.toString_eq_repr, Nat.toList_repr]
  exact isToken_toDigits n

theorem isToken_toString_int (n : Int) : IsToken (toString n).toList := by
  rw [Int.toString_eq_repr, Int.repr_eq_if]
  split
  · rw [Nat.toList_repr]
    exact isToken_toDigits _
  · rw [String.toList_append, Nat.toList_repr]
    exact .cons (by decide) (isToken_toDigits _)

theorem toList_toString_of_neg {n : Int} (h : n < 0) :
    (toString n).toList = '-' :: Nat.toDigits 10 (-n).toNat := by
  rw [Int.toString_eq_repr, Int.repr_eq_if, if_neg (by omega), String.toList_append,
    Nat.toList_repr]
  rfl

theorem exists_toString_int (n : Int) :
    ∃ c cs, (toString n).toList = c :: cs ∧ (c.isDigit || c == '-') = true := by
  by_cases h : n < 0
  · exact ⟨'-', _, toList_toString_of_neg h, rfl⟩
  · rw [Int.toString_eq_repr, Int.repr_eq_if, if_pos (by omega), Nat.toList_repr]
    obtain ⟨c, cs, hcs⟩ := List.exists_cons_of_ne_nil (show Nat.toDigits 10 n.toNat ≠ [] by simp)
    refine ⟨c, cs, hcs, ?_⟩
    rw [isDigit_of_mem_toDigits (hcs ▸ List.mem_cons_self ..), Bool.true_or]

theorem isToken_of_isLabelName {cs : List Char} (h : isLabelName cs = true) : IsToken cs := by
  simp only [isLabelName, Bool.and_eq_true, List.all_eq_true] at h
  exact fun c hc => isTokenChar_of_isLabelChar (h.2 c hc)

/-! ## Texts that name no label -/

theorem not_isLabelName_trim_cons {c : Char} (hblank : isBlank c = false)
    (hlabel : isLabelChar c = false ∨ c = '.') (cs : List Char) :
    isLabelName (trim (c :: cs)) = false := by
  rw [Bool.eq_false_iff]
  intro hname
  obtain ⟨hlist, hall⟩ := Bool.and_eq_true_iff.1 hname
  have hdot : (trim (c :: cs)).head? ≠ some '.' := by
    simpa using (Bool.and_eq_true_iff.1 hlist).2
  have hhead := head?_trim_cons hblank cs
  rcases hlabel with hlabel | rfl
  · rw [List.all_eq_true.1 hall c (List.mem_of_head? hhead)] at hlabel
    cases hlabel
  · exact hdot hhead

/-- A blank between other characters stays when a text is trimmed. -/
theorem not_isLabelName_trim {token : List Char} (htoken : ∀ c ∈ token, isBlank c = false)
    (hne : token ≠ []) {c : Char} (hc : isBlank c = false) (cs : List Char) :
    isLabelName (trim (token ++ ' ' :: c :: cs)) = false := by
  rw [Bool.eq_false_iff]
  intro hlabel
  have hnoblank : ∀ d ∈ trim (token ++ ' ' :: c :: cs), isBlank d = false := fun d hd =>
    not_isBlank_of_isTokenChar (isToken_of_isLabelName hlabel d hd)
  obtain ⟨-, front, back, htext, hfront, hback⟩ := trim_spec (token ++ ' ' :: c :: cs)
  obtain ⟨first, rest, rfl⟩ := List.exists_cons_of_ne_nil hne
  generalize trim (first :: rest ++ ' ' :: c :: cs) = word at hnoblank htext
  have hnil : front = [] := by
    cases front with
    | nil => rfl
    | cons b front =>
      have hfirst := htoken first (List.mem_cons_self ..)
      rw [(List.cons.inj htext).1, hfront b (List.mem_cons_self ..)] at hfirst
      cases hfirst
  -- Behind the first word stand only blanks, and all the rest of the text.
  have hdrop := congrArg (List.dropWhile (! isBlank ·)) htext
  rw [hnil, List.nil_append, List.dropWhile_append_of_pos fun d hd => by simp [htoken d hd],
    List.dropWhile_append_of_pos fun d hd => by simp [hnoblank d hd],
    List.dropWhile_cons_of_neg (by decide)] at hdrop
  have hmem : c ∈ back.dropWhile (! isBlank ·) := by
    rw [← hdrop]
    simp
  rw [hback c ((List.dropWhile_suffix _).subset hmem)] at hc
  cases hc

end KernelListing.Text
