/-!
# Terminal controls

A message may quote text that holds characters which a terminal takes as commands: the bell,
the backspace, the form feed, the escape, the delete, and the thirty-two controls from U+0080
on. `escapeControls` writes each of them by its code and leaves all other text alone. The null
character, the tabs and the line ends are not commands in this sense.

`escapeControls_eq_self` says that a text without such characters is its own escaped form, and
`not_isTerminalControl_of_mem_escapeControls` that no escaped form holds one.
-/

namespace KernelListing.Text

/-- Whether a terminal takes a character as a command. -/
def isTerminalControl (c : Char) : Bool :=
  c.toNat ∈ [0x07, 0x08, 0x0C, 0x1B, 0x7F] || (0x80 ≤ c.toNat && c.toNat ≤ 0x9F)

/-- A control by its code in hexadecimal: two digits in the range of ASCII, and behind it as
many as there are, in braces. -/
def controlCode (c : Char) : List Char :=
  if c.toNat < 0x80 then '\\' :: 'x' :: (Nat.toDigits 16 c.toNat).leftpad 2 '0'
  else '\\' :: 'u' :: '{' :: (Nat.toDigits 16 c.toNat ++ ['}'])

/-- A character, or the code of a control. -/
def escapeControl (c : Char) : List Char := if isTerminalControl c then controlCode c else [c]

/-- A text with the codes of its controls in their places. -/
def escapeControls (text : String) : String := String.ofList (text.toList.flatMap escapeControl)

/-- A text without controls is its own escaped form. -/
theorem escapeControls_eq_self {text : String}
    (h : ∀ c ∈ text.toList, isTerminalControl c = false) : escapeControls text = text := by
  have hself : text.toList.flatMap escapeControl = text.toList.flatMap ([·]) := by
    simp only [List.flatMap]
    congr 1
    refine List.map_congr_left fun c hc => ?_
    simp [escapeControl, h c hc]
  rw [escapeControls, hself, List.flatMap_singleton', String.ofList_toList]

/-- The code of a control is written without controls. -/
theorem not_isTerminalControl_of_mem_controlCode {c d : Char} (hc : isTerminalControl c = true)
    (hd : d ∈ controlCode c) : isTerminalControl d = false := by
  have hlt : c.toNat < 0xA0 := by
    simp only [isTerminalControl, List.mem_cons, List.not_mem_nil, or_false, Bool.or_eq_true,
      Bool.and_eq_true, decide_eq_true_eq] at hc
    omega
  have hall : ∀ n < 0xA0, isTerminalControl (Char.ofNat n) = true →
      (controlCode (Char.ofNat n)).all (! isTerminalControl ·) = true := by decide +kernel
  have h := hall c.toNat hlt
  rw [Char.ofNat_toNat] at h
  simpa using List.all_eq_true.1 (h hc) d hd

/-- An escaped form holds no controls. -/
theorem not_isTerminalControl_of_mem_escapeControls {text : String} {d : Char}
    (hd : d ∈ (escapeControls text).toList) : isTerminalControl d = false := by
  rw [escapeControls, String.toList_ofList, List.mem_flatMap] at hd
  obtain ⟨c, -, hd⟩ := hd
  unfold escapeControl at hd
  split at hd
  · next hc => exact not_isTerminalControl_of_mem_controlCode hc hd
  · next hc =>
    rw [List.mem_singleton.1 hd]
    simpa using hc

end KernelListing.Text
