import Mathlib.Data.List.Chain
import KernelListing.Proofs.Text.Pieces
import KernelListing.Text.Comment

/-!
# Code and comments

What is left of a line without its comments is code: no two characters of it open a comment.
Code is handed on as it is, so that a text whose parts are code can be read back once it has been
written. Most characters are plain: it makes no difference to a text being code where they
stand.
-/

namespace KernelListing.Text

/-- Two characters do not open a comment. -/
def Apart (c c' : Char) : Prop := ¬ (c = '/' ∧ (c' = '/' ∨ c' = '*'))

/-- A text that can be a piece of a line: it has no comments, no line ends and no semicolons. -/
structure IsCode (cs : List Char) : Prop where
  apart : cs.IsChain Apart
  newline : '\n' ∉ cs
  semicolon : ';' ∉ cs

/-- A character that makes no difference to a text being code. -/
def isPlain (c : Char) : Bool := c ∉ ['/', '*', '\n', ';']

section plain

variable {c : Char} {cs cs' : List Char}

theorem isPlain_iff : isPlain c = true ↔ c ≠ '/' ∧ c ≠ '*' ∧ c ≠ '\n' ∧ c ≠ ';' := by
  simp [isPlain]

theorem apart_of_isPlain_left (h : isPlain c = true) (c' : Char) : Apart c c' :=
  fun hopen => (isPlain_iff.1 h).1 hopen.1

theorem apart_of_isPlain_right (h : isPlain c = true) (c' : Char) : Apart c' c := by
  rintro ⟨-, rfl | rfl⟩
  · exact (isPlain_iff.1 h).1 rfl
  · exact (isPlain_iff.1 h).2.1 rfl

theorem IsCode.part (h : IsCode cs) (hpart : cs' <:+: cs) : IsCode cs' := by
  constructor
  · exact List.IsChain.infix h.apart hpart
  · exact fun hmem => h.newline (hpart.subset hmem)
  · exact fun hmem => h.semicolon (hpart.subset hmem)

theorem isCode_nil : IsCode [] := ⟨List.isChain_nil, List.not_mem_nil, List.not_mem_nil⟩

theorem isCode_cons (h : isPlain c = true) : IsCode (c :: cs) ↔ IsCode cs := by
  obtain ⟨-, -, hnewline, hsemicolon⟩ := isPlain_iff.1 h
  constructor
  · exact fun hcode => hcode.part (List.suffix_cons c cs).isInfix
  · intro hcode
    refine ⟨List.isChain_cons.2 ⟨fun c' _ => apart_of_isPlain_left h c', hcode.apart⟩, ?_, ?_⟩
    · simpa [Ne.symm hnewline] using hcode.newline
    · simpa [Ne.symm hsemicolon] using hcode.semicolon

theorem isCode_append_cons (h : isPlain c = true) :
    IsCode (cs ++ c :: cs') ↔ IsCode cs ∧ IsCode cs' := by
  constructor
  · intro hcode
    exact ⟨hcode.part (List.prefix_append ..).isInfix,
      (isCode_cons h).1 (hcode.part (List.suffix_append ..).isInfix)⟩
  · rintro ⟨hcode, hcode'⟩
    have hcons := (isCode_cons h).2 hcode'
    refine ⟨List.isChain_append.2 ⟨hcode.apart, hcons.apart, fun c₁ _ c₂ hc₂ => ?_⟩, ?_, ?_⟩
    · obtain rfl := Option.some.inj hc₂
      exact apart_of_isPlain_right h c₁
    · rw [List.mem_append]
      exact not_or.2 ⟨hcode.newline, hcons.newline⟩
    · rw [List.mem_append]
      exact not_or.2 ⟨hcode.semicolon, hcons.semicolon⟩

theorem isCode_append_left (h : ∀ c ∈ cs, isPlain c = true) : IsCode (cs ++ cs') ↔ IsCode cs' := by
  induction cs with
  | nil => rfl
  | cons c cs ih =>
    obtain ⟨hc, hcs⟩ := List.forall_mem_cons.1 h
    rw [List.cons_append, isCode_cons hc, ih hcs]

theorem isCode_append_right (h : ∀ c ∈ cs', isPlain c = true) :
    IsCode (cs ++ cs') ↔ IsCode cs := by
  cases cs' with
  | nil => rw [List.append_nil]
  | cons c cs' =>
    obtain ⟨hc, hcs'⟩ := List.forall_mem_cons.1 h
    rw [isCode_append_cons hc]
    refine and_iff_left ?_
    rw [← List.append_nil cs', isCode_append_left hcs']
    exact isCode_nil

theorem isCode_of_forall (h : ∀ c ∈ cs, isPlain c = true) : IsCode cs := by
  rw [← List.append_nil cs, isCode_append_left h]
  exact isCode_nil

theorem isCode_intercalate {ts : List (List Char)} (h : ∀ t ∈ ts, IsCode t) :
    IsCode ([',', ' '].intercalate ts) := by
  induction ts with
  | nil => exact isCode_nil
  | cons t ts ih =>
    obtain ⟨ht, hts⟩ := List.forall_mem_cons.1 h
    cases ts with
    | nil =>
      rw [List.intercalate_singleton]
      exact ht
    | cons t' ts =>
      rw [List.intercalate_cons_cons, List.append_assoc, List.cons_append,
        isCode_append_cons (by decide), List.singleton_append, isCode_cons (by decide)]
      exact ⟨ht, ih hts⟩

end plain

/-! ## Taking comments out -/

theorem beforeComment_prefix (cs : List Char) : (beforeComment cs).1 <+: cs := by
  fun_induction beforeComment cs with
  | case1 => exact List.prefix_refl _
  | case2 => exact List.nil_prefix
  | case3 => exact List.nil_prefix
  | case4 c cs _ _ ih => exact List.cons_prefix_cons.2 ⟨rfl, ih⟩

theorem isChain_beforeComment (cs : List Char) : (beforeComment cs).1.IsChain Apart := by
  fun_induction beforeComment cs with
  | case1 => exact List.isChain_nil
  | case2 => exact List.isChain_nil
  | case3 => exact List.isChain_nil
  | case4 c cs hline hblock ih =>
    refine List.isChain_cons.2 ⟨fun c' hc' => ?_, ih⟩
    -- The next character of the code is the next one of the text.
    have hhead : cs.head? = some c' := by
      obtain ⟨rest, hrest⟩ := beforeComment_prefix cs
      rw [← hrest, List.head?_append, hc']
      rfl
    obtain ⟨cs', rfl⟩ := List.head?_eq_some_iff.1 hhead
    rintro ⟨rfl, rfl | rfl⟩
    · exact hline cs' rfl rfl
    · exact hblock cs' rfl rfl

theorem beforeComment_of_isChain {cs : List Char} (h : cs.IsChain Apart) :
    beforeComment cs = (cs, .none) := by
  fun_induction beforeComment cs with
  | case1 => rfl
  | case2 rest => exact absurd ⟨rfl, .inl rfl⟩ (List.isChain_cons_cons.1 h).1
  | case3 rest => exact absurd ⟨rfl, .inr rfl⟩ (List.isChain_cons_cons.1 h).1
  | case4 c cs hline hblock ih => rw [ih (List.isChain_cons.1 h).2]

theorem beforeComment_append_block {cs : List Char} (h : cs.IsChain Apart)
    (hlast : cs.getLast? ≠ some '/') (rest : List Char) :
    beforeComment (cs ++ '/' :: '*' :: rest) = (cs, .block rest) := by
  induction cs with
  | nil => rfl
  | cons c cs ih =>
    obtain ⟨hhead, hcs⟩ := List.isChain_cons.1 h
    have hlast' : cs.getLast? ≠ some '/' := by
      rintro heq
      rw [List.getLast?_cons, heq] at hlast
      exact hlast rfl
    have hstep := ih hcs hlast'
    -- Neither mark begins in front of the one that follows `cs`, not even with the last character.
    rw [List.cons_append, beforeComment, hstep]
    · rintro cs' rfl heq
      cases cs with
      | nil =>
        simp at hlast
      | cons c' cs =>
        obtain rfl : c' = '/' := (List.cons.inj heq).1
        exact hhead _ rfl ⟨rfl, .inl rfl⟩
    · rintro cs' rfl heq
      cases cs with
      | nil =>
        simp at hlast
      | cons c' cs =>
        obtain rfl : c' = '*' := (List.cons.inj heq).1
        exact hhead _ rfl ⟨rfl, .inr rfl⟩

theorem afterComment_suffix {cs rest : List Char} (h : afterComment? cs = some rest) :
    rest <:+ cs := by
  fun_induction afterComment? cs with
  | case1 => cases h
  | case2 r =>
    cases h
    exact ⟨['*', '/'], rfl⟩
  | case3 c cs _ ih => exact (ih h).trans (List.suffix_cons c cs)

theorem block_suffix {cs code rest : List Char} (h : beforeComment cs = (code, .block rest)) :
    rest <:+ cs := by
  fun_induction beforeComment cs generalizing code with
  | case1 => cases h
  | case2 => cases h
  | case3 r =>
    cases h
    exact ⟨['/', '*'], rfl⟩
  | case4 c cs _ _ ih =>
    obtain ⟨-, hopening⟩ := Prod.mk.inj h
    exact (ih (Prod.ext rfl hopening)).trans (List.suffix_cons c cs)

/-- What is left of a line is code, apart from the semicolons that it may have. -/
theorem stripComments_spec (inComment : Bool) (line : List Char) :
    (stripComments inComment line).1.IsChain Apart ∧
      ∀ c ∈ (stripComments inComment line).1, c ∈ line ∨ c = ' ' := by
  -- The text behind a comment is shorter than the line, but not the tail that an induction on the
  -- line gives.
  induction hlength : line.length using Nat.strongRecOn generalizing inComment line with
  | ind length ih =>
    cases inComment with
    | true =>
      cases hafter : afterComment? line with
      | none =>
        rw [stripComments_inside_none hafter]
        exact ⟨List.isChain_nil, fun c hc => absurd hc List.not_mem_nil⟩
      | some rest =>
        have hlt := length_lt_of_afterComment hafter
        obtain ⟨happart, hmem⟩ := ih rest.length (hlength ▸ hlt) false rest rfl
        rw [stripComments_inside_some hafter]
        exact ⟨happart, fun c hc =>
          (hmem c hc).imp_left fun hrest => (afterComment_suffix hafter).subset hrest⟩
    | false =>
      have hchain := isChain_beforeComment line
      have hfront := beforeComment_prefix line
      cases hbefore : beforeComment line with
      | mk code opening =>
        rw [hbefore] at hchain hfront
        have hcode : ∀ c ∈ code, c ∈ line ∨ c = ' ' := fun c hc => .inl (hfront.subset hc)
        cases opening with
        | none =>
          rw [stripComments_none hbefore]
          exact ⟨hchain, hcode⟩
        | toLineEnd =>
          rw [stripComments_toLineEnd hbefore]
          exact ⟨hchain, hcode⟩
        | block rest =>
          have hlt := length_lt_of_block hbefore
          obtain ⟨hrest, hmem⟩ := ih rest.length (hlength ▸ hlt) true rest rfl
          have hplain : isPlain ' ' = true := by decide
          rw [stripComments_block hbefore]
          constructor
          · refine List.isChain_append.2 ⟨hchain, ?_, fun c _ c' hc' => ?_⟩
            · exact List.isChain_cons.2 ⟨fun c' _ => apart_of_isPlain_left hplain c', hrest⟩
            · obtain rfl := Option.some.inj hc'
              exact apart_of_isPlain_right hplain c
          · intro c hc
            rcases List.mem_append.1 hc with hc | hc
            · exact hcode c hc
            · rcases List.mem_cons.1 hc with rfl | hc
              · exact .inr rfl
              · exact (hmem c hc).imp_left fun hc => (block_suffix hbefore).subset hc

theorem stripComments_of_isChain {line : List Char} (h : line.IsChain Apart) :
    stripComments false line = (line, false) :=
  stripComments_none (beforeComment_of_isChain h)

/-! ## Where a comment ends -/

/-- Two characters do not end a comment. -/
def Open (c c' : Char) : Prop := ¬ (c = '*' ∧ c' = '/')

theorem isChain_open_iff {cs : List Char} : cs.IsChain Open ↔ ¬ ['*', '/'] <:+: cs := by
  induction cs with
  | nil => exact iff_of_true List.isChain_nil (by simp)
  | cons c cs ih =>
    rw [List.isChain_cons, ih, List.infix_cons_iff, not_or]
    refine and_congr_left fun _ => ?_
    cases cs with
    | nil => simp
    | cons c' cs =>
      simp only [List.head?_cons, Option.mem_some_iff, forall_eq', Open, List.cons_prefix_cons,
        List.nil_prefix, and_true]
      exact ⟨fun h ⟨h₁, h₂⟩ => h ⟨h₁.symm, h₂.symm⟩, fun h ⟨h₁, h₂⟩ => h ⟨h₁.symm, h₂.symm⟩⟩

theorem afterComment?_of_isChain {cs : List Char} (h : cs.IsChain Open) :
    afterComment? cs = none := by
  fun_induction afterComment? cs with
  | case1 => rfl
  | case2 rest => exact absurd ⟨rfl, rfl⟩ (List.isChain_cons_cons.1 h).1
  | case3 c cs _ ih => exact ih (List.isChain_cons.1 h).2

theorem afterComment?_append {cs : List Char} (h : cs.IsChain Open) (rest : List Char) :
    afterComment? (cs ++ '*' :: '/' :: rest) = some rest := by
  induction cs with
  | nil => rfl
  | cons c cs ih =>
    obtain ⟨hhead, hcs⟩ := List.isChain_cons.1 h
    rw [List.cons_append, afterComment?, ih hcs]
    rintro rest' rfl heq
    cases cs with
    | nil => exact absurd (List.cons.inj heq).1 (by decide)
    | cons c' cs => exact hhead c' rfl ⟨rfl, (List.cons.inj heq).1⟩

end KernelListing.Text
