import Mathlib.Data.List.Infix
import Mathlib.Data.List.Induction
import Mathlib.Data.List.TakeWhile
import KernelListing.Text.Lines

/-!
# Cutting text and putting it together

How `split`, `cutAt` and `trim` act on a text that is put together from parts. A text without
separators is one piece, and a separator ends the pieces in front of it. A text without blanks
at its ends is what `trim` leaves of it, whatever blanks are put around it.
-/

namespace KernelListing.Text

-- A statement on the characters of a text must not be decided by going over all characters.

instance (priority := 2000) decidableForallMem {q : Char → Prop} [DecidablePred q]
    (cs : List Char) : Decidable (∀ c ∈ cs, q c) :=
  List.decidableBAll q cs

instance (priority := 2000) decidableForallMemOption {q : Char → Prop} [DecidablePred q]
    (o : Option Char) : Decidable (∀ c ∈ o, q c) :=
  Option.decidableForallMem o

variable {p : Char → Bool}

/-! ## Splitting -/

theorem consFirst_append (c : Char) {pieces : List (List Char)} (h : pieces ≠ [])
    (pieces' : List (List Char)) :
    consFirst c (pieces ++ pieces') = consFirst c pieces ++ pieces' := by
  cases pieces with
  | nil => exact absurd rfl h
  | cons piece pieces => rfl

theorem consFirst_ne_nil (c : Char) (pieces : List (List Char)) : consFirst c pieces ≠ [] := by
  cases pieces <;> exact List.cons_ne_nil _ _

theorem split_ne_nil (p : Char → Bool) (cs : List Char) : split p cs ≠ [] := by
  cases cs with
  | nil => exact List.cons_ne_nil _ _
  | cons c cs =>
    rw [split_cons]
    split
    · exact List.cons_ne_nil _ _
    · exact consFirst_ne_nil c _

theorem split_append_cons {c : Char} (hc : p c = true) (cs cs' : List Char) :
    split p (cs ++ c :: cs') = split p cs ++ split p cs' := by
  induction cs with
  | nil => rw [List.nil_append, split_cons, if_pos hc, split_nil, List.singleton_append]
  | cons c' cs ih =>
    rw [List.cons_append, split_cons, split_cons, ih]
    split
    · rfl
    · exact consFirst_append c' (split_ne_nil p cs) _

theorem split_of_forall {cs : List Char} (h : ∀ c ∈ cs, p c = false) : split p cs = [cs] := by
  induction cs with
  | nil => rfl
  | cons c cs ih =>
    rw [split_cons, h c (List.mem_cons_self ..), ih fun c' hc' => h c' (List.mem_cons_of_mem c hc')]
    rfl

theorem beq_false_of_not_mem {s : Char} {cs : List Char} (h : s ∉ cs) :
    ∀ c ∈ cs, (c == s) = false :=
  fun _ hc => beq_eq_false_iff_ne.2 fun heq => h (heq ▸ hc)

theorem split_of_not_mem {s : Char} {cs : List Char} (h : s ∉ cs) : split (· == s) cs = [cs] :=
  split_of_forall (beq_false_of_not_mem h)

/-- The pieces with the separators between them. -/
theorem flatten_intersperse_split (s : Char) (cs : List Char) :
    (split (· == s) cs).headD [] ++ (split (· == s) cs).tail.flatMap (s :: ·) = cs := by
  induction cs with
  | nil => rfl
  | cons c cs ih =>
    rw [split_cons]
    cases hs : split (· == s) cs with
    | nil => exact absurd hs (split_ne_nil _ cs)
    | cons piece pieces =>
      rw [hs] at ih
      split
      · next hc =>
        rw [← eq_of_beq hc] at ih ⊢
        simpa using ih
      · simpa [consFirst] using ih

theorem head?_split_isPrefix {cs first : List Char} (h : (split p cs).head? = some first) :
    first <+: cs := by
  induction cs generalizing first with
  | nil =>
    obtain rfl := Option.some.inj h
    exact List.prefix_refl _
  | cons c cs ih =>
    rw [split_cons] at h
    split at h
    · obtain rfl := Option.some.inj h
      exact List.nil_prefix
    · cases hs : split p cs with
      | nil => exact absurd hs (split_ne_nil p cs)
      | cons first' pieces =>
        rw [hs] at h ih
        obtain rfl := Option.some.inj h
        exact List.cons_prefix_cons.2 ⟨rfl, ih rfl⟩

theorem mem_split {cs piece : List Char} (h : piece ∈ split p cs) :
    (∀ c ∈ piece, p c = false) ∧ piece <:+: cs := by
  induction cs generalizing piece with
  | nil =>
    rw [split_nil, List.mem_singleton] at h
    subst h
    exact ⟨fun c hc => absurd hc List.not_mem_nil, List.infix_refl _⟩
  | cons c cs ih =>
    rw [split_cons] at h
    split at h
    · rcases List.mem_cons.1 h with rfl | h
      · exact ⟨fun c hc => absurd hc List.not_mem_nil, List.nil_infix⟩
      · exact ⟨(ih h).1, (ih h).2.trans (List.suffix_cons c cs).isInfix⟩
    · next hc =>
      cases hs : split p cs with
      | nil => exact absurd hs (split_ne_nil p cs)
      | cons first pieces =>
        have hfirst : first <+: cs := head?_split_isPrefix (by rw [hs]; rfl)
        rw [hs] at h ih
        -- Only the piece in front of the first separator takes the character in.
        rcases List.mem_cons.1 h with rfl | h
        · refine ⟨List.forall_mem_cons.2 ⟨by simpa using hc, (ih (List.mem_cons_self ..)).1⟩, ?_⟩
          exact (List.cons_prefix_cons.2 ⟨rfl, hfirst⟩).isInfix
        · have hpiece := ih (List.mem_cons_of_mem first h)
          exact ⟨hpiece.1, hpiece.2.trans (List.suffix_cons c cs).isInfix⟩

/-! ## Cutting once -/

theorem cutAt_append_cons {cs : List Char} (h : ∀ c ∈ cs, p c = false) {c : Char}
    (hc : p c = true) (cs' : List Char) : cutAt p (cs ++ c :: cs') = (cs, cs') := by
  have hall : ∀ c ∈ cs, (! p c) = true := fun c hc => by rw [h c hc]; rfl
  simp [cutAt, List.takeWhile_append_of_pos hall, List.dropWhile_append_of_pos hall, hc]

theorem cutAt_of_forall {cs : List Char} (h : ∀ c ∈ cs, p c = false) : cutAt p cs = (cs, []) := by
  have hall : ∀ c ∈ cs, (! p c) = true := fun c hc => by rw [h c hc]; rfl
  rw [cutAt, List.takeWhile_eq_self_iff.2 hall, List.dropWhile_eq_nil_iff.2 hall, List.tail_nil]

theorem cutAt?_append_cons {cs : List Char} (h : ∀ c ∈ cs, p c = false) {c : Char}
    (hc : p c = true) (cs' : List Char) : cutAt? p (cs ++ c :: cs') = some (cs, cs') := by
  rw [cutAt?, if_pos (List.any_eq_true.2 ⟨c, by simp, hc⟩), cutAt_append_cons h hc]

theorem cutAt?_of_forall {cs : List Char} (h : ∀ c ∈ cs, p c = false) : cutAt? p cs = none := by
  rw [cutAt?, if_neg]
  simpa using h

theorem cutAt?_eq_some {cs before after : List Char} (h : cutAt? p cs = some (before, after)) :
    ∃ c, p c = true ∧ cs = before ++ c :: after ∧ ∀ c' ∈ before, p c' = false := by
  unfold cutAt? at h
  split at h
  · next hany =>
    obtain ⟨hbefore, hafter⟩ := Prod.mk.inj (Option.some.inj h)
    cases hdrop : cs.dropWhile (! p ·) with
    | nil =>
      obtain ⟨c, hc, hpc⟩ := List.any_eq_true.1 hany
      have hnot := List.dropWhile_eq_nil_iff.1 hdrop c hc
      simp [hpc] at hnot
    | cons c rest =>
      have hc := List.head_dropWhile_not (! p ·) (l := cs) (by rw [hdrop]; exact List.cons_ne_nil _ _)
      simp only [hdrop, List.head_cons, Bool.not_eq_false'] at hc
      rw [hdrop, List.tail_cons] at hafter
      refine ⟨c, hc, ?_, fun c' hc' => ?_⟩
      · rw [← hbefore, ← hafter, ← hdrop, List.takeWhile_append_dropWhile]
      · rw [← hbefore] at hc'
        simpa using List.mem_takeWhile_imp hc'
  · cases h

/-! ## Trimming -/

/-- A text has no blank at either end. -/
def Trimmed (cs : List Char) : Prop :=
  (∀ c ∈ cs.head?, isBlank c = false) ∧ ∀ c ∈ cs.getLast?, isBlank c = false

theorem dropEndWhile_append_of_forall {cs' : List Char} (h : ∀ c ∈ cs', p c = true)
    (cs : List Char) : dropEndWhile p (cs ++ cs') = dropEndWhile p cs := by
  rw [dropEndWhile, List.reverse_append, List.dropWhile_append_of_pos, dropEndWhile]
  exact fun c hc => h c (List.mem_reverse.1 hc)

theorem dropEndWhile_append {cs' : List Char} (h : ∃ c ∈ cs', p c = false) (cs : List Char) :
    dropEndWhile p (cs ++ cs') = cs ++ dropEndWhile p cs' := by
  have hne : cs'.reverse.dropWhile p ≠ [] := by
    obtain ⟨c, hc, hfalse⟩ := h
    rw [Ne, List.dropWhile_eq_nil_iff]
    exact fun hall => absurd (hall c (List.mem_reverse.2 hc)) (by simp [hfalse])
  rw [dropEndWhile, List.reverse_append, List.dropWhile_append, if_neg (by simpa using hne),
    List.reverse_append, List.reverse_reverse, dropEndWhile]

theorem dropEndWhile_of_getLast? {cs : List Char} (h : ∀ c ∈ cs.getLast?, p c = false) :
    dropEndWhile p cs = cs := by
  cases cs using List.reverseRecOn with
  | nil => rfl
  | append_singleton cs c =>
    rw [dropEndWhile, List.reverse_concat, List.dropWhile_cons, h c (by simp)]
    simp

theorem dropEndWhile_of_getLast?_ne {d : Char} {cs : List Char} (h : cs.getLast? ≠ some d) :
    dropEndWhile (· == d) cs = cs := by
  refine dropEndWhile_of_getLast? fun c hc => beq_eq_false_iff_ne.2 ?_
  rintro rfl
  exact h hc

/-- What is dropped at the end satisfies `p`, and what is left does not end so. -/
theorem dropEndWhile_spec (p : Char → Bool) (cs : List Char) :
    (∃ dropped, cs = dropEndWhile p cs ++ dropped ∧ ∀ c ∈ dropped, p c = true) ∧
      ∀ c ∈ (dropEndWhile p cs).getLast?, p c = false := by
  induction cs using List.reverseRecOn with
  | nil => exact ⟨⟨[], rfl, fun c hc => absurd hc List.not_mem_nil⟩, fun c hc => by cases hc⟩
  | append_singleton cs c ih =>
    by_cases hc : p c = true
    · obtain ⟨⟨dropped, hcs, hdropped⟩, hlast⟩ := ih
      rw [dropEndWhile_append_of_forall (by simpa using hc)]
      refine ⟨⟨dropped ++ [c], ?_, ?_⟩, hlast⟩
      · conv_lhs => rw [hcs]
        rw [List.append_assoc]
      · intro c' hc'
        rcases List.mem_append.1 hc' with hc' | hc'
        · exact hdropped c' hc'
        · rw [List.mem_singleton.1 hc']
          exact hc
    · have hself : dropEndWhile p (cs ++ [c]) = cs ++ [c] :=
        dropEndWhile_of_getLast? (by simpa using hc)
      rw [hself]
      exact ⟨⟨[], by simp, fun c hc => absurd hc List.not_mem_nil⟩, by simpa using hc⟩

theorem trimStart_spec (cs : List Char) :
    (∃ dropped, cs = dropped ++ trimStart cs ∧ ∀ c ∈ dropped, isBlank c = true) ∧
      ∀ c ∈ (trimStart cs).head?, isBlank c = false := by
  refine ⟨⟨cs.takeWhile isBlank, (List.takeWhile_append_dropWhile ..).symm,
    fun c hc => List.mem_takeWhile_imp hc⟩, fun c hc => ?_⟩
  cases hdrop : trimStart cs with
  | nil =>
    rw [hdrop] at hc
    cases hc
  | cons c' rest =>
    rw [hdrop] at hc
    obtain rfl := Option.some.inj hc
    have hne : cs.dropWhile isBlank ≠ [] := by
      rw [show cs.dropWhile isBlank = c' :: rest from hdrop]
      exact List.cons_ne_nil _ _
    have hhead := List.head_dropWhile_not isBlank hne
    simpa [show cs.dropWhile isBlank = c' :: rest from hdrop] using hhead

theorem trim_eq_self {cs : List Char} (h : Trimmed cs) : trim cs = cs := by
  have hstart : trimStart cs = cs := by
    cases cs with
    | nil => rfl
    | cons c cs => simp [trimStart, h.1 c rfl]
  rw [trim, hstart]
  exact dropEndWhile_of_getLast? h.2

theorem trim_spec (cs : List Char) : Trimmed (trim cs) ∧ ∃ front back,
    cs = front ++ trim cs ++ back ∧ (∀ c ∈ front, isBlank c = true) ∧
      ∀ c ∈ back, isBlank c = true := by
  obtain ⟨⟨front, hfront, hblank⟩, hhead⟩ := trimStart_spec cs
  obtain ⟨⟨back, hback, hblank'⟩, hlast⟩ := dropEndWhile_spec isBlank (trimStart cs)
  refine ⟨⟨fun c hc => hhead c ?_, hlast⟩, front, back, ?_, hblank, hblank'⟩
  · rw [hback]
    cases htrim : dropEndWhile isBlank (trimStart cs) with
    | nil =>
      rw [trim, trimEnd, htrim] at hc
      cases hc
    | cons c' rest =>
      rw [trim, trimEnd, htrim] at hc
      exact hc
  · rw [List.append_assoc]
    conv_lhs => rw [hfront, hback]
    rfl

theorem trim_append {front cs back : List Char} (h : Trimmed cs)
    (hfront : ∀ c ∈ front, isBlank c = true) (hback : ∀ c ∈ back, isBlank c = true) :
    trim (front ++ cs ++ back) = cs := by
  cases cs with
  | nil =>
    rw [List.append_nil, trim, trimStart, List.dropWhile_eq_nil_iff.2]
    · rfl
    · intro c hc
      rcases List.mem_append.1 hc with hc | hc
      · exact hfront c hc
      · exact hback c hc
  | cons c cs =>
    have hstart : trimStart (front ++ (c :: cs) ++ back) = (c :: cs) ++ back := by
      rw [trimStart, List.append_assoc, List.dropWhile_append_of_pos hfront]
      simp [h.1 c rfl]
    rw [trim, hstart, trimEnd, dropEndWhile_append_of_forall hback]
    exact dropEndWhile_of_getLast? h.2

theorem trim_append_of_forall {back : List Char} (h : ∀ c ∈ back, isBlank c = true)
    (cs : List Char) : trim (cs ++ back) = trim cs := by
  obtain ⟨htrimmed, front, back', hcs, hfront, hback'⟩ := trim_spec cs
  conv_lhs => rw [hcs, List.append_assoc]
  exact trim_append htrimmed hfront (List.forall_mem_append.2 ⟨hback', h⟩)

theorem trim_append_blank {cs : List Char} (h : Trimmed cs) : trim (cs ++ [' ']) = cs := by
  rw [trim_append_of_forall (by decide), trim_eq_self h]

theorem head?_trim_cons {c : Char} (h : isBlank c = false) (cs : List Char) :
    (trim (c :: cs)).head? = some c := by
  obtain ⟨-, front, back, hcs, hfront, hback⟩ := trim_spec (c :: cs)
  have hne : ∀ b, isBlank b = true → b ≠ c := by
    rintro b hb rfl
    rw [hb] at h
    cases h
  -- A character that is not blank can be in neither of the parts that are trimmed away.
  cases front with
  | cons b front =>
    exact absurd (List.cons.inj hcs).1.symm (hne b (hfront b (List.mem_cons_self ..)))
  | nil =>
    cases htrim : trim (c :: cs) with
    | cons b rest =>
      rw [htrim] at hcs
      exact congrArg some (List.cons.inj hcs).1.symm
    | nil =>
      rw [htrim] at hcs
      have hmem : c ∈ back := by
        rw [show back = c :: cs from hcs.symm]
        exact List.mem_cons_self ..
      exact absurd rfl (hne c (hback c hmem))

theorem trim_isInfix (cs : List Char) : trim cs <:+: cs := by
  obtain ⟨-, front, back, hcs, -, -⟩ := trim_spec cs
  exact ⟨front, back, hcs.symm⟩

theorem trimmed_of_forall {cs : List Char} (h : ∀ c ∈ cs, isBlank c = false) : Trimmed cs :=
  ⟨fun c hc => h c (List.mem_of_mem_head? hc), fun c hc => h c (List.mem_of_mem_getLast? hc)⟩

theorem trimmed_append {cs cs' : List Char} (h : ∀ c ∈ cs.head?, isBlank c = false)
    (hne : cs ≠ []) (h' : ∀ c ∈ cs'.getLast?, isBlank c = false) (hne' : cs' ≠ []) :
    Trimmed (cs ++ cs') := by
  constructor
  · rw [List.head?_append_of_ne_nil _ hne]
    exact h
  · rw [List.getLast?_append_of_ne_nil _ hne']
    exact h'

/-! ## Lists with commas -/

theorem mem_intercalate {s : List Char} {ts : List (List Char)} {x : Char}
    (h : x ∈ s.intercalate ts) : x ∈ s ∨ ∃ t ∈ ts, x ∈ t := by
  induction ts with
  | nil =>
    rw [List.intercalate_nil] at h
    cases h
  | cons t ts ih =>
    cases ts with
    | nil =>
      rw [List.intercalate_singleton] at h
      exact .inr ⟨t, List.mem_singleton_self t, h⟩
    | cons t' ts =>
      rw [List.intercalate_cons_cons, List.append_assoc, List.mem_append, List.mem_append] at h
      rcases h with h | h | h
      · exact .inr ⟨t, List.mem_cons_self .., h⟩
      · exact .inl h
      · exact (ih h).imp_right fun ⟨u, hu, hx⟩ => ⟨u, List.mem_cons_of_mem t hu, hx⟩

theorem head?_intercalate (s : List Char) {t : List Char} (ht : t ≠ []) (ts : List (List Char)) :
    (s.intercalate (t :: ts)).head? = t.head? := by
  cases ts with
  | nil => rw [List.intercalate_singleton]
  | cons t' ts =>
    rw [List.intercalate_cons_cons, List.append_assoc, List.head?_append_of_ne_nil _ ht]

theorem trimmed_intercalate (s : List Char) {ts : List (List Char)} (hne : ts ≠ [])
    (h : ∀ t ∈ ts, t ≠ [] ∧ Trimmed t) :
    s.intercalate ts ≠ [] ∧ Trimmed (s.intercalate ts) := by
  induction ts with
  | nil => exact absurd rfl hne
  | cons t ts ih =>
    obtain ⟨⟨ht, htrimmed⟩, hts⟩ := List.forall_mem_cons.1 h
    cases ts with
    | nil =>
      rw [List.intercalate_singleton]
      exact ⟨ht, htrimmed⟩
    | cons t' ts =>
      obtain ⟨hrest, htrimmed'⟩ := ih (List.cons_ne_nil t' ts) hts
      rw [List.intercalate_cons_cons, List.append_assoc]
      constructor
      · exact List.append_ne_nil_of_left_ne_nil ht _
      · refine trimmed_append htrimmed.1 ht ?_ (List.append_ne_nil_of_right_ne_nil s hrest)
        rw [List.getLast?_append_of_ne_nil s hrest]
        exact htrimmed'.2

/-- A blank in front of a list belongs to its first piece, and goes when that is trimmed. -/
theorem map_trim_split_blank (cs : List Char) :
    (split (· == ',') (' ' :: cs)).map trim = (split (· == ',') cs).map trim := by
  rw [split_cons, if_neg (by simp)]
  cases hs : split (· == ',') cs with
  | nil => exact absurd hs (split_ne_nil _ cs)
  | cons piece pieces => rfl

/-- Texts without commas are found again once commas have been put between them. -/
theorem map_trim_split_intercalate {ts : List (List Char)} (h : ∀ t ∈ ts, Trimmed t ∧ ',' ∉ t)
    (hne : ts ≠ []) : (split (· == ',') ([',', ' '].intercalate ts)).map trim = ts := by
  induction ts with
  | nil => exact absurd rfl hne
  | cons t ts ih =>
    obtain ⟨htrimmed, hcomma⟩ := h t (List.mem_cons_self ..)
    have htrim := trim_eq_self htrimmed
    cases ts with
    | nil => rw [List.intercalate_singleton, split_of_not_mem hcomma, List.map_singleton, htrim]
    | cons t' ts =>
      have hrest := ih (fun u hu => h u (List.mem_cons_of_mem t hu)) (List.cons_ne_nil t' ts)
      rw [List.intercalate_cons_cons, List.append_assoc, List.cons_append,
        split_append_cons (p := (· == ',')) rfl, split_of_not_mem hcomma, List.map_append,
        List.map_singleton, htrim]
      exact congrArg (t :: ·) ((map_trim_split_blank _).trans hrest)

/-! ## Words and lines -/

theorem words_append_cons {c : Char} (hc : isBlank c = true) (cs cs' : List Char) :
    words (cs ++ c :: cs') = words cs ++ words cs' := by
  rw [words, split_append_cons hc, List.filter_append, words, words]

theorem words_of_forall {cs : List Char} (h : ∀ c ∈ cs, isBlank c = false) (hne : cs ≠ []) :
    words cs = [cs] := by
  rw [words, split_of_forall h]
  simp [hne]

@[simp] theorem words_nil : words [] = [] := rfl

theorem words_cons_blank {c : Char} (hc : isBlank c = true) (cs : List Char) :
    words (c :: cs) = words cs :=
  words_append_cons hc [] cs

theorem words_append_blank {word : List Char} (h : ∀ c ∈ word, isBlank c = false)
    (hne : word ≠ []) (cs : List Char) : words (word ++ ' ' :: cs) = word :: words cs := by
  rw [words_append_cons (by decide), words_of_forall h hne]
  rfl

theorem words_blank_append {front : List Char} (h : ∀ c ∈ front, isBlank c = true)
    (cs : List Char) : words (front ++ cs) = words cs := by
  induction front with
  | nil => rfl
  | cons c front ih =>
    obtain ⟨hc, hfront⟩ := List.forall_mem_cons.1 h
    rw [List.cons_append, words_cons_blank hc, ih hfront]

theorem words_trim (cs : List Char) : words (trim cs) = words cs := by
  obtain ⟨-, front, back, hcs, hfront, hback⟩ := trim_spec cs
  have hend : words (trim cs ++ back) = words (trim cs) := by
    cases back with
    | nil => rw [List.append_nil]
    | cons c back =>
      obtain ⟨hc, hback⟩ := List.forall_mem_cons.1 hback
      have hnone : words back = [] := by simpa using words_blank_append hback []
      rw [words_append_cons hc, hnone, List.append_nil]
  conv_rhs => rw [hcs, List.append_assoc, words_blank_append hfront, hend]

theorem words_cutAt {cs : List Char} (hne : cs ≠ []) (h : ∀ c ∈ cs.head?, isBlank c = false) :
    words cs = (cutAt isBlank cs).1 :: words (cutAt isBlank cs).2 := by
  have hfirst : (cutAt isBlank cs).1 ≠ [] := by
    obtain ⟨c, rest, rfl⟩ := List.exists_cons_of_ne_nil hne
    simp [cutAt, h c rfl]
  have hnoblank : ∀ c ∈ (cutAt isBlank cs).1, isBlank c = false := fun c hc => by
    simpa using List.mem_takeWhile_imp hc
  -- The cut is the same as the one at the first blank, if there is a blank at all.
  cases hcut : cutAt? isBlank cs with
  | none =>
    have hnot : ∀ c ∈ cs, isBlank c = false := by
      rw [cutAt?, ite_eq_right_iff] at hcut
      intro c hc
      rw [Bool.eq_false_iff]
      exact fun hblank => absurd (hcut (List.any_eq_true.2 ⟨c, hc, hblank⟩)) (by simp)
    rw [cutAt_of_forall hnot, words_of_forall hnot hne]
    rfl
  | some parts =>
    obtain ⟨before, after⟩ := parts
    obtain ⟨b, hb, hcs, -⟩ := cutAt?_eq_some hcut
    have hparts : cutAt isBlank cs = (before, after) := by
      rw [cutAt?] at hcut
      split at hcut
      · exact Option.some.inj hcut
      · cases hcut
    rw [hparts] at hfirst hnoblank ⊢
    conv_lhs => rw [hcs, words_append_cons hb, words_of_forall hnoblank hfirst]
    rfl

theorem mem_words {cs word : List Char} (h : word ∈ words cs) :
    word ≠ [] ∧ (∀ c ∈ word, isBlank c = false) ∧ word <:+: cs := by
  obtain ⟨hmem, hne⟩ := List.mem_filter.1 h
  obtain ⟨hblank, hpart⟩ := mem_split hmem
  exact ⟨by simpa using hne, hblank, hpart⟩

theorem lines_append_cons (cs cs' : List Char) :
    lines (cs ++ '\n' :: cs') = (split (· == '\n') cs).map dropReturn ++ lines cs' := by
  have hne := split_ne_nil (· == '\n') cs'
  rw [lines, split_append_cons rfl, List.dropLast_append_of_ne_nil hne,
    List.getLast?_append_of_ne_nil _ hne, List.map_append, List.append_assoc]
  rfl

theorem dropReturn_of_getLast? {cs : List Char} (h : cs.getLast? ≠ some '\r') :
    dropReturn cs = cs := by
  rw [dropReturn]
  cases hsuffix : ['\r'].isSuffixOf? cs with
  | none => rfl
  | some front =>
    obtain rfl := List.isSuffixOf?_eq_some_iff_append_eq.1 hsuffix
    exact absurd List.getLast?_concat h

theorem dropReturn_append (cs : List Char) : dropReturn (cs ++ ['\r']) = cs := by
  rw [dropReturn, List.isSuffixOf?_eq_some_iff_append_eq.2 rfl]
  rfl

theorem dropReturn_isPrefix (cs : List Char) : dropReturn cs <+: cs := by
  by_cases h : cs.getLast? = some '\r'
  · obtain ⟨front, rfl⟩ := List.getLast?_eq_some_iff.1 h
    rw [dropReturn_append]
    exact List.prefix_append _ _
  · rw [dropReturn_of_getLast? h]

/-- The carriage return that a line may end with is a blank. -/
theorem trim_dropReturn (cs : List Char) : trim (dropReturn cs) = trim cs := by
  by_cases h : cs.getLast? = some '\r'
  · obtain ⟨front, rfl⟩ := List.getLast?_eq_some_iff.1 h
    rw [dropReturn_append, trim_append_of_forall (by decide)]
  · rw [dropReturn_of_getLast? h]

theorem dropReturn_cons {c : Char} (h : c ≠ '\r') (cs : List Char) :
    dropReturn (c :: cs) = c :: dropReturn cs := by
  by_cases hlast : cs.getLast? = some '\r'
  · obtain ⟨front, rfl⟩ := List.getLast?_eq_some_iff.1 hlast
    rw [dropReturn_append, ← List.cons_append, dropReturn_append]
  · rw [dropReturn_of_getLast? hlast, dropReturn_of_getLast?]
    cases cs with
    | nil => simpa using h
    | cons c' cs => rwa [List.getLast?_cons_cons]

end KernelListing.Text
