import KernelListing.Proofs.Statement.RoundTrip

/-!
# Variables as they are declared

A text that begins with the keyword of a space declares a variable if its first words spell one.
The words behind those are neither a part of the variable nor an error, where a parameter has the
same case reported. So the words of an accepted text are those of the variable, up to the spelling
of its integers and the commas at the end, exactly if none is left over.
-/

namespace KernelListing

open Text

/-! ## The number of words -/

theorem Statement.StatesAlignment.length {align : Option UInt32} {front : List (List Char)}
    (h : StatesAlignment align front) : front.length = if align.isSome then 2 else 0 := by
  cases h <;> rfl

theorem Variable.IsSpelled.length {v : Variable} {ws : List (List Char)} (h : v.IsSpelled ws) :
    ws.length = if v.align.isSome then 5 else 3 := by
  obtain ⟨front, word, commas, hfront, -, -, rfl⟩ := h.words
  have hlength := hfront.length
  split at hlength <;> simp_all

/-- The words that spell a variable are not the beginning of others that do. -/
theorem Variable.IsSpelled.append_iff {v : Variable} {ws : List (List Char)} (h : v.IsSpelled ws)
    (extra : List (List Char)) : v.IsSpelled (ws ++ extra) ↔ extra = [] := by
  constructor
  · intro h'
    have hlength := h'.length.trans h.length.symm
    rw [List.length_append] at hlength
    exact List.length_eq_zero_iff.1 (by omega)
  · rintro rfl
    rwa [List.append_nil]

namespace Statement

/-! ## What is accepted -/

theorem readPiece_of_isSpelled {cs : List Char} {v : Variable} {ws extra : List (List Char)}
    (h : v.IsSpelled ws) (hwords : words cs = ws ++ extra) :
    Source.readPiece (trim cs) = .statement (ofVariable v) := by
  have hdot : v.space.directive.toList.head? = some '.' := by cases v.space <;> rfl
  obtain ⟨tail, htail⟩ : ∃ tail, ws = v.space.directive.toList :: tail := by
    obtain ⟨front, word, commas, -, -, -, rfl⟩ := h.words
    exact ⟨_, rfl⟩
  rw [htail, List.cons_append] at hwords
  obtain ⟨args, -, hargs, hpiece⟩ := exists_readPiece_trim hdot hwords
  have hread : readVariable v.space args = .ok v := by
    refine readVariable_eq_ok_iff.2 ⟨rfl, ws, extra, h, ?_⟩
    rw [hargs, htail, List.cons_append]
  rw [hpiece, readPiece_space, hread]
  rfl

/-- The keywords that a directive can start with. -/
def keywords : List String := [".entry", ".param", ".local", ".shared"] ++ ignoredDirectives

theorem mem_keywords_of_readPiece {keyword : String} (hdot : keyword.toList.head? = some '.')
    (hblank : ∀ c ∈ keyword.toList, isBlank c = false) {cs : List Char}
    (h : (Source.readPiece (keyword.toList ++ ' ' :: cs)).errors = []) : keyword ∈ keywords := by
  by_contra hnot
  simp only [keywords, List.mem_append, List.mem_cons, List.not_mem_nil, or_false, not_or] at hnot
  obtain ⟨⟨hentry, hparam, hlocal, hshared⟩, hignored⟩ := hnot
  rw [readPiece_keyword hdot hblank, if_neg hentry, if_neg hparam, if_neg hlocal, if_neg hshared,
    if_neg hignored] at h
  cases h

/-- No keyword goes on behind that of a space. -/
theorem eq_directive_of_mem_keywords {space : StateSpace} {keyword : String}
    (h : keyword ∈ keywords) (hstart : space.directive.toList <+: keyword.toList) :
    keyword = space.directive := by
  cases space with
  | localMemory =>
    exact (by decide : ∀ k ∈ keywords, ".local".toList <+: k.toList → k = ".local") _ h hstart
  | sharedMemory =>
    exact (by decide : ∀ k ∈ keywords, ".shared".toList <+: k.toList → k = ".shared") _ h hstart

theorem exists_isSpelled_of_readPiece {cs : List Char} {space : StateSpace} (hcode : IsCode cs)
    (hstart : space.directive.toList <+: cs)
    (h : (Source.readPiece (trim cs)).errors = []) :
    ∃ v : Variable, v.space = space ∧ v.IsRead ∧
      ∃ ws extra, v.IsSpelled ws ∧ words cs = ws ++ extra := by
  have hnoblank : ∀ c ∈ space.directive.toList, isBlank c = false := by cases space <;> decide
  obtain ⟨rest, hdirective⟩ : ∃ rest, space.directive.toList = '.' :: rest := by
    cases space <;> exact ⟨_, rfl⟩
  obtain ⟨behind, rfl⟩ := hstart
  -- The first word goes on behind the keyword of the space up to the first blank.
  have hfirst : (cutAt isBlank (space.directive.toList ++ behind)).1 =
      space.directive.toList ++ behind.takeWhile (! isBlank ·) :=
    List.takeWhile_append_of_pos fun c hc => by rw [hnoblank c hc]; rfl
  have hwords : words (space.directive.toList ++ behind) =
      (space.directive.toList ++ behind.takeWhile (! isBlank ·)) ::
        words (cutAt isBlank (space.directive.toList ++ behind)).2 := by
    rw [← hfirst]
    refine words_cutAt (by simp [hdirective]) fun c hc => hnoblank c ?_
    rw [hdirective] at hc ⊢
    rw [← Option.some.inj hc]
    exact List.mem_cons_self ..
  obtain ⟨keyword, hkeyword⟩ : ∃ keyword : String,
      keyword.toList = space.directive.toList ++ behind.takeWhile (! isBlank ·) :=
    ⟨String.ofList _, String.toList_ofList⟩
  rw [← hkeyword] at hwords
  have hdot : keyword.toList.head? = some '.' := by
    rw [hkeyword, hdirective]
    rfl
  have hblank := (mem_words (hwords ▸ List.mem_cons_self .. : keyword.toList ∈ _)).2.1
  obtain ⟨args, hpart, hargs, hpiece⟩ := exists_readPiece_trim hdot hwords
  rw [hpiece] at h
  obtain rfl := eq_directive_of_mem_keywords (mem_keywords_of_readPiece hdot hblank h)
    ⟨_, hkeyword.symm⟩
  rw [readPiece_space] at h
  cases hread : readVariable space args with
  | error e =>
    rw [hread] at h
    cases h
  | ok v =>
    obtain ⟨hspace, ws, extra, hspelled, hws⟩ := readVariable_eq_ok_iff.1 hread
    refine ⟨v, hspace, (isRead_of_readVariable (hcode.part hpart) hread).2, ws, extra, hspelled, ?_⟩
    rw [hwords, ← hargs, hws]

theorem isSpelled_words_text {v : Variable} (h : v.IsRead) :
    v.IsSpelled (words v.text.toList.dropLast) := by
  have hblank : ∀ c ∈ v.space.directive.toList, isBlank c = false := by
    cases v.space <;> decide
  have hne : v.space.directive.toList ≠ [] := by cases v.space <;> decide
  rw [toList_variable, List.dropLast_concat, words_append_blank hblank hne]
  exact isSpelled_words h

/-- A piece of code that begins with the keyword of a space is read without an error exactly if its
first words spell a variable. It is read as that variable then, whatever words are left over, and
so is the declaration of the variable, whose words spell it with none left over. -/
theorem read_variable {text : String} {space : StateSpace} (hcode : IsCode text.toList)
    (hstart : space.directive.toList <+: text.toList) :
    ((Source.read text).errors = [] → ∃ v : Variable, v.space = space ∧
      Source.read text = .statement (ofVariable v) ∧
      (∃ ws extra, v.IsSpelled ws ∧ words text.toList = ws ++ extra ∧
        (v.IsSpelled (words text.toList) ↔ extra = [])) ∧
      v.IsSpelled (words v.text.toList.dropLast) ∧
      Source.read v.text = .statement (ofVariable v)) ∧
    ∀ v ws extra, v.IsSpelled ws → words text.toList = ws ++ extra →
      Source.read text = .statement (ofVariable v) := by
  rw [Source.read_code hcode]
  refine ⟨fun herrors => ?_, fun v ws extra h hwords => readPiece_of_isSpelled h hwords⟩
  obtain ⟨v, hspace, hread, ws, extra, h, hwords⟩ :=
    exists_isSpelled_of_readPiece hcode hstart herrors
  refine ⟨v, hspace, readPiece_of_isSpelled h hwords, ⟨ws, extra, h, hwords, ?_⟩,
    isSpelled_words_text hread, ?_⟩
  · rw [hwords]
    exact h.append_iff extra
  · rw [Source.read_piece (toList_variable v) (isCode_variable hread) (trimmed_variable hread)]
    exact readPiece_variable hread

/-- A variable with all its parts and two words more. -/
def tile : String := ".shared .align 0x10 .f32 tile[0X20],, left over"

/-- The words of `tile` that spell its variable. -/
def tileWords : List (List Char) :=
  [".shared".toList, ".align".toList, "0x10".toList, ".f32".toList, "tile[0X20],,".toList]

def tileVariable : Variable where
  space := .sharedMemory
  name := "tile"
  type := .f32
  align := some 16
  elements := some 32

theorem read_variable_tile : IsCode tile.toList ∧
    StateSpace.sharedMemory.directive.toList <+: tile.toList ∧
    tileVariable.IsSpelled tileWords ∧
    words tile.toList = tileWords ++ ["left".toList, "over".toList] ∧
    Source.read tile = .statement (ofVariable tileVariable) ∧
    ∃ v : Variable, v.space = .sharedMemory ∧ Source.read tile = .statement (ofVariable v) ∧
      (∃ ws extra, v.IsSpelled ws ∧ words tile.toList = ws ++ extra ∧
        (v.IsSpelled (words tile.toList) ↔ extra = [])) ∧
      v.IsSpelled (words v.text.toList.dropLast) ∧
      Source.read v.text = .statement (ofVariable v) := by
  have hcode : IsCode tile.toList := isCode_of_forall (by decide)
  have hstart : StateSpace.sharedMemory.directive.toList <+: tile.toList := ⟨_, rfl⟩
  have halign : IsCount "0x10".toList 16 := ⟨16, by decide, by decide⟩
  have hsize : IsCount "0X20".toList 32 := ⟨32, by decide, by decide⟩
  have hspelled : tileVariable.IsSpelled tileWords := by
    refine ⟨by decide, ?_, ?_⟩
    · intro hnone
      cases hnone
    · exact ⟨_, _, [',', ','], .some halign, .some hsize, by decide, rfl⟩
  have hwords : words tile.toList = tileWords ++ ["left".toList, "over".toList] := by decide
  have hvariable := read_variable hcode hstart
  have hread := hvariable.2 _ _ _ hspelled hwords
  exact ⟨hcode, hstart, hspelled, hwords, hread, hvariable.1 (by rw [hread]; rfl)⟩

/-- A variable with one word more. -/
def leftover : String := ".local .u32 a b"

/-- The word behind the name is lost without an error: no variable is spelled by all the words. -/
theorem not_isSpelled_leftover : IsCode leftover.toList ∧
    StateSpace.localMemory.directive.toList <+: leftover.toList ∧
    (Source.read leftover).errors = [] ∧ ¬ ∃ v : Variable,
      Source.read leftover = .statement (ofVariable v) ∧ v.IsSpelled (words leftover.toList) := by
  refine ⟨isCode_of_forall (by decide), ⟨_, rfl⟩, by decide +kernel, ?_⟩
  rintro ⟨v, -, h⟩
  have hcount : (words leftover.toList).length = 4 := by decide
  have hlength := h.length
  rw [hcount] at hlength
  split at hlength <;> cases hlength

end Statement

end KernelListing
