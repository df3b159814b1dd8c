import KernelListing.Proofs.Statement.RoundTrip

/-!
# Line breaks in a parameter list

A parameter list may be broken behind the parenthesis that opens it, behind each of its commas and
in front of the parenthesis that closes it. On the line of the keyword the list is cut at its commas
and loses the parentheses at its end. A later line is read as one declaration by itself, which can
do with a comma behind the name but not with more, and takes a parenthesis for a part of the name.
So a list is read as it is written exactly if all places behind the first broken one are broken too.
-/

namespace KernelListing

open Text

namespace Statement

/-- A name of letters, digits, underscores and dollar signs. -/
structure IsIdentifier (name : String) : Prop where
  ne_empty : name ≠ ""
  char : ∀ c ∈ name.toList, c.isAlphanum = true ∨ c = '_' ∨ c = '$'

instance : DecidablePred IsIdentifier := fun name =>
  decidable_of_iff (name ≠ "" ∧ ∀ c ∈ name.toList, c.isAlphanum = true ∨ c = '_' ∨ c = '$')
    ⟨fun h => ⟨h.1, h.2⟩, fun h => ⟨h.ne_empty, h.char⟩⟩

/-! ## Layouts -/

def lineBreak (broken : Bool) : List Char := if broken then ['\n'] else []

/-- Parameters in a list up to the parenthesis that closes it. Each comes with whether the line is
broken behind it: behind its comma, or in front of the parenthesis. -/
def parameterLayout : List (Parameter × Bool) → List Char
  | [] => [')']
  | [(p, broken)] => p.text.toList ++ (lineBreak broken ++ [')'])
  | (p, broken) :: next :: rest =>
    p.text.toList ++ ',' :: (lineBreak broken ++ ' ' :: parameterLayout (next :: rest))

/-- The header of a kernel, where a line may be broken behind the opening parenthesis as well. -/
def headerLayout (name : String) (broken : Bool) (ps : List (Parameter × Bool)) : String :=
  String.ofList (headerText name (lineBreak broken ++ parameterLayout ps))

namespace IsIdentifier

theorem isToken {name : String} (h : IsIdentifier name) : IsToken name.toList := by
  intro c hc
  rcases h.char c hc with halnum | rfl | rfl
  · simp [isTokenChar, halnum]
  · decide
  · decide

theorem isTitle {name : String} (h : IsIdentifier name) : IsTitle name :=
  ⟨h.isToken.isCode, h.isToken.trimmed, h.isToken.not_mem (by decide)⟩

theorem isRead {p : Parameter} (h : IsIdentifier p.name) : p.IsRead where
  word := ⟨h.isToken.isCode, fun c hc => not_isBlank_of_isTokenChar (h.isToken c hc)⟩
  ends := ⟨h.ne_empty, fun hlast =>
    h.isToken.not_mem (d := ',') (by decide) (List.mem_of_getLast? hlast)⟩

/-- A name with a parenthesis behind it can be read, but is no identifier. -/
theorem isRead_closed {p : Parameter} (h : IsIdentifier p.name) :
    { p with name := p.name ++ ")" }.IsRead := by
  have hname : (p.name ++ ")").toList = p.name.toList ++ [')'] := String.toList_append
  refine ⟨⟨?_, ?_⟩, fun hempty => ?_, ?_⟩
  · rw [hname, isCode_append_right (by decide)]
    exact h.isToken.isCode
  · rw [hname]
    exact List.forall_mem_append.2 ⟨h.isRead.word.blank, by decide⟩
  · have hempty' : p.name ++ ")" = "" := hempty
    rw [hempty'] at hname
    exact List.append_ne_nil_of_right_ne_nil _ (List.cons_ne_nil _ _) hname.symm
  · rw [hname, List.getLast?_concat]
    decide

theorem parenthesis_not_mem {p : Parameter} (h : IsIdentifier p.name) : ')' ∉ p.text.toList := by
  have htype := (name_type_toList p.type).1.not_mem (d := ')') (by decide)
  simp [toList_parameter, htype, h.isToken.not_mem (d := ')') (by decide)]

end IsIdentifier

theorem exists_parameterLayout (next : Parameter × Bool) (rest : List (Parameter × Bool)) :
    ∃ cs, parameterLayout (next :: rest) = ".param".toList ++ ' ' :: cs := by
  obtain ⟨p, broken⟩ := next
  cases rest with
  | nil => exact ⟨_, by rw [parameterLayout, toList_parameter, List.append_assoc, List.cons_append]⟩
  | cons next rest =>
    exact ⟨_, by rw [parameterLayout, toList_parameter, List.append_assoc, List.cons_append]⟩

theorem isPlain_of_mem_parameterLayout {ps : List (Parameter × Bool)}
    (h : ∀ p ∈ ps, IsIdentifier p.1.name) :
    ∀ c ∈ parameterLayout ps, c = '\n' ∨ isPlain c = true := by
  have hparameter : ∀ p : Parameter, IsIdentifier p.name →
      ∀ c ∈ p.text.toList, c = '\n' ∨ isPlain c = true := by
    intro p hp c hc
    rw [toList_parameter] at hc
    have htype := (name_type_toList p.type).1
    simp only [List.mem_append, List.mem_cons] at hc
    rcases hc with hc | rfl | (rfl | hc) | rfl | hc
    · exact .inr ((by decide : ∀ c ∈ ".param".toList, isPlain c = true) c hc)
    · decide
    · decide
    · exact .inr (isPlain_of_isTokenChar (htype c hc))
    · decide
    · exact .inr (isPlain_of_isTokenChar (hp.isToken c hc))
  have hbreak : ∀ broken, ∀ c ∈ lineBreak broken, c = '\n' ∨ isPlain c = true := by decide
  induction ps using parameterLayout.induct with
  | case1 => decide
  | case2 p broken =>
    rw [parameterLayout, List.forall_mem_append, List.forall_mem_append]
    exact ⟨hparameter p (h _ (List.mem_singleton_self _)), hbreak broken, by decide⟩
  | case3 p broken next rest ih =>
    obtain ⟨hp, hrest⟩ := List.forall_mem_cons.1 h
    rw [parameterLayout, List.forall_mem_append, List.forall_mem_cons, List.forall_mem_append,
      List.forall_mem_cons]
    exact ⟨hparameter p hp, by decide, hbreak broken, by decide, ih hrest⟩

/-! ## Lines behind the first -/

theorem words_row {front behind : List Char} (hfront : ∀ c ∈ front, c = ' ') {p : Parameter}
    (hp : IsIdentifier p.name) (hbehind : ∀ c ∈ behind, isBlank c = false) :
    words (front ++ (p.text.toList ++ behind)) =
      [".param".toList, '.' :: p.type.name.toList, p.name.toList ++ behind] := by
  have htext : p.text.toList ++ behind = ".param".toList ++
      ' ' :: ('.' :: p.type.name.toList ++ ' ' :: (p.name.toList ++ behind)) := by
    simp [toList_parameter]
  rw [words_blank_append fun c hc => by rw [hfront c hc]; decide, htext,
    words_append_blank (by decide) (by decide), words_type p.type
      (List.forall_mem_append.2 ⟨hp.isRead.word.blank, hbehind⟩)
      (List.append_ne_nil_of_left_ne_nil hp.isRead.ends.toList_ne_nil _)]

/-- A line with the keyword of a parameter is read as one parameter or not at all. -/
theorem readPiece_row {cs : List Char} {ws : List (List Char)}
    (h : words cs = ".param".toList :: ws) : ∃ args, words args = ws ∧
      Source.readPiece (trim cs) = .ofExcept ((readParameter args).map .parameter) := by
  obtain ⟨args, -, hargs, hpiece⟩ := exists_readPiece_trim (by decide) h
  refine ⟨args, hargs, ?_⟩
  rw [hpiece, readPiece_keyword rfl (by decide), if_neg (by decide), if_pos rfl]

theorem errors_readPiece_row {cs first second third : List Char} {ws : List (List Char)}
    (h : words cs = ".param".toList :: first :: second :: third :: ws) :
    (Source.readPiece (trim cs)).errors ≠ [] := by
  obtain ⟨args, hargs, hpiece⟩ := readPiece_row h
  rw [hpiece]
  cases hread : readParameter args with
  | error e => exact List.cons_ne_nil _ _
  | ok p =>
    obtain ⟨commas, -, -, hwords⟩ := readParameter_eq_ok_iff.1 hread
    rw [hargs] at hwords
    cases hwords

theorem readPiece_row_parameter {front : List Char} (hfront : ∀ c ∈ front, c = ' ')
    {p q : Parameter} (hp : IsIdentifier p.name) (behind commas : List Char)
    (hbehind : ∀ c ∈ behind, isBlank c = false) (hcommas : ∀ c ∈ commas, c = ',')
    (hends : EndsWord q.name) (htype : p.type = q.type)
    (hname : p.name.toList ++ behind = q.name.toList ++ commas) :
    Source.readPiece (trim (front ++ (p.text.toList ++ behind))) = .statement (.parameter q) := by
  obtain ⟨args, hargs, hpiece⟩ := readPiece_row (words_row hfront hp hbehind)
  rw [htype, hname] at hargs
  rw [hpiece, readParameter_eq_ok_iff.2 ⟨commas, hcommas, hends, hargs⟩]
  rfl

theorem isCode_row {front behind : List Char} (hfront : ∀ c ∈ front, c = ' ') {p : Parameter}
    (hp : IsIdentifier p.name) (hbehind : ∀ c ∈ behind, isPlain c = true) :
    IsCode (front ++ (p.text.toList ++ behind)) := by
  rw [isCode_append_left fun c hc => by rw [hfront c hc]; decide, isCode_append_right hbehind]
  exact isCode_parameter hp.isRead

theorem reads_row {front : List Char} (hfront : ∀ c ∈ front, c = ' ') {p : Parameter}
    (hp : IsIdentifier p.name) {behind : List Char} (hbehind : behind = [] ∨ behind = [',']) :
    Source.Reads (front ++ (p.text.toList ++ behind) ++ ['\n']) (.statement (.parameter p)) := by
  have hplain : ∀ c ∈ behind, isPlain c = true ∧ isBlank c = false ∧ c = ',' := by
    rcases hbehind with rfl | rfl <;> decide
  have hreads := Source.reads_code (isCode_row hfront hp fun c hc => (hplain c hc).1)
  rwa [readPiece_row_parameter hfront hp behind behind (fun c hc => (hplain c hc).2.1)
    (fun c hc => (hplain c hc).2.2) hp.isRead.ends rfl rfl] at hreads

/-- The parenthesis behind the last parameter becomes a part of its name. -/
theorem readLines_row_closed {front : List Char} (hfront : ∀ c ∈ front, c = ' ') {p : Parameter}
    (hp : IsIdentifier p.name) :
    Source.readLines false (lines (front ++ (p.text.toList ++ [')']))) =
      .statement (.parameter { p with name := p.name ++ ")" }) := by
  rw [Source.readLines_code (isCode_row hfront hp (by decide)),
    readPiece_row_parameter hfront hp [')'] [] (by decide) (List.forall_mem_nil _)
      hp.isRead_closed.ends rfl (by simp [String.toList_append])]

/-- A second parameter on a line is more than a declaration can do with. -/
theorem errors_readLines_row {front cs : List Char} (hfront : ∀ c ∈ front, c = ' ')
    {p : Parameter} (hp : IsIdentifier p.name) (hcs : ∀ c ∈ cs, c = '\n' ∨ isPlain c = true) :
    (Source.readLines false
      (lines (front ++ (p.text.toList ++ ',' :: ' ' :: (".param".toList ++ ' ' :: cs))))).errors ≠
        [] := by
  have hcode : IsCode (front ++ (p.text.toList ++ [',']) ++ ' ' :: (".param".toList ++ [' '])) :=
    (isCode_append_right (by decide)).2 (isCode_row hfront hp (by decide))
  obtain ⟨row, r, hlines⟩ := Source.exists_readLines_append hcode hcs
  have htext : front ++ (p.text.toList ++ ',' :: ' ' :: (".param".toList ++ ' ' :: cs)) =
      front ++ (p.text.toList ++ [',']) ++ ' ' :: (".param".toList ++ [' ']) ++ cs := by
    simp
  have hwords : words (front ++ (p.text.toList ++ [',']) ++ ' ' :: (".param".toList ++ [' ']) ++
      row) = ".param".toList :: ('.' :: p.type.name.toList) :: (p.name.toList ++ [',']) ::
        ".param".toList :: words row := by
    rw [List.append_assoc, List.cons_append, words_append_cons (by decide),
      words_row hfront hp (by decide), List.append_assoc, List.singleton_append,
      words_append_blank (by decide) (by decide)]
    rfl
  rw [htext, hlines, Reading.errors_append]
  exact List.append_ne_nil_of_left_ne_nil (errors_readPiece_row hwords) _

theorem readLines_parenthesis {front : List Char} (hfront : ∀ c ∈ front, c = ' ') :
    Source.readLines false (lines (front ++ [')'])) = {} := by
  have htrim : trim (front ++ [')'] ++ []) = [')'] :=
    trim_append (trimmed_of_forall (by decide)) (fun c hc => by rw [hfront c hc]; decide)
      (List.forall_mem_nil _)
  rw [List.append_nil] at htrim
  rw [Source.readLines_code ((isCode_append_right (by decide)).2
    (isCode_of_forall fun c hc => by rw [hfront c hc]; decide)), htrim]
  exact Source.readPiece_body fun _ _ h => by cases h

theorem statements_append_eq_iff (ss : List Statement) {ss' : List Statement} {r : Reading} :
    { statements := ss } ++ r = ({ statements := ss ++ ss' } : Reading) ↔
      r = { statements := ss' } := by
  constructor
  · intro h
    have herrors : ({ statements := ss } ++ r : Reading).errors = [] := by rw [h]
    exact Reading.ext (List.append_cancel_left (congrArg Reading.statements h)) herrors
  · rintro rfl
    rfl

/-- Behind a line break every further place must be broken. -/
theorem readLines_parameterLayout_iff {ps : List (Parameter × Bool)}
    (h : ∀ p ∈ ps, IsIdentifier p.1.name) (front : List Char) (hfront : ∀ c ∈ front, c = ' ') :
    Source.readLines false (lines (front ++ parameterLayout ps)) =
        { statements := ps.map fun p => .parameter p.1 } ↔ ∀ b ∈ ps.map Prod.snd, b = true := by
  induction ps using parameterLayout.induct generalizing front with
  | case1 => exact iff_of_true (readLines_parenthesis hfront) (List.forall_mem_nil _)
  | case2 p broken =>
    have hp := h _ (List.mem_singleton_self _)
    cases broken with
    | false =>
      -- The parenthesis becomes part of the last name.
      refine iff_of_false (fun hread => ?_) (by simp)
      have hread' := (readLines_row_closed hfront hp).symm.trans hread
      have hname := congrArg String.length (Parameter.mk.inj (Statement.parameter.inj
        (List.cons.inj (congrArg Reading.statements hread')).1)).1
      simp at hname
    | true =>
      have htext : front ++ parameterLayout [(p, true)] =
          front ++ (p.text.toList ++ []) ++ ['\n'] ++ [')'] := by
        simp [parameterLayout, lineBreak]
      have hclosing := readLines_parenthesis (List.forall_mem_nil (· = ' '))
      rw [List.nil_append] at hclosing
      rw [htext, reads_row hfront hp (.inl rfl), hclosing]
      exact iff_of_true rfl (by simp)
  | case3 p broken next rest ih =>
    obtain ⟨hp, hrest⟩ := List.forall_mem_cons.1 h
    cases broken with
    | false =>
      refine iff_of_false (fun hread => ?_) (by simp)
      obtain ⟨cs, hcs⟩ := exists_parameterLayout next rest
      have hplain : ∀ c ∈ cs, c = '\n' ∨ isPlain c = true := fun c hc =>
        isPlain_of_mem_parameterLayout hrest c (by rw [hcs]; simp [hc])
      have htext : front ++ parameterLayout ((p, false) :: next :: rest) =
          front ++ (p.text.toList ++ ',' :: ' ' :: (".param".toList ++ ' ' :: cs)) := by
        simp [parameterLayout, lineBreak, hcs]
      rw [htext] at hread
      exact errors_readLines_row hfront hp hplain (congrArg Reading.errors hread)
    | true =>
      have htext : front ++ parameterLayout ((p, true) :: next :: rest) =
          front ++ (p.text.toList ++ [',']) ++ ['\n'] ++
            ([' '] ++ parameterLayout (next :: rest)) := by
        simp [parameterLayout, lineBreak]
      have hlines := ih hrest [' '] (by decide)
      rw [htext, reads_row hfront hp (.inr rfl), List.map_cons (f := Prod.snd),
        List.forall_mem_cons]
      exact (statements_append_eq_iff [.parameter p]).trans
        (hlines.trans (and_iff_right rfl).symm)

/-! ## The first line -/

theorem pairwise_le_true_cons {bs : List Bool} :
    (true :: bs).Pairwise (· ≤ ·) ↔ ∀ b ∈ bs, b = true := by
  rw [List.pairwise_cons]
  constructor
  · exact fun h b hb => Bool.eq_true_of_true_le (h.1 b hb)
  · intro h
    refine ⟨fun b hb => Bool.le_of_eq (h b hb).symm, ?_⟩
    rw [List.eq_replicate_of_mem h]
    exact List.pairwise_replicate.2 (.inr (Bool.le_refl true))

theorem pairwise_le_false_cons {bs : List Bool} :
    (false :: bs).Pairwise (· ≤ ·) ↔ bs.Pairwise (· ≤ ·) := by
  rw [List.pairwise_cons]
  exact and_iff_right fun b _ => Bool.false_le b

section firstLine

variable {name : String} (hname : IsIdentifier name) {us : List Parameter}
  (hus : ∀ p ∈ us, IsIdentifier p.name)

/-- Parameters in a list that goes on behind them. -/
def listedParameters (us : List Parameter) : List Char :=
  us.flatMap fun p => p.text.toList ++ [',', ' ']

theorem listedParameters_cons_append (p : Parameter) (us : List Parameter) (cs : List Char) :
    listedParameters (p :: us) ++ cs =
      p.text.toList ++ ',' :: ' ' :: (listedParameters us ++ cs) := by
  simp [listedParameters]

include hus

theorem parenthesis_not_mem_listedParameters : ')' ∉ listedParameters us := by
  intro hmem
  obtain ⟨p, hp, hmem⟩ := List.mem_flatMap.1 hmem
  rcases List.mem_append.1 hmem with hmem | hmem
  · exact (hus p hp).parenthesis_not_mem hmem
  · exact absurd hmem (by decide)

theorem isCode_listedParameters {cs : List Char} (hcs : IsCode cs) :
    IsCode (listedParameters us ++ cs) := by
  induction us with
  | nil => exact hcs
  | cons p us ih =>
    obtain ⟨hp, hus⟩ := List.forall_mem_cons.1 hus
    rw [listedParameters_cons_append, isCode_append_cons (by decide), isCode_cons (by decide)]
    exact ⟨isCode_parameter hp.isRead, ih hus⟩

theorem readHeaderParameters_listedParameters (cs : List Char) :
    readHeaderParameters (listedParameters us ++ cs) =
      { statements := us.map .parameter } ++ readHeaderParameters cs := by
  induction us with
  | nil => rfl
  | cons p us ih =>
    obtain ⟨hp, hus⟩ := List.forall_mem_cons.1 hus
    rw [listedParameters_cons_append,
      readHeaderParameters_cons hp.isRead (hp.isToken.not_mem (by decide)), ih hus]
    rfl

include hname

/-- On the first line a parameter may have a comma or a parenthesis behind it, or nothing. -/
theorem readPiece_firstLine {p : Parameter} (hp : IsIdentifier p.name) {behind : List Char}
    (hbehind : behind = [] ∨ behind = [','] ∨ behind = [')']) :
    IsCode (headerText name (listedParameters us ++ (p.text.toList ++ behind))) ∧
      Source.readPiece (trim (headerText name (listedParameters us ++ (p.text.toList ++ behind)))) =
        { statements := .entry name :: (us ++ [p]).map .parameter } := by
  have hcode : IsCode (listedParameters us ++ (p.text.toList ++ behind)) := by
    refine isCode_listedParameters hus ((isCode_append_right ?_).2 (isCode_parameter hp.isRead))
    rcases hbehind with rfl | rfl | rfl <;> decide
  have hlast : ∀ c ∈ (listedParameters us ++ (p.text.toList ++ behind)).getLast?,
      isBlank c = false := by
    have hne : p.text.toList ++ behind ≠ [] := by simp [toList_parameter]
    rw [List.getLast?_append_of_ne_nil _ hne]
    rcases hbehind with rfl | rfl | rfl
    · rw [List.append_nil]
      exact (trimmed_parameter hp.isRead).2
    · rw [List.getLast?_concat]
      decide
    · rw [List.getLast?_concat]
      decide
  have hlist : readHeaderParameters (dropEndWhile (· == ')')
      (listedParameters us ++ (p.text.toList ++ behind))) =
        { statements := (us ++ [p]).map .parameter } := by
    have hcomma := hp.isToken.not_mem (d := ',') (by decide)
    have hself := readHeaderParameters_text hp.isRead hcomma
    have hnot := hp.parenthesis_not_mem
    -- The name does not end with a parenthesis itself, so one that closes the list is all that
    -- goes.
    have hdrop : dropEndWhile (· == ')') (listedParameters us ++ p.text.toList) =
        listedParameters us ++ p.text.toList := by
      refine dropEndWhile_of_getLast?_ne ?_
      rw [List.getLast?_append_of_ne_nil _ (by simp [toList_parameter])]
      exact fun hparenthesis => hnot (List.mem_of_getLast? hparenthesis)
    rcases hbehind with rfl | rfl | rfl
    · rw [List.append_nil, hdrop, readHeaderParameters_listedParameters hus, hself, List.map_append]
      rfl
    · rw [dropEndWhile_of_getLast? (by simp), readHeaderParameters_listedParameters hus,
        readHeaderParameters_append_cons, hself, List.map_append]
      rfl
    · rw [← List.append_assoc, dropEndWhile_append_of_forall (by simp), hdrop,
        readHeaderParameters_listedParameters hus, hself, List.map_append]
      rfl
  refine ⟨isCode_headerText hname.isTitle hcode, ?_⟩
  rw [readPiece_headerText hname.isTitle hlast, hlist, if_neg hname.ne_empty]
  rfl

theorem readLines_firstLine_nil :
    Source.readLines false (lines (headerText name (listedParameters us ++ [')']))) =
      { statements := .entry name :: us.map .parameter } := by
  have hdrop : dropEndWhile (· == ')') (listedParameters us ++ [')']) = listedParameters us := by
    rw [dropEndWhile_append_of_forall (by simp)]
    exact dropEndWhile_of_getLast?_ne fun hparenthesis =>
      parenthesis_not_mem_listedParameters hus (List.mem_of_getLast? hparenthesis)
  have hlist := readHeaderParameters_listedParameters hus []
  rw [List.append_nil, show readHeaderParameters [] = {} from rfl, Reading.append_empty] at hlist
  rw [Source.readLines_code (isCode_headerText hname.isTitle
      (isCode_listedParameters hus (isCode_of_forall (by decide)))),
    readPiece_headerText hname.isTitle (by rw [List.getLast?_concat]; decide), hdrop, hlist,
    if_neg hname.ne_empty]
  rfl

theorem readLines_firstLine_singleton {p : Parameter} (hp : IsIdentifier p.name) (broken : Bool) :
    Source.readLines false
        (lines (headerText name (listedParameters us ++ parameterLayout [(p, broken)]))) =
      { statements := .entry name :: (us ++ [p]).map .parameter } := by
  cases broken with
  | false =>
    obtain ⟨hcode, hread⟩ := readPiece_firstLine hname hus hp (.inr (.inr rfl))
    exact (Source.readLines_code hcode).trans hread
  | true =>
    obtain ⟨hcode, hread⟩ := readPiece_firstLine hname hus hp (.inl rfl)
    have hreads := Source.reads_code hcode [')']
    have hclosing := readLines_parenthesis (List.forall_mem_nil (· = ' '))
    rw [List.nil_append] at hclosing
    have htext : headerText name (listedParameters us ++ parameterLayout [(p, true)]) =
        headerText name (listedParameters us ++ (p.text.toList ++ [])) ++ ['\n'] ++ [')'] := by
      simp [parameterLayout, lineBreak, headerText]
    rw [htext, hreads, hread, hclosing]
    exact Reading.append_empty _

/-- As long as no place is broken the first line goes on, and behind the first broken place every
other one must be broken. -/
theorem readLines_firstLine_iff {ps : List (Parameter × Bool)}
    (h : ∀ p ∈ ps, IsIdentifier p.1.name) :
    Source.readLines false (lines (headerText name (listedParameters us ++ parameterLayout ps))) =
        { statements := .entry name :: (us ++ ps.map Prod.fst).map .parameter } ↔
      (ps.map Prod.snd).Pairwise (· ≤ ·) := by
  induction ps using parameterLayout.induct generalizing us with
  | case1 =>
    refine iff_of_true ?_ .nil
    rw [parameterLayout, readLines_firstLine_nil hname hus, List.map_nil, List.append_nil]
  | case2 p broken =>
    have hp := h _ (List.mem_singleton_self _)
    exact iff_of_true (readLines_firstLine_singleton hname hus hp broken)
      (List.pairwise_singleton _ _)
  | case3 p broken next rest ih =>
    obtain ⟨hp, hrest⟩ := List.forall_mem_cons.1 h
    cases broken with
    | false =>
      have hus' : ∀ q ∈ us ++ [p], IsIdentifier q.name :=
        List.forall_mem_append.2 ⟨hus, List.forall_mem_singleton.2 hp⟩
      have htext : listedParameters us ++ parameterLayout ((p, false) :: next :: rest) =
          listedParameters (us ++ [p]) ++ parameterLayout (next :: rest) := by
        simp [listedParameters, parameterLayout, lineBreak]
      have hlines := ih hus' hrest
      rw [List.append_assoc] at hlines
      rw [htext, List.map_cons (f := Prod.snd), pairwise_le_false_cons, ← hlines]
      rfl
    | true =>
      obtain ⟨hcode, hread⟩ := readPiece_firstLine hname hus hp (.inr (.inl rfl))
      have hreads := Source.reads_code hcode (' ' :: parameterLayout (next :: rest))
      have htext : headerText name (listedParameters us ++
          parameterLayout ((p, true) :: next :: rest)) =
          headerText name (listedParameters us ++ (p.text.toList ++ [','])) ++ ['\n'] ++
            ' ' :: parameterLayout (next :: rest) := by
        simp [parameterLayout, lineBreak, headerText]
      have hlines := readLines_parameterLayout_iff hrest [' '] (by decide)
      have hstatements : .entry name :: (us ++ ((p, true) :: next :: rest).map Prod.fst).map
          Statement.parameter = (.entry name :: (us ++ [p]).map .parameter) ++
            (next :: rest).map fun p => .parameter p.1 := by
        simp
      rw [htext, hreads, hread, hstatements, List.map_cons (f := Prod.snd), pairwise_le_true_cons]
      exact (statements_append_eq_iff _).trans hlines

end firstLine

/-- A header is read as the name of the kernel and its parameters, as they stand in the list,
exactly if no place behind a broken one is left unbroken. -/
theorem read_headerLayout_iff {name : String} (hname : IsIdentifier name) (broken : Bool)
    {ps : List (Parameter × Bool)} (h : ∀ p ∈ ps, IsIdentifier p.1.name) :
    Source.read (headerLayout name broken ps) =
        { statements := .entry name :: ps.map fun p => .parameter p.1 } ↔
      (broken :: ps.map Prod.snd).Pairwise (· ≤ ·) := by
  rw [Source.read, headerLayout, String.toList_ofList]
  cases broken with
  | false =>
    have hline := readLines_firstLine_iff hname (List.forall_mem_nil _) h
    rw [List.nil_append, List.map_map] at hline
    rw [pairwise_le_false_cons, ← hline]
    rfl
  | true =>
    have hread :
        Source.readPiece (trim (headerText name [])) = { statements := [.entry name] } := by
      rw [readPiece_headerText hname.isTitle (fun c hc => by cases hc), if_neg hname.ne_empty]
      rfl
    have hreads := Source.reads_code (isCode_headerText hname.isTitle isCode_nil)
      (parameterLayout ps)
    have htext : headerText name (lineBreak true ++ parameterLayout ps) =
        headerText name [] ++ ['\n'] ++ parameterLayout ps := by
      simp [lineBreak, headerText]
    have hlines := readLines_parameterLayout_iff h [] (List.forall_mem_nil _)
    rw [List.nil_append] at hlines
    rw [htext, hreads, hread, pairwise_le_true_cons]
    exact (statements_append_eq_iff [.entry name]).trans
      hlines

/-- Three parameters, of which the first two stand on the line of the keyword. -/
def scaleParameters : List (Parameter × Bool) :=
  [(⟨"input", .u64⟩, false), (⟨"output", .u64⟩, true), (⟨"factor", .f32⟩, true)]

theorem read_headerLayout_scale : IsIdentifier "scale" ∧
    (∀ p ∈ scaleParameters, IsIdentifier p.1.name) ∧
    Source.read (headerLayout "scale" false scaleParameters) =
      { statements := .entry "scale" :: scaleParameters.map fun p => .parameter p.1 } := by
  have hname : IsIdentifier "scale" := by decide
  have hparameters : ∀ p ∈ scaleParameters, IsIdentifier p.1.name := by decide
  exact ⟨hname, hparameters, (read_headerLayout_iff hname false hparameters).2 (by decide)⟩

/-- A header that is broken in front of its only parameter and not behind it. -/
def unevenHeader : String := headerLayout "f" true [(⟨"a", .u32⟩, false)]

/-- The parenthesis behind the parameter becomes a part of its name, and no error is found. -/
theorem not_read_unevenHeader : unevenHeader = ".entry f(\n.param .u32 a)" ∧
    IsIdentifier "f" ∧ IsIdentifier "a" ∧
    Source.read unevenHeader = { statements := [.entry "f", .parameter ⟨"a)", .u32⟩] } ∧
    Source.read unevenHeader ≠ { statements := [.entry "f", .parameter ⟨"a", .u32⟩] } := by
  have hread : Source.read unevenHeader =
      { statements := [.entry "f", .parameter ⟨"a)", .u32⟩] } := by decide +kernel
  refine ⟨by decide, by decide, by decide, hread, ?_⟩
  rw [hread]
  decide

end Statement

end KernelListing
