import KernelListing.Proofs.Text.Token
import KernelListing.Source

/-!
# Reading text line by line

A text that ends its last line and leaves no comment open is read alike whatever follows it:
`Reads cs r` says that `cs` is such a text, and that it is read as `r`. Readings of such texts are
joined (`reads_append`), so the reading of a listing is put together from those of its lines.
-/

namespace KernelListing.Source

open Text

/-- A text is read in a certain way, whatever follows it. -/
def Reads (cs : List Char) (r : Reading) : Prop :=
  ∀ rest, readLines false (lines (cs ++ rest)) = r ++ readLines false (lines rest)

theorem reads_nil : Reads [] {} := fun _ => rfl

theorem reads_append {cs cs' : List Char} {r r' : Reading} (h : Reads cs r) (h' : Reads cs' r') :
    Reads (cs ++ cs') (r ++ r') := by
  intro rest
  rw [List.append_assoc, h, h', Reading.append_assoc]

theorem read_of_reads {text : String} {r : Reading} (h : Reads text.toList r) : read text = r := by
  have hread := h []
  rw [List.append_nil] at hread
  rw [read, hread]
  exact Reading.append_empty r

/-- Lines that are read as some statements, whatever follows them. -/
def ReadsLines (ls : List String) (ss : List Statement) : Prop :=
  Reads (ofLines ls).toList { statements := ss }

theorem readsLines_nil : ReadsLines [] [] := reads_nil

theorem readsLines_singleton {l : String} {ss : List Statement}
    (h : Reads (l.toList ++ ['\n']) { statements := ss }) : ReadsLines [l] ss := by
  rw [ReadsLines, toList_ofLines]
  simpa using h

theorem readsLines_append {ls ls' : List String} {ss ss' : List Statement} (h : ReadsLines ls ss)
    (h' : ReadsLines ls' ss') : ReadsLines (ls ++ ls') (ss ++ ss') := by
  rw [ReadsLines, toList_ofLines, List.flatMap_append, ← toList_ofLines, ← toList_ofLines]
  exact reads_append h h'

theorem readsLines_flatMap {α : Type} {as : List α} {f : α → List String} {g : α → List Statement}
    (h : ∀ a ∈ as, ReadsLines (f a) (g a)) : ReadsLines (as.flatMap f) (as.flatMap g) := by
  induction as with
  | nil => exact readsLines_nil
  | cons a as ih =>
    obtain ⟨ha, has⟩ := List.forall_mem_cons.1 h
    exact readsLines_append ha (ih has)

theorem readsLines_map {α : Type} {as : List α} {f : α → String} {g : α → Statement}
    (h : ∀ a ∈ as, Reads ((f a).toList ++ ['\n']) (.statement (g a))) :
    ReadsLines (as.map f) (as.map g) := by
  rw [List.map_eq_flatMap, List.map_eq_flatMap]
  exact readsLines_flatMap fun a ha => readsLines_singleton (h a ha)

theorem readsLines_silent {ls : List String} (h : ∀ l ∈ ls, Reads (l.toList ++ ['\n']) {}) :
    ReadsLines ls [] := by
  induction ls with
  | nil => exact readsLines_nil
  | cons l ls ih =>
    obtain ⟨hl, hls⟩ := List.forall_mem_cons.1 h
    have hfirst : ReadsLines [l] [] := readsLines_singleton hl
    have hlines := readsLines_append hfirst (ih hls)
    rwa [List.append_nil, List.singleton_append] at hlines

theorem reads_line {line code : List Char} {r : Reading} (hnewline : '\n' ∉ line)
    (hlast : line.getLast? ≠ some '\r') (hcode : stripComments false line = (code, false))
    (hread : readCode code = r) : Reads (line ++ ['\n']) r := by
  intro rest
  rw [List.append_assoc, List.singleton_append, lines_append_cons, split_of_not_mem hnewline,
    List.map_singleton, dropReturn_of_getLast? hlast, List.singleton_append, readLines, hcode,
    hread]

/-! ## Code -/

theorem readCode_of_not_mem {cs : List Char} (h : ';' ∉ cs) :
    readCode cs = readPiece (trim cs) := by
  rw [readCode, split_of_not_mem h]
  exact Reading.append_empty _

theorem readCode_append {cs : List Char} (h : ';' ∉ cs) (cs' : List Char) :
    readCode (cs ++ ';' :: cs') = readPiece (trim cs) ++ readCode cs' := by
  rw [readCode, split_append_cons (p := (· == ';')) rfl, split_of_not_mem h]
  rfl

theorem readPiece_nil : readPiece [] = {} := by
  rw [readPiece_body fun _ _ h => by cases h]
  rfl

theorem readCode_nil : readCode [] = {} := by
  rw [readCode_of_not_mem List.not_mem_nil, trim_nil, readPiece_nil]

theorem readCode_piece (front : List Char) {cs : List Char} (hfront : ∀ c ∈ front, c = ' ')
    (hcode : IsCode cs) (htrimmed : Trimmed cs) : (front ++ cs ++ [';']).IsChain Apart ∧
      '\n' ∉ front ++ cs ++ [';'] ∧ readCode (front ++ cs ++ [';']) = readPiece cs := by
  have hblank : ∀ c ∈ front, isBlank c = true := fun c hc => by rw [hfront c hc]; decide
  have hplain : ∀ c ∈ front, isPlain c = true := fun c hc => by rw [hfront c hc]; decide
  have hline : IsCode (front ++ cs) := (isCode_append_left hplain).2 hcode
  have hpiece : trim (front ++ cs) = cs := by
    have htrim := trim_append htrimmed hblank (List.forall_mem_nil _)
    rwa [List.append_nil] at htrim
  refine ⟨?_, ?_, ?_⟩
  · refine List.isChain_append.2 ⟨hline.apart, List.isChain_singleton _, fun c _ c' hc' => ?_⟩
    rw [← Option.some.inj hc']
    rintro ⟨-, h | h⟩
    · exact absurd h (by decide)
    · exact absurd h (by decide)
  · rw [List.mem_append, not_or]
    exact ⟨hline.newline, by decide⟩
  · rw [readCode_append hline.semicolon, hpiece, readCode_nil]
    exact Reading.append_empty _

theorem reads_piece {front cs : List Char} (hfront : ∀ c ∈ front, c = ' ') (hcode : IsCode cs)
    (htrimmed : Trimmed cs) : Reads (front ++ cs ++ [';'] ++ ['\n']) (readPiece cs) := by
  obtain ⟨hchain, hnewline, hread⟩ := readCode_piece front hfront hcode htrimmed
  refine reads_line hnewline ?_ (stripComments_of_isChain hchain) hread
  rw [List.getLast?_concat]
  decide

theorem read_piece {text : String} {cs : List Char} (htext : text.toList = cs ++ [';'])
    (hcode : IsCode cs) (htrimmed : Trimmed cs) : read text = readPiece cs := by
  obtain ⟨hchain, hnewline, hread⟩ :=
    readCode_piece [] (List.forall_mem_nil _) hcode htrimmed
  rw [List.nil_append] at hchain hnewline hread
  have hlines : lines (cs ++ [';']) = [cs ++ [';']] := by
    rw [lines, split_of_not_mem hnewline]
    simp
  rw [read, htext, hlines, readLines, stripComments_of_isChain hchain, hread]
  exact Reading.append_empty _

theorem reads_code {cs : List Char} (hcode : IsCode cs) :
    Reads (cs ++ ['\n']) (readPiece (trim cs)) := by
  intro rest
  have hcode' := hcode.part (dropReturn_isPrefix cs).isInfix
  rw [List.append_assoc, List.singleton_append, lines_append_cons, split_of_not_mem hcode.newline,
    List.map_singleton, List.singleton_append, readLines, stripComments_of_isChain hcode'.apart,
    readCode_of_not_mem hcode'.semicolon, trim_dropReturn]

/-- A piece of code in the last line of a text, which no newline ends. -/
theorem readLines_code {cs : List Char} (hcode : IsCode cs) :
    readLines false (lines cs) = readPiece (trim cs) := by
  rw [lines, split_of_not_mem hcode.newline]
  by_cases hempty : cs = []
  · subst hempty
    exact readPiece_nil.symm
  · have hline : ([cs].getLast?.filter (! ·.isEmpty)).toList = [cs] := by simp [hempty]
    rw [hline, List.dropLast_singleton, List.map_nil, List.nil_append, readLines,
      stripComments_of_isChain hcode.apart, readCode_of_not_mem hcode.semicolon]
    exact Reading.append_empty _

/-- The first line of a text is read by itself, whatever the others are. -/
theorem exists_readLines_append {front cs : List Char} (hfront : IsCode front)
    (h : ∀ c ∈ cs, c = '\n' ∨ isPlain c = true) : ∃ row r,
      readLines false (lines (front ++ cs)) = readPiece (trim (front ++ row)) ++ r := by
  by_cases hmem : '\n' ∈ cs
  · obtain ⟨row, rest, rfl, hrow⟩ := List.eq_append_cons_of_mem hmem
    have hplain : ∀ c ∈ row, isPlain c = true := fun c hc =>
      (h c (List.mem_append_left _ hc)).resolve_left fun heq => hrow (heq ▸ hc)
    have hreads := reads_code ((isCode_append_right hplain).2 hfront) rest
    rw [List.append_assoc, List.append_assoc, List.singleton_append] at hreads
    exact ⟨row, _, hreads⟩
  · have hplain : ∀ c ∈ cs, isPlain c = true := fun c hc =>
      (h c hc).resolve_left fun heq => hmem (heq ▸ hc)
    refine ⟨cs, {}, ?_⟩
    rw [readLines_code ((isCode_append_right hplain).2 hfront), Reading.append_empty]

theorem read_code {text : String} (hcode : IsCode text.toList) :
    read text = readPiece (trim text.toList) :=
  readLines_code hcode

/-! ## Comments -/

theorem stripComments_nil : stripComments false [] = ([], false) := stripComments_none rfl

theorem stripComments_closing {cs : List Char} (h : cs.IsChain Open) :
    stripComments true (cs ++ ['*', '/']) = ([], false) := by
  rw [stripComments_inside_some (afterComment?_append h []), stripComments_nil]

theorem isChain_open_append {cs cs' : List Char} {c : Char} (hc : c ≠ '*' ∧ c ≠ '/')
    (h : cs.IsChain Open) (h' : cs'.IsChain Open) : (cs ++ c :: cs').IsChain Open := by
  refine List.isChain_append.2 ⟨h, List.isChain_cons.2 ⟨fun c' _ hopen => hc.1 hopen.1, h'⟩, ?_⟩
  intro c' _ c'' hc'' hopen
  rw [← Option.some.inj hc''] at hopen
  exact hc.2 hopen.2

/-- A comment behind some code, with blanks around it and within it. -/
theorem stripComments_comment {cs comment : List Char} (hcs : IsCode cs)
    (hcomment : comment.IsChain Open) :
    stripComments false (cs ++ ([' ', '/', '*', ' '] ++ comment ++ [' ', '*', '/'])) =
      (cs ++ [' ', ' '], false) := by
  have hopen : (' ' :: (comment ++ [' '])).IsChain Open :=
    List.isChain_cons.2 ⟨fun c _ hclose => absurd hclose.1 (by decide),
      isChain_open_append (by decide) hcomment List.isChain_nil⟩
  have hcode : (cs ++ [' ']).IsChain Apart := ((isCode_append_right (by decide)).2 hcs).apart
  have hlast : (cs ++ [' ']).getLast? ≠ some '/' := by
    rw [List.getLast?_concat]
    decide
  have hline : cs ++ ([' ', '/', '*', ' '] ++ comment ++ [' ', '*', '/']) =
      (cs ++ [' ']) ++ '/' :: '*' :: ((' ' :: (comment ++ [' '])) ++ ['*', '/']) := by simp
  rw [hline, stripComments_block (beforeComment_append_block hcode hlast _),
    stripComments_closing hopen, List.append_assoc]
  rfl

section label

variable {front name : List Char} (hfront : ∀ c ∈ front, c = ' ') (hname : isLabelName name = true)

include hfront hname

theorem isCode_label : IsCode (front ++ name ++ [':']) := by
  refine isCode_of_forall fun c hc => ?_
  rw [List.mem_append, List.mem_append] at hc
  rcases hc with (hc | hc) | hc
  · rw [hfront c hc]
    decide
  · exact isPlain_of_isTokenChar (isToken_of_isLabelName hname c hc)
  · rw [List.mem_singleton.1 hc]
    decide

theorem readCode_label {back : List Char} (hback : ∀ c ∈ back, c = ' ') :
    readCode (front ++ name ++ [':'] ++ back) = .statement (.label (String.ofList name)) := by
  have htoken := isToken_of_isLabelName hname
  have htrim := trim_eq_self htoken.trimmed
  have hblank : ∀ {cs : List Char}, (∀ c ∈ cs, c = ' ') → ∀ c ∈ cs, isBlank c = true :=
    fun hcs c hc => by rw [hcs c hc]; decide
  have hsemicolon : ';' ∉ front ++ name ++ [':'] ++ back := by
    rw [List.mem_append, not_or]
    exact ⟨(isCode_label hfront hname).semicolon, fun hmem => absurd (hback _ hmem) (by decide)⟩
  have htrimmed : Trimmed (name ++ [':']) := by
    refine trimmed_append htoken.trimmed.1 (isLabelName_ne_nil hname) ?_ (List.cons_ne_nil _ _)
    intro c hc
    rw [← Option.some.inj hc]
    decide
  have hcut : cutAt? (· == ':') (name ++ [':']) = some (name, []) :=
    cutAt?_append_cons (htoken.ne (by decide)) rfl []
  rw [readCode_of_not_mem hsemicolon, List.append_assoc front,
    trim_append htrimmed (hblank hfront) (hblank hback),
    readPiece_label hcut (by rwa [htrim]), htrim, trim_nil, readPiece_nil]
  exact Reading.append_empty _

/-- The name of a label, ended by a colon, with a comment behind it. -/
theorem reads_label {comment : List Char} (hcomment : IsToken comment) :
    Reads (front ++ name ++ [':'] ++
      (if comment.isEmpty then []
        else [' ', '/', '*', ' '] ++ comment ++ [' ', '*', '/']) ++ ['\n'])
      (.statement (.label (String.ofList name))) := by
  have hcode := isCode_label hfront hname
  split
  · rw [List.append_nil]
    refine reads_line hcode.newline ?_ (stripComments_of_isChain hcode.apart) ?_
    · rw [List.getLast?_concat]
      decide
    · simpa using readCode_label hfront hname (List.forall_mem_nil _)
  · have hbehind : '\n' ∉ [' ', '/', '*', ' '] ++ comment ++ [' ', '*', '/'] := by
      simp [hcomment.not_mem (d := '\n') (by decide)]
    refine reads_line ?_ ?_ (stripComments_comment hcode hcomment.isChain_open)
      (readCode_label hfront hname (by decide))
    · rw [List.mem_append, not_or]
      exact ⟨hcode.newline, hbehind⟩
    · rw [← List.append_assoc, List.getLast?_append_of_ne_nil _ (List.cons_ne_nil _ _)]
      decide

end label

/-- A line that opens a comment is read like one within it. -/
theorem readLines_opening (line : List Char) (rest : List (List Char)) :
    readLines false (('/' :: '*' :: line) :: rest) = readLines true (line :: rest) := by
  have hstrip := stripComments_block (show beforeComment ('/' :: '*' :: line) = ([], .block line)
    from rfl)
  have hread : ∀ cs, readCode (' ' :: cs) = readCode cs := by
    intro cs
    rw [readCode, readCode, split_cons, if_neg (by decide)]
    cases hs : split (· == ';') cs with
    | nil => exact absurd hs (split_ne_nil _ cs)
    | cons piece pieces => rfl
  rw [readLines, hstrip, readLines, List.nil_append, hread]

theorem readLines_closing {cs : List Char} (h : cs.IsChain Open) (rest : List (List Char)) :
    readLines true ((split (· == '\n') (cs ++ ['*', '/'])).map dropReturn ++ rest) =
      readLines false rest := by
  -- Line by line up to the one that ends the comment; none before it can.
  induction hlength : cs.length using Nat.strongRecOn generalizing cs with
  | ind length ih =>
    by_cases hmem : '\n' ∈ cs
    · obtain ⟨front, back, rfl, hfront⟩ := List.eq_append_cons_of_mem hmem
      obtain ⟨hopen, hopen', -⟩ := List.isChain_append.1 h
      have hreturn : (dropReturn front).IsChain Open :=
        List.IsChain.infix hopen (dropReturn_isPrefix front).isInfix
      rw [List.append_assoc, List.cons_append, split_append_cons (p := (· == '\n')) rfl,
        split_of_not_mem hfront, List.map_append, List.map_singleton, List.append_assoc,
        List.singleton_append, readLines,
        stripComments_inside_none (afterComment?_of_isChain hreturn), readCode_nil]
      refine ih back.length ?_ (List.isChain_cons.1 hopen').2 rfl
      rw [← hlength]
      simp
      omega
    · have hline : ∀ c ∈ cs ++ ['*', '/'], (c == '\n') = false := by
        intro c hc
        rw [beq_eq_false_iff_ne]
        rintro rfl
        rcases List.mem_append.1 hc with hc | hc
        · exact hmem hc
        · exact absurd hc (by decide)
      have hlast : (cs ++ ['*', '/']).getLast? ≠ some '\r' := by simp
      rw [split_of_forall hline, List.map_singleton, dropReturn_of_getLast? hlast,
        List.singleton_append, readLines, stripComments_closing h, readCode_nil]
      rfl

theorem reads_comment {cs : List Char} (h : cs.IsChain Open) :
    Reads ('/' :: '*' :: (cs ++ ['*', '/']) ++ ['\n']) {} := by
  intro rest
  have hreturn : ∀ piece, dropReturn ('/' :: '*' :: piece) = '/' :: '*' :: dropReturn piece := by
    intro piece
    rw [dropReturn_cons (by decide), dropReturn_cons (by decide)]
  have hclosing := readLines_closing h (lines rest)
  rw [List.append_assoc, List.singleton_append, lines_append_cons, split_cons,
    if_neg (by decide), split_cons, if_neg (by decide)]
  cases hs : split (· == '\n') (cs ++ ['*', '/']) with
  | nil => exact absurd hs (split_ne_nil _ _)
  | cons piece pieces =>
    rw [hs] at hclosing
    rw [consFirst, consFirst, List.map_cons, hreturn, List.cons_append, readLines_opening]
    exact hclosing

end KernelListing.Source
