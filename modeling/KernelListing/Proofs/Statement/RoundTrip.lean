import KernelListing.Proofs.Source.Lines
import KernelListing.Proofs.Statement.Declaration
import KernelListing.Register.Declarations

/-!
# The lines of the declarations

How the header of a kernel, the declarations of its variables and those of its registers are read.
Registers are passed over, for they follow from the instructions.
-/

namespace KernelListing

open Text

namespace Parameter

/-- The parameter whose name has lost the parentheses at its end. -/
def clipped (p : Parameter) : Parameter :=
  { p with name := String.ofList (dropEndWhile (· == ')') p.name.toList) }

theorem clipped_eq_self {p : Parameter} (h : ')' ∉ p.name.toList) : p.clipped = p := by
  have hname : dropEndWhile (· == ')') p.name.toList = p.name.toList :=
    dropEndWhile_of_getLast?_ne fun hparenthesis => h (List.mem_of_getLast? hparenthesis)
  rw [clipped, hname, String.ofList_toList]

theorem IsRead.clipped {p : Parameter} (h : p.IsRead) (hcomma : ',' ∉ p.name.toList)
    (hname : ∃ c ∈ p.name.toList, c ≠ ')') :
    p.clipped.IsRead ∧ ',' ∉ p.clipped.name.toList := by
  have hlist : p.clipped.name.toList = dropEndWhile (· == ')') p.name.toList :=
    String.toList_ofList
  have hpart := dropEndWhile_isPrefix (· == ')') p.name.toList
  have hcomma' : ',' ∉ p.clipped.name.toList := by
    rw [hlist]
    exact fun hmem => hcomma (hpart.subset hmem)
  refine ⟨⟨⟨?_, ?_⟩, ?_, fun hlast => hcomma' (List.mem_of_getLast? hlast)⟩, hcomma'⟩
  · rw [hlist]
    exact h.word.code.part hpart.isInfix
  · rw [hlist]
    exact fun c hc => h.word.blank c (hpart.subset hc)
  · intro hempty
    obtain ⟨c, hc, hne⟩ := hname
    obtain ⟨⟨dropped, hdropped, hall⟩, -⟩ := dropEndWhile_spec (· == ')') p.name.toList
    rw [← hlist, hempty] at hdropped
    rw [hdropped] at hc
    exact hne (eq_of_beq (hall c hc))

end Parameter

namespace Statement

/-! ## Words -/

theorem name_type_toList (t : DataType) : IsToken t.name.toList ∧ t.name.toList ≠ [] := by
  cases t <;> decide

theorem words_type (t : DataType) {word : List Char} (h : ∀ c ∈ word, isBlank c = false)
    (hne : word ≠ []) :
    words ('.' :: t.name.toList ++ ' ' :: word) = ['.' :: t.name.toList, word] := by
  have htoken : IsToken ('.' :: t.name.toList) := .cons (by decide) (name_type_toList t).1
  rw [words_append_blank (fun c hc => not_isBlank_of_isTokenChar (htoken c hc))
    (List.cons_ne_nil _ _), words_of_forall h hne]

/-! ## Directives -/

theorem readPiece_directive (cs : List Char) :
    Source.readPiece ('.' :: cs) = readDirective ('.' :: cs) := by
  rw [Source.readPiece_body]
  · rw [Source.readBody, if_neg (by simp [Source.silentPieces]), List.head?_cons, if_pos rfl]
  · intro before after hcut
    obtain ⟨c, hc, htext, -⟩ := cutAt?_eq_some hcut
    cases before with
    | nil =>
      rw [← (List.cons.inj htext).1] at hc
      exact absurd hc (by decide)
    | cons b before =>
      rw [← (List.cons.inj htext).1]
      exact not_isLabelName_trim_cons (by decide) (.inr rfl) before

theorem readPiece_keyword {keyword : String} (hdot : keyword.toList.head? = some '.')
    (hblank : ∀ c ∈ keyword.toList, isBlank c = false) (cs : List Char) :
    Source.readPiece (keyword.toList ++ ' ' :: cs) =
      if keyword = ".entry" then readHeader cs
      else if keyword = ".param" then .ofExcept ((readParameter cs).map .parameter)
      else if keyword = ".local" then
        .ofExcept ((readVariable .localMemory cs).map .localVariable)
      else if keyword = ".shared" then
        .ofExcept ((readVariable .sharedMemory cs).map .sharedVariable)
      else if keyword ∈ ignoredDirectives then {}
      else .error (.unknownDirective keyword) := by
  have hparts : cutAt isBlank (keyword.toList ++ ' ' :: cs) = (keyword.toList, cs) :=
    cutAt_append_cons hblank (by decide) cs
  obtain ⟨rest, hrest⟩ := List.head?_eq_some_iff.1 hdot
  have hpiece := readPiece_directive (rest ++ ' ' :: cs)
  rw [← List.cons_append, ← hrest] at hpiece
  rw [hpiece, readDirective, hparts]
  dsimp only
  rw [String.ofList_toList]

/-- A directive is read from its words: blanks around and between them make no difference. -/
theorem exists_readPiece_trim {keyword : String} (hdot : keyword.toList.head? = some '.')
    {cs : List Char} {ws : List (List Char)} (h : words cs = keyword.toList :: ws) :
    ∃ args, args <:+: cs ∧ words args = ws ∧
      Source.readPiece (trim cs) = Source.readPiece (keyword.toList ++ ' ' :: args) := by
  have hblank := (mem_words (h ▸ List.mem_cons_self .. : keyword.toList ∈ words cs)).2.1
  have hcut : cutAt isBlank (keyword.toList ++ ' ' :: (cutAt isBlank (trim cs)).2) =
      (keyword.toList, (cutAt isBlank (trim cs)).2) := cutAt_append_cons hblank (by decide) _
  have hne : trim cs ≠ [] := by
    intro hnil
    rw [← words_trim, hnil] at h
    cases h
  obtain ⟨hkeyword, hargs⟩ := List.cons.inj
    ((words_cutAt hne (trim_spec cs).1.1).symm.trans ((words_trim cs).trans h))
  have hinfix : (cutAt isBlank (trim cs)).2 <:+: cs :=
    ((List.tail_suffix _).trans (List.dropWhile_suffix _)).isInfix.trans (trim_isInfix cs)
  refine ⟨(cutAt isBlank (trim cs)).2, hinfix, hargs, ?_⟩
  -- Both texts begin with the dot, which is what makes them directives.
  obtain ⟨rest, hrest⟩ := List.head?_eq_some_iff.1 hdot
  obtain ⟨rest', hrest'⟩ : ∃ rest', trim cs = '.' :: rest' := by
    obtain ⟨behind, hbehind⟩ : (cutAt isBlank (trim cs)).1 <+: trim cs := List.takeWhile_prefix _
    rw [hkeyword, hrest] at hbehind
    exact ⟨rest ++ behind, hbehind.symm⟩
  have hleft := readPiece_directive rest'
  have hright := readPiece_directive (rest ++ ' ' :: (cutAt isBlank (trim cs)).2)
  rw [← hrest'] at hleft
  rw [← List.cons_append, ← hrest] at hright
  rw [hleft, hright, readDirective, readDirective, hcut, ← hkeyword]

/-! ## Headers -/

theorem toList_parameter (p : Parameter) : p.text.toList =
    ".param".toList ++ ' ' :: ('.' :: p.type.name.toList ++ ' ' :: p.name.toList) := by
  simp [Parameter.text]

theorem readHeaderParameter_text {p : Parameter} (h : p.IsRead) :
    readHeaderParameter p.text.toList = .ok (.parameter p) := by
  have hread :
      readParameter (' ' :: ('.' :: p.type.name.toList ++ ' ' :: p.name.toList)) = .ok p := by
    refine readParameter_eq_ok_iff.2 ⟨[], List.forall_mem_nil _, h.ends, ?_⟩
    rw [words_cons_blank (by decide), words_type p.type h.word.blank h.ends.toList_ne_nil,
      List.append_nil]
  rw [readHeaderParameter, toList_parameter, List.isPrefixOf?_eq_some_iff_append_eq.2 rfl]
  dsimp only
  rw [hread]
  rfl

theorem isCode_parameter {p : Parameter} (h : p.IsRead) : IsCode p.text.toList := by
  have htype := (name_type_toList p.type).1
  rw [toList_parameter, isCode_append_cons (by decide), isCode_append_cons (by decide),
    isCode_cons (by decide)]
  exact ⟨isCode_of_forall (by decide), htype.isCode, h.word.code⟩

theorem trimmed_parameter {p : Parameter} (h : p.IsRead) : Trimmed p.text.toList := by
  have hlast := (trimmed_of_forall h.word.blank).2
  rw [toList_parameter]
  refine trimmed_append (by decide) (by decide) ?_ (List.cons_ne_nil _ _)
  rw [List.getLast?_cons_of_ne_nil (by simp), List.getLast?_append_of_ne_nil _ (by simp),
    List.getLast?_cons_of_ne_nil h.ends.toList_ne_nil]
  exact hlast

/-- The parameters as they are read from a header: the last name has lost the parentheses at its
end. -/
def clipLast : List Parameter → List Parameter
  | [] => []
  | [p] => [p.clipped]
  | p :: q :: ps => p :: clipLast (q :: ps)

theorem clipLast_eq_self {ps : List Parameter} (h : ∀ p ∈ ps, ')' ∉ p.name.toList) :
    clipLast ps = ps := by
  induction ps using clipLast.induct with
  | case1 => rfl
  | case2 p => exact congrArg (· :: []) (p.clipped_eq_self (h p (List.mem_singleton_self p)))
  | case3 p q ps ih => exact congrArg (p :: ·) (ih (List.forall_mem_cons.1 h).2)

theorem readHeaderParameters_append_cons (cs cs' : List Char) :
    readHeaderParameters (cs ++ ',' :: cs') =
      readHeaderParameters cs ++ readHeaderParameters cs' := by
  have hpieces : split (· == ',') (cs ++ ',' :: cs') =
      split (· == ',') cs ++ split (· == ',') cs' := split_append_cons rfl cs cs'
  simp only [readHeaderParameters, hpieces, List.map_append, List.filter_append,
    Reading.join_append]

theorem readHeaderParameters_text {p : Parameter} (h : p.IsRead) (hcomma : ',' ∉ p.name.toList) :
    readHeaderParameters p.text.toList = .statement (.parameter p) := by
  have htype := (name_type_toList p.type).1.not_mem (d := ',') (by decide)
  have hcomma' : ',' ∉ p.text.toList := by simp [toList_parameter, htype, hcomma]
  have hpieces : ((split (· == ',') p.text.toList).map trim).filter (! ·.isEmpty) =
      [p.text.toList] := by
    rw [split_of_not_mem hcomma', List.map_singleton, trim_eq_self (trimmed_parameter h)]
    simp [toList_parameter]
  rw [readHeaderParameters, hpieces, List.map_singleton, readHeaderParameter_text h]
  rfl

theorem readHeaderParameters_cons {p : Parameter} (h : p.IsRead) (hcomma : ',' ∉ p.name.toList)
    (cs : List Char) : readHeaderParameters (p.text.toList ++ ',' :: ' ' :: cs) =
      .statement (.parameter p) ++ readHeaderParameters cs := by
  have hblank : readHeaderParameters (' ' :: cs) = readHeaderParameters cs := by
    rw [readHeaderParameters, map_trim_split_blank, readHeaderParameters]
  rw [readHeaderParameters_append_cons, readHeaderParameters_text h hcomma, hblank]

/-- The header of a kernel with a list behind its parenthesis. -/
def headerText (name : String) (list : List Char) : List Char :=
  ".entry".toList ++ ' ' :: (name.toList ++ '(' :: list)

theorem isCode_headerText {name : String} (hname : IsTitle name) {list : List Char}
    (hcode : IsCode list) : IsCode (headerText name list) := by
  rw [headerText, isCode_append_cons (by decide), isCode_append_cons (by decide)]
  exact ⟨isCode_of_forall (by decide), hname.code, hcode⟩

/-- A header is read as its name, if it has one, and its list without the parenthesis that closes
it. -/
theorem readPiece_headerText {name : String} (hname : IsTitle name) {list : List Char}
    (hlast : ∀ c ∈ list.getLast?, isBlank c = false) :
    Source.readPiece (trim (headerText name list)) =
      { statements := if name = "" then [] else [.entry name] } ++
        readHeaderParameters (dropEndWhile (· == ')') list) := by
  have htrimmed : Trimmed (headerText name list) := by
    refine trimmed_append (by decide) (by decide) ?_ (List.cons_ne_nil _ _)
    rw [List.getLast?_cons_of_ne_nil (by simp), List.getLast?_append_of_ne_nil _ (by simp)]
    cases list with
    | nil => decide
    | cons c cs => rwa [List.getLast?_cons_cons]
  have hbracket := beq_false_of_not_mem hname.bracket
  have htrim : trimEnd list = list := dropEndWhile_of_getLast? hlast
  rw [trim_eq_self htrimmed, headerText, readPiece_keyword (by decide) (by decide), if_pos rfl,
    readHeader, cutAt?_append_cons hbracket rfl]
  dsimp only
  rw [trim_eq_self hname.trimmed, htrim]
  by_cases hempty : name = ""
  · subst hempty
    rfl
  · have hne : name.toList.isEmpty = false := by simpa using hempty
    rw [hne, if_neg hempty, String.ofList_toList]
    rfl

section header

variable {ps : List Parameter} (h : ∀ p ∈ ps, p.IsRead ∧ ',' ∉ p.name.toList)

include h

theorem readHeaderParameters_texts :
    readHeaderParameters ([',', ' '].intercalate (ps.map fun p => p.text.toList)) =
      { statements := ps.map .parameter } := by
  induction ps with
  | nil => rfl
  | cons p ps ih =>
    obtain ⟨⟨hread, hcomma⟩, hps⟩ := List.forall_mem_cons.1 h
    cases ps with
    | nil =>
      rw [List.map_singleton, List.intercalate_singleton, readHeaderParameters_text hread hcomma]
      rfl
    | cons q ps =>
      have hlist : [',', ' '].intercalate ((p :: q :: ps).map fun p => p.text.toList) =
          p.text.toList ++
            ',' :: ' ' :: [',', ' '].intercalate ((q :: ps).map fun p => p.text.toList) := by
        simp [List.intercalate_cons_cons]
      rw [hlist, readHeaderParameters_cons hread hcomma, ih hps]
      rfl

variable (hlast : ∀ p ∈ ps.getLast?, ∃ c ∈ p.name.toList, c ≠ ')')

include hlast

theorem isRead_clipLast : ∀ p ∈ clipLast ps, p.IsRead ∧ ',' ∉ p.name.toList := by
  induction ps using clipLast.induct with
  | case1 => exact fun p hp => absurd hp List.not_mem_nil
  | case2 p =>
    obtain ⟨hread, hcomma⟩ := h p (List.mem_singleton_self p)
    exact List.forall_mem_singleton.2 (hread.clipped hcomma (hlast p rfl))
  | case3 p q ps ih =>
    obtain ⟨hp, hps⟩ := List.forall_mem_cons.1 h
    exact List.forall_mem_cons.2 ⟨hp, ih hps fun p hp => hlast p hp⟩

omit h in
/-- The parentheses that close a header go with those that end its last name. -/
theorem dropEndWhile_parameters :
    dropEndWhile (· == ')') ([',', ' '].intercalate (ps.map fun p => p.text.toList)) =
      [',', ' '].intercalate ((clipLast ps).map fun p => p.text.toList) := by
  induction ps using clipLast.induct with
  | case1 => rfl
  | case2 p =>
    obtain ⟨c, hc, hne⟩ := hlast p rfl
    have hname := dropEndWhile_append (p := (· == ')')) ⟨c, hc, beq_eq_false_iff_ne.2 hne⟩
      (".param".toList ++ ' ' :: ('.' :: p.type.name.toList ++ [' ']))
    simpa [clipLast, toList_parameter, Parameter.clipped] using hname
  | case3 p q ps ih =>
    have hrest := ih fun p hp => hlast p hp
    obtain ⟨q', ps', hclip⟩ : ∃ q' ps', clipLast (q :: ps) = q' :: ps' := by
      cases ps <;> exact ⟨_, _, rfl⟩
    have hdot : '.' ∈ [',', ' '].intercalate ((q :: ps).map fun p => p.text.toList) := by
      refine List.mem_of_head? ?_
      rw [List.map_cons, head?_intercalate _ (by simp [toList_parameter]), toList_parameter]
      rfl
    rw [clipLast]
    simp only [hclip, List.map_cons, List.intercalate_cons_cons] at hrest hdot ⊢
    rw [dropEndWhile_append ⟨'.', hdot, by decide⟩, hrest]

/-- The header of a kernel is read as its name, if it has one, and its parameters. -/
theorem reads_header {name : String} (hname : IsTitle name) :
    Source.Reads (headerText name
        ([',', ' '].intercalate (ps.map fun p => p.text.toList) ++ [')']) ++ ['\n'])
      { statements :=
          (if name = "" then [] else [.entry name]) ++ (clipLast ps).map .parameter } := by
  have hcode : IsCode ([',', ' '].intercalate (ps.map fun p => p.text.toList)) := by
    refine isCode_intercalate fun t ht => ?_
    obtain ⟨p, hp, rfl⟩ := List.mem_map.1 ht
    exact isCode_parameter (h p hp).1
  have hplain : ∀ c ∈ [')'], isPlain c = true := by decide
  have hreads := Source.reads_code (isCode_headerText hname ((isCode_append_right hplain).2 hcode))
  rw [readPiece_headerText hname (by rw [List.getLast?_concat]; decide),
    dropEndWhile_append_of_forall (by simp), dropEndWhile_parameters hlast,
    readHeaderParameters_texts (isRead_clipLast h hlast)] at hreads
  exact hreads

end header

/-! ## Variables -/

/-- The alignment in front of a declaration, with the space behind it. -/
def alignmentText (align : Option UInt32) : List Char :=
  (align.map fun n => ".align ".toList ++ (toString n.toNat).toList ++ [' ']).getD []

/-- A name with the size that may stand behind it. -/
def sizedName (v : Variable) : List Char :=
  v.name.toList ++ (v.elements.map fun n => '[' :: (toString n.toNat).toList ++ [']']).getD []

theorem toList_variable (v : Variable) : v.text.toList =
    v.space.directive.toList ++
      ' ' :: (alignmentText v.align ++ ('.' :: v.type.name.toList ++ ' ' :: sizedName v)) ++
      [';'] := by
  cases halign : v.align <;> cases helements : v.elements <;>
    simp [Variable.text, alignmentText, sizedName, halign, helements]

section sizedName

variable {v : Variable} (h : v.IsRead)

include h

theorem sizedName_spec : IsCode (sizedName v) ∧ (∀ c ∈ sizedName v, isBlank c = false) ∧
    sizedName v ≠ [] ∧ (sizedName v).getLast? ≠ some ',' := by
  cases helements : v.elements with
  | none =>
    have hname : sizedName v = v.name.toList := by simp [sizedName, helements]
    have hends := h.ends helements
    rw [hname]
    exact ⟨h.word.code, h.word.blank, hends.toList_ne_nil, hends.last⟩
  | some n =>
    have htoken := isToken_toString_nat n.toNat
    have hname : sizedName v = v.name.toList ++ '[' :: ((toString n.toNat).toList ++ [']']) := by
      simp [sizedName, helements]
    rw [hname]
    refine ⟨?_, ?_, by simp, ?_⟩
    · rw [isCode_append_cons (by decide), isCode_append_right (by decide)]
      exact ⟨h.word.code, htoken.isCode⟩
    · intro c hc
      rw [List.mem_append, List.mem_cons, List.mem_append, List.mem_singleton] at hc
      rcases hc with hc | rfl | hc | rfl
      · exact h.word.blank c hc
      · decide
      · exact not_isBlank_of_isTokenChar (htoken c hc)
      · decide
    · rw [← List.cons_append, ← List.append_assoc, List.getLast?_concat]
      decide

theorem isSpelled_words : v.IsSpelled (v.space.directive.toList ::
    words (alignmentText v.align ++ ('.' :: v.type.name.toList ++ ' ' :: sizedName v))) := by
  obtain ⟨-, hblank, hne, -⟩ := sizedName_spec h
  have hsize : StatesSize v.name.toList v.elements (sizedName v) := by
    rw [sizedName]
    cases v.elements with
    | none => simpa using StatesSize.none
    | some n => exact .some (isCount_toString n)
  have halign : ∃ front, StatesAlignment v.align front ∧
      ∀ cs, words (alignmentText v.align ++ cs) = front ++ words cs := by
    cases v.align with
    | none => exact ⟨[], .none, fun cs => rfl⟩
    | some n =>
      have htoken := isToken_toString_nat n.toNat
      refine ⟨_, .some (isCount_toString n), fun cs => ?_⟩
      have htext : alignmentText (some n) ++ cs =
          ".align".toList ++ ' ' :: ((toString n.toNat).toList ++ ' ' :: cs) := by
        simp [alignmentText]
      rw [htext, words_append_blank (by decide) (by decide), words_append_blank
        (fun c hc => not_isBlank_of_isTokenChar (htoken c hc)) (by simp)]
      rfl
  obtain ⟨front, hfront, hwords⟩ := halign
  refine ⟨h.bracket, h.ends, front, sizedName v, [], hfront, hsize, List.forall_mem_nil _, ?_⟩
  rw [hwords, words_type v.type hblank hne, List.append_nil]

theorem readVariable_text : readVariable v.space
    (alignmentText v.align ++ ('.' :: v.type.name.toList ++ ' ' :: sizedName v)) = .ok v :=
  readVariable_eq_ok_iff.2 ⟨rfl, _, [], isSpelled_words h, (List.append_nil _).symm⟩

theorem isCode_variable :
    IsCode (v.space.directive.toList ++
      ' ' :: (alignmentText v.align ++ ('.' :: v.type.name.toList ++ ' ' :: sizedName v))) := by
  have hspace : IsToken v.space.directive.toList := by cases v.space <;> decide
  have halign : ∀ c ∈ alignmentText v.align, isPlain c = true := by
    intro c hc
    cases halign : v.align with
    | none =>
      rw [halign] at hc
      cases hc
    | some n =>
      rw [halign] at hc
      have htoken := isToken_toString_nat n.toNat
      simp only [alignmentText, Option.map_some, Option.getD_some, List.mem_append,
        List.mem_singleton] at hc
      rcases hc with (hc | hc) | rfl
      · exact (show ∀ c ∈ ".align ".toList, isPlain c = true by decide) c hc
      · exact isPlain_of_isTokenChar (htoken c hc)
      · decide
  rw [isCode_append_cons (by decide), isCode_append_left halign, isCode_append_cons (by decide),
    isCode_cons (by decide)]
  exact ⟨hspace.isCode, (name_type_toList v.type).1.isCode, (sizedName_spec h).1⟩

theorem trimmed_variable :
    Trimmed (v.space.directive.toList ++
      ' ' :: (alignmentText v.align ++ ('.' :: v.type.name.toList ++ ' ' :: sizedName v))) := by
  obtain ⟨-, hblank, hne, -⟩ := sizedName_spec h
  have hlast := (trimmed_of_forall hblank).2
  refine trimmed_append (by cases v.space <;> decide) (by cases v.space <;> decide) ?_
    (List.cons_ne_nil _ _)
  rw [List.getLast?_cons_of_ne_nil (by simp), List.getLast?_append_of_ne_nil _ (by simp),
    List.getLast?_append_of_ne_nil _ (by simp), List.getLast?_cons_of_ne_nil hne]
  exact hlast

end sizedName

def ofVariable (v : Variable) : Statement :=
  match v.space with
  | .localMemory => .localVariable v
  | .sharedMemory => .sharedVariable v

theorem readPiece_space (space : StateSpace) (cs : List Char) :
    Source.readPiece (space.directive.toList ++ ' ' :: cs) =
      .ofExcept ((readVariable space cs).map ofVariable) := by
  -- Both spaces are read alike and differ in the statement that is made of the variable.
  have hvariable : ∀ declares : Variable → Statement,
      (∀ v, v.space = space → declares v = ofVariable v) →
      (readVariable space cs).map declares = (readVariable space cs).map ofVariable := by
    intro declares h
    cases hread : readVariable space cs with
    | error e => rfl
    | ok v => exact congrArg Except.ok (h v (readVariable_eq_ok_iff.1 hread).1)
  cases space with
  | localMemory =>
    rw [readPiece_keyword (by decide) (by decide), if_neg (by decide), if_neg (by decide),
      if_pos (by decide), hvariable]
    rintro ⟨_, name, type, align, elements⟩ rfl
    rfl
  | sharedMemory =>
    rw [readPiece_keyword (by decide) (by decide), if_neg (by decide), if_neg (by decide),
      if_neg (by decide), if_pos (by decide), hvariable]
    rintro ⟨_, name, type, align, elements⟩ rfl
    rfl

theorem readPiece_variable {v : Variable} (h : v.IsRead) :
    Source.readPiece (v.space.directive.toList ++ ' ' ::
      (alignmentText v.align ++ ('.' :: v.type.name.toList ++ ' ' :: sizedName v))) =
        .statement (ofVariable v) := by
  rw [readPiece_space, readVariable_text h]
  rfl

/-- The declaration of a variable is read as that variable. -/
theorem reads_variable {v : Variable} (h : v.IsRead) {front : List Char}
    (hfront : ∀ c ∈ front, c = ' ') :
    Source.Reads (front ++ v.text.toList ++ ['\n']) (.statement (ofVariable v)) := by
  rw [← readPiece_variable h, toList_variable, ← List.append_assoc front]
  exact Source.reads_piece hfront (isCode_variable h) (trimmed_variable h)

/-! ## Registers -/

theorem readPiece_register (cs : List Char) : Source.readPiece (".reg".toList ++ ' ' :: cs) = {} := by
  rw [readPiece_keyword (by decide) (by decide), if_neg (by decide), if_neg (by decide),
    if_neg (by decide), if_neg (by decide), if_pos (by decide)]

theorem reads_register (r : Register) {front : List Char} (hfront : ∀ c ∈ front, c = ' ') :
    Source.Reads (front ++ r.text.toList ++ ['\n']) {} := by
  have hname : ∃ name, IsToken name ∧ name ≠ [] ∧
      r.text.toList = ".reg".toList ++ ' ' :: ('.' :: r.type.name.toList ++ ' ' :: name) ++ [';'] := by
    have hnumber := isToken_toString_nat r.number
    cases hpredicate : r.type.isPredicate
    · refine ⟨'%' :: 'r' :: (toString r.number).toList,
        .cons (by decide) (.cons (by decide) hnumber), List.cons_ne_nil _ _, ?_⟩
      simp [Register.text, hpredicate]
    · refine ⟨'%' :: 'p' :: (toString r.number).toList,
        .cons (by decide) (.cons (by decide) hnumber), List.cons_ne_nil _ _, ?_⟩
      simp [Register.text, hpredicate]
  obtain ⟨name, htoken, hne, htext⟩ := hname
  rw [← readPiece_register ('.' :: r.type.name.toList ++ ' ' :: name), htext,
    ← List.append_assoc front]
  refine Source.reads_piece hfront ?_ ?_
  · rw [isCode_append_cons (by decide), isCode_append_cons (by decide), isCode_cons (by decide)]
    exact ⟨isCode_of_forall (by decide), (name_type_toList r.type).1.isCode, htoken.isCode⟩
  · refine trimmed_append (by decide) (by decide) ?_ (List.cons_ne_nil _ _)
    rw [List.getLast?_cons_of_ne_nil (by simp), List.getLast?_append_of_ne_nil _ (by simp),
      List.getLast?_cons_of_ne_nil hne]
    exact htoken.trimmed.2

end Statement

end KernelListing
