import KernelListing.Proofs.Operand.RoundTrip
import KernelListing.Source

/-!
# Reading declarations back

What a declaration that has been read is like: its names are words, without the marks that would
end them. Such a declaration is read back from its text.
-/

namespace KernelListing

open Text

/-- A name as it stands in a declaration. -/
structure IsWord (name : String) : Prop where
  code : IsCode name.toList
  blank : ∀ c ∈ name.toList, isBlank c = false

/-- A name that nothing follows: it does not end with a comma. -/
structure EndsWord (name : String) : Prop where
  ne_empty : name ≠ ""
  last : name.toList.getLast? ≠ some ','

theorem EndsWord.toList_ne_nil {name : String} (h : EndsWord name) : name.toList ≠ [] := by
  simpa using h.ne_empty

/-- What a parameter that has been read is like. -/
structure Parameter.IsRead (p : Parameter) : Prop where
  word : IsWord p.name
  ends : EndsWord p.name

/-- What a variable that has been read is like. The size ends the name of an array. -/
structure Variable.IsRead (v : Variable) : Prop where
  word : IsWord v.name
  bracket : '[' ∉ v.name.toList
  ends : v.elements = none → EndsWord v.name

namespace Statement

/-! ## The words of a declaration -/

theorem readType_eq_ok_iff {token : Option (List Char)} {t : DataType} :
    readType token = .ok t ↔ token = some ('.' :: t.name.toList) := by
  constructor
  · intro h
    unfold readType at h
    split at h
    · cases h
    · next name =>
      split at h
      · next t' ht =>
        cases h
        rw [DataType.name_of_ofName? ht, String.toList_ofList]
      · cases h
    · cases h
  · rintro rfl
    rw [readType, String.ofList_toList, DataType.ofName?_name]

theorem readName_eq_ok_iff {token : Option (List Char)} {name : List Char} :
    readName token = .ok name ↔ ∃ commas, (∀ c ∈ commas, c = ',') ∧
      EndsWord (String.ofList name) ∧ token = some (name ++ commas) := by
  constructor
  · intro h
    unfold readName at h
    split at h
    · next c cs heq =>
      cases h
      obtain ⟨word, rfl, hword⟩ := Option.map_eq_some_iff.1 heq
      obtain ⟨⟨commas, hcut, hcommas⟩, hlast⟩ := dropEndWhile_spec (· == ',') word
      rw [hword] at hcut hlast
      refine ⟨commas, fun c hc => eq_of_beq (hcommas c hc), ⟨by simp, ?_⟩, congrArg some hcut⟩
      rw [String.toList_ofList]
      intro hcomma
      exact absurd (hlast ',' hcomma) (by decide)
    · cases h
  · rintro ⟨commas, hcommas, hends, rfl⟩
    have hne := hends.toList_ne_nil
    have hlast := hends.last
    rw [String.toList_ofList] at hne hlast
    have hdrop : dropEndWhile (· == ',') (name ++ commas) = name := by
      rw [dropEndWhile_append_of_forall fun c hc => beq_iff_eq.2 (hcommas c hc)]
      exact dropEndWhile_of_getLast?_ne hlast
    obtain ⟨c, cs, rfl⟩ := List.exists_cons_of_ne_nil hne
    rw [readName, Option.map_some, hdrop]

/-- A literal that is read as a count. -/
def IsCount (literal : List Char) (n : UInt32) : Prop :=
  ∃ k, integer? literal = some k ∧ k.toInt = n.toNat

theorem toCount?_eq_some_iff {k : Int64} {n : UInt32} : toCount? k = some n ↔ k.toInt = n.toNat := by
  have hlt := n.toNat_lt_size
  unfold toCount?
  constructor
  · intro h
    split at h
    · next hk =>
      have hsize : k.toInt.toNat < UInt32.size := by omega
      rw [← Option.some.inj h, UInt32.toNat_ofNat_of_lt' hsize]
      omega
    · cases h
  · intro h
    rw [if_pos (by omega), h, Int.toNat_natCast, UInt32.ofNat_toNat]

theorem isCount_iff {literal : List Char} {n : UInt32} :
    IsCount literal n ↔ ∃ k, Operand.readInteger literal = .ok k ∧ toCount? k = some n := by
  refine exists_congr fun k => and_congr ?_ toCount?_eq_some_iff.symm
  rw [Operand.readInteger]
  cases integer? literal <;> simp

theorem readCount_eq_ok_iff {α : Type} {literal : List Char} {make : UInt32 → α}
    {invalid : Int64 → ReadError} {x : α} :
    (do
      let n ← Operand.readInteger literal
      match toCount? n with
      | some k => return make k
      | none => throw (invalid n) : Except ReadError α) = .ok x ↔
        ∃ n, IsCount literal n ∧ make n = x := by
  simp only [isCount_iff]
  cases hread : Operand.readInteger literal with
  | error e => exact iff_of_false nofun fun ⟨_, ⟨_, hk, _⟩, _⟩ => by cases hk
  | ok k =>
    simp only [bind, Except.bind]
    cases hcount : toCount? k with
    | none => exact iff_of_false nofun fun ⟨_, ⟨_, hk, hn⟩, _⟩ => by cases hk; simp [hcount] at hn
    | some n =>
      constructor
      · intro h
        exact ⟨n, ⟨k, rfl, hcount⟩, Except.ok.inj h⟩
      · rintro ⟨n', ⟨k', hk, hn⟩, rfl⟩
        cases hk
        rw [hcount] at hn
        exact congrArg (Except.ok ∘ make) (Option.some.inj hn)

theorem isCount_toString (n : UInt32) : IsCount (toString n.toNat).toList n := by
  have hlt : n.toNat < 2 ^ 32 := n.toNat_lt
  have hmin : Int64.minValue.toInt = -2 ^ 63 := by decide
  have hmax : Int64.maxValue.toInt = 2 ^ 63 - 1 := by decide
  exact ⟨Int64.ofInt n.toNat, integer?_toString (n := (n.toNat : Int)) (by omega) (by omega),
    Int64.toInt_ofInt_of_le (by omega) (by omega)⟩

/-- The words that announce an alignment. -/
inductive StatesAlignment : Option UInt32 → List (List Char) → Prop
  | none : StatesAlignment none []
  | some {literal : List Char} {n : UInt32} (h : IsCount literal n) :
    StatesAlignment (some n) [".align".toList, literal]

theorem readAlignment_eq_ok_iff {tokens rest : List (List Char)} {align : Option UInt32} :
    readAlignment tokens = .ok (align, rest) ↔ ∃ front, StatesAlignment align front ∧
      tokens = front ++ rest ∧ (align = none → rest.head? ≠ some ".align".toList) := by
  constructor
  · intro h
    unfold readAlignment at h
    split at h
    · cases h
      exact ⟨[], .none, rfl, fun _ => by simp⟩
    · next token tail =>
      split at h
      · next halign =>
        split at h
        · cases h
        · next literal tail =>
          obtain ⟨n, hcount, heq⟩ := readCount_eq_ok_iff.1 h
          cases heq
          rw [← String.toList_ofList (l := token), halign]
          exact ⟨[".align".toList, literal], .some hcount, rfl, nofun⟩
      · next halign =>
        cases h
        -- Any other word is left to the reader of the type.
        refine ⟨[], .none, rfl, fun _ hhead => halign ?_⟩
        rw [Option.some.inj hhead, String.ofList_toList]
  · rintro ⟨front, hfront, rfl, hhead⟩
    cases hfront with
    | none =>
      cases rest with
      | nil => rfl
      | cons token tail =>
        refine if_neg fun halign => hhead rfl ?_
        rw [List.head?_cons, ← halign, String.toList_ofList]
    | some hcount =>
      rw [List.cons_append, List.singleton_append, readAlignment, if_pos (by decide)]
      exact readCount_eq_ok_iff.2 ⟨_, hcount, rfl⟩

/-- The word for a name that may have a size in brackets behind it. -/
inductive StatesSize (name : List Char) : Option UInt32 → List Char → Prop
  | none : StatesSize name none name
  | some {literal : List Char} {n : UInt32} (h : IsCount literal n) :
    StatesSize name (some n) (name ++ '[' :: (literal ++ [']']))

theorem readSizedName_eq_ok_iff {cs name : List Char} {size : Option UInt32} :
    readSizedName cs = .ok (name, size) ↔ StatesSize name size cs ∧ '[' ∉ name := by
  constructor
  · intro h
    unfold readSizedName at h
    split at h
    · next hcut =>
      cases h
      refine ⟨.none, fun hmem => ?_⟩
      rw [cutAt?, if_pos (List.any_eq_true.2 ⟨'[', hmem, rfl⟩)] at hcut
      cases hcut
    · next before after hcut =>
      obtain ⟨c, hc, rfl, hbefore⟩ := cutAt?_eq_some hcut
      obtain rfl := eq_of_beq hc
      split at h
      · cases h
      · next literal hsuffix =>
        obtain rfl := List.isSuffixOf?_eq_some_iff_append_eq.1 hsuffix
        obtain ⟨n, hcount, heq⟩ := readCount_eq_ok_iff.1 h
        cases heq
        exact ⟨.some hcount, fun hmem => absurd (hbefore '[' hmem) (by decide)⟩
  · rintro ⟨hsize, hbracket⟩
    have hbracket' := beq_false_of_not_mem hbracket
    cases hsize with
    | none => rw [readSizedName, cutAt?_of_forall hbracket']
    | some hcount =>
      rw [readSizedName, cutAt?_append_cons hbracket' rfl]
      dsimp only
      rw [List.isSuffixOf?_eq_some_iff_append_eq.2 rfl]
      exact readCount_eq_ok_iff.2 ⟨_, hcount, rfl⟩

theorem readParameter_eq_ok_iff {cs : List Char} {p : Parameter} :
    readParameter cs = .ok p ↔ ∃ commas, (∀ c ∈ commas, c = ',') ∧ EndsWord p.name ∧
      words cs = ['.' :: p.type.name.toList, p.name.toList ++ commas] := by
  constructor
  · intro h
    obtain ⟨type, htype, h⟩ := exists_of_bind_eq_ok h
    obtain ⟨name, hname, h⟩ := exists_of_bind_eq_ok h
    split at h
    · cases h
    · next hend =>
      cases h
      obtain ⟨commas, hcommas, hends, hword⟩ := readName_eq_ok_iff.1 hname
      refine ⟨commas, hcommas, hends, ?_⟩
      rw [String.toList_ofList]
      exact List.ext_getElem? fun
        | 0 => readType_eq_ok_iff.1 htype
        | 1 => hword
        | n + 2 => by
          have hlength := List.getElem?_eq_none_iff.1 hend
          simpa using hlength.trans (Nat.le_add_left 2 n)
  · rintro ⟨commas, hcommas, hends, hwords⟩
    have htype := readType_eq_ok_iff.2 (rfl : some ('.' :: p.type.name.toList) = _)
    have hname : readName (some (p.name.toList ++ commas)) = .ok p.name.toList :=
      readName_eq_ok_iff.2 ⟨commas, hcommas, by rwa [String.ofList_toList], rfl⟩
    rw [readParameter, hwords]
    simp only [List.getElem?_cons_zero, List.getElem?_cons_succ, List.getElem?_nil, htype, hname,
      bind, Except.bind, pure, Except.pure, String.ofList_toList]

end Statement

/-- The words of the declaration of a variable: its space, its alignment if it is announced, its
type, and its name with the size of an array. Commas may stand behind the last word. -/
structure Variable.IsSpelled (v : Variable) (ws : List (List Char)) : Prop where
  bracket : '[' ∉ v.name.toList
  ends : v.elements = none → EndsWord v.name
  words : ∃ align name commas, Statement.StatesAlignment v.align align ∧
    Statement.StatesSize v.name.toList v.elements name ∧ (∀ c ∈ commas, c = ',') ∧
    ws = v.space.directive.toList :: (align ++ ['.' :: v.type.name.toList, name ++ commas])

namespace Statement

/-- The word for a name ends like a word, also where it is the bracket of a size that ends it. -/
theorem endsWord_of_statesSize {name : String} {size : Option UInt32} {word : List Char}
    (h : StatesSize name.toList size word) (hends : size = none → EndsWord name) :
    EndsWord (String.ofList word) := by
  cases h with
  | none =>
    rw [String.ofList_toList]
    exact hends rfl
  | some =>
    refine ⟨by simp, ?_⟩
    rw [String.toList_ofList, ← List.cons_append, ← List.append_assoc, List.getLast?_concat]
    decide

theorem typeWord_ne_align (t : DataType) : '.' :: t.name.toList ≠ ".align".toList := by
  cases t <;> decide

/-- A variable is read from the words that it is spelled with, whatever stands behind them. -/
theorem readVariable_eq_ok_iff {space : StateSpace} {cs : List Char} {v : Variable} :
    readVariable space cs = .ok v ↔ v.space = space ∧ ∃ ws extra, v.IsSpelled ws ∧
      space.directive.toList :: words cs = ws ++ extra := by
  constructor
  · intro h
    obtain ⟨⟨align, tokens⟩, halign, h⟩ := exists_of_bind_eq_ok h
    obtain ⟨type, htype, h⟩ := exists_of_bind_eq_ok h
    obtain ⟨word, hname, h⟩ := exists_of_bind_eq_ok h
    obtain ⟨⟨name, elements⟩, hsized, h⟩ := exists_of_bind_eq_ok h
    cases h
    obtain ⟨front, hfront, hwords, -⟩ := readAlignment_eq_ok_iff.1 halign
    obtain ⟨commas, hcommas, hends, hword⟩ := readName_eq_ok_iff.1 hname
    obtain ⟨hsize, hbracket⟩ := readSizedName_eq_ok_iff.1 hsized
    have htype' := readType_eq_ok_iff.1 htype
    -- The words behind the name are not looked at.
    obtain ⟨extra, rfl⟩ : ∃ extra, tokens =
        ['.' :: type.name.toList, word ++ commas] ++ extra := by
      rcases tokens with _ | ⟨first, _ | ⟨second, extra⟩⟩
      · cases htype'
      · cases hword
      · obtain rfl := Option.some.inj htype'
        obtain rfl := Option.some.inj hword
        exact ⟨extra, rfl⟩
    refine ⟨rfl, _, extra, ⟨?_, ?_, front, word, commas, hfront, ?_, hcommas, rfl⟩, ?_⟩
    · rwa [String.toList_ofList]
    · rintro rfl
      cases hsize
      exact hends
    · rwa [String.toList_ofList]
    · simp [hwords]
  · rintro ⟨rfl, ws, extra, ⟨hbracket, hends, front, word, commas, hfront, hsize, hcommas, rfl⟩,
      hwords⟩
    have hwords' : words cs =
        front ++ ('.' :: v.type.name.toList) :: (word ++ commas) :: extra := by
      simpa using (List.cons.inj hwords).2
    have halign := readAlignment_eq_ok_iff.2 ⟨front, hfront, hwords', fun _ hhead =>
      typeWord_ne_align v.type (Option.some.inj hhead)⟩
    have htype := readType_eq_ok_iff.2 (rfl : some ('.' :: v.type.name.toList) = _)
    have hname : readName (some (word ++ commas)) = .ok word :=
      readName_eq_ok_iff.2 ⟨commas, hcommas, endsWord_of_statesSize hsize hends, rfl⟩
    have hsized := readSizedName_eq_ok_iff.2 ⟨hsize, hbracket⟩
    rw [readVariable, halign]
    simp only [List.getElem?_cons_zero, List.getElem?_cons_succ, htype, hname, hsized, bind,
      Except.bind, pure, Except.pure, String.ofList_toList]

/-! ## What is read -/

theorem isWord_of_mem_words {cs word part : List Char} (hcode : IsCode cs) (h : word ∈ words cs)
    (hpart : part <:+: word) : IsWord (String.ofList part) := by
  obtain ⟨-, hblank, hword⟩ := mem_words h
  constructor
  · rw [String.toList_ofList]
    exact (hcode.part hword).part hpart
  · rw [String.toList_ofList]
    exact fun c hc => hblank c (hpart.subset hc)

theorem isRead_of_readParameter {cs : List Char} {p : Parameter} (hcode : IsCode cs)
    (h : readParameter cs = .ok p) : p.IsRead := by
  obtain ⟨commas, -, hends, hwords⟩ := readParameter_eq_ok_iff.1 h
  have hmem : p.name.toList ++ commas ∈ words cs := by
    rw [hwords]
    exact List.mem_cons_of_mem _ (List.mem_singleton_self _)
  have hword := isWord_of_mem_words hcode hmem (List.prefix_append _ commas).isInfix
  rw [String.ofList_toList] at hword
  exact ⟨hword, hends⟩

theorem isRead_of_readVariable {space : StateSpace} {cs : List Char} {v : Variable}
    (hcode : IsCode cs) (h : readVariable space cs = .ok v) : v.space = space ∧ v.IsRead := by
  obtain ⟨hspace, ws, extra, ⟨hbracket, hends, front, word, commas, -, hsize, -, rfl⟩, hwords⟩ :=
    readVariable_eq_ok_iff.1 h
  have hmem : word ++ commas ∈ words cs := by
    rw [(List.cons.inj hwords).2]
    simp
  have hpart : v.name.toList <:+: word ++ commas := by
    refine List.IsInfix.trans ?_ (List.prefix_append word commas).isInfix
    generalize v.elements = elements at hsize
    cases hsize with
    | none => exact List.infix_refl _
    | some _ => exact (List.prefix_append ..).isInfix
  have hword := isWord_of_mem_words hcode hmem hpart
  rw [String.ofList_toList] at hword
  exact ⟨hspace, hword, hbracket, hends⟩

/-- The name of a kernel as it stands in a header. -/
structure IsTitle (name : String) : Prop where
  code : IsCode name.toList
  trimmed : Trimmed name.toList
  bracket : '(' ∉ name.toList

/-- What a declaration that has been read is like. -/
def IsDeclaration : Statement → Prop
  | label _ => False
  | instruction _ => False
  | parameter p => p.IsRead
  | localVariable v => v.space = .localMemory ∧ v.IsRead
  | sharedVariable v => v.space = .sharedMemory ∧ v.IsRead
  | entry name => IsTitle name

theorem mem_join {s : Statement} {rs : List Reading} :
    s ∈ (Reading.join rs).statements ↔ ∃ r ∈ rs, s ∈ r.statements := by
  induction rs with
  | nil => simp
  | cons r rs ih => simp [ih]

theorem mem_ofExcept {s : Statement} {r : Except ReadError Statement} :
    s ∈ (Reading.ofExcept r).statements ↔ r = .ok s := by
  cases r with
  | error e => simp [Reading.ofExcept, Reading.error]
  | ok s' => simp [Reading.ofExcept, Reading.statement, eq_comm]

theorem isDeclaration_of_readHeaderParameters {cs : List Char} (hcode : IsCode cs) {s : Statement}
    (h : s ∈ (readHeaderParameters cs).statements) : s.IsDeclaration := by
  obtain ⟨r, hr, hs⟩ := mem_join.1 h
  obtain ⟨piece, hpiece, rfl⟩ := List.mem_map.1 hr
  obtain ⟨part, hpart, rfl⟩ := List.mem_map.1 (List.mem_filter.1 hpiece).1
  have hcode' : IsCode (trim part) := (hcode.part (mem_split hpart).2).part (trim_isInfix part)
  rw [mem_ofExcept, readHeaderParameter] at hs
  split at hs
  · next rest hrest =>
    obtain ⟨p, hp, rfl⟩ := exists_of_map_eq_ok hs
    have happend := List.isPrefixOf?_eq_some_iff_append_eq.1 hrest
    have hsuffix : rest <:+ trim part := ⟨_, happend⟩
    exact isRead_of_readParameter (hcode'.part hsuffix.isInfix) hp
  · cases hs

theorem isTitle_trim {cs : List Char} (hcode : IsCode cs) (hbracket : '(' ∉ cs) :
    IsTitle (String.ofList (trim cs)) := by
  constructor
  · rw [String.toList_ofList]
    exact hcode.part (trim_isInfix cs)
  · rw [String.toList_ofList]
    exact (trim_spec cs).1
  · rw [String.toList_ofList]
    exact fun hmem => hbracket ((trim_isInfix cs).subset hmem)

theorem isDeclaration_of_readHeader {cs : List Char} (hcode : IsCode cs) {s : Statement}
    (h : s ∈ (readHeader cs).statements) : s.IsDeclaration := by
  unfold readHeader at h
  split at h
  · next before after hcut =>
    obtain ⟨c, -, rfl, hbefore⟩ := cutAt?_eq_some hcut
    rw [Reading.statements_append, List.mem_append] at h
    rcases h with h | h
    · split at h
      · cases h
      · obtain rfl := List.mem_singleton.1 h
        refine isTitle_trim (hcode.part (List.prefix_append before _).isInfix) ?_
        exact fun hmem => absurd (hbefore '(' hmem) (by decide)
    · refine isDeclaration_of_readHeaderParameters (hcode.part ?_) h
      refine (dropEndWhile_isPrefix _ _).isInfix.trans ?_
      refine (dropEndWhile_isPrefix _ after).isInfix.trans ?_
      exact ⟨before ++ [c], [], by simp⟩
  · next hcut =>
    dsimp only at h
    split at h
    · cases h
    · obtain rfl := List.mem_singleton.1 h
      refine isTitle_trim hcode fun hmem => ?_
      rw [cutAt?, if_pos (List.any_eq_true.2 ⟨'(', hmem, rfl⟩)] at hcut
      cases hcut

theorem isDeclaration_of_readDirective {cs : List Char} (hcode : IsCode cs) {s : Statement}
    (h : s ∈ (readDirective cs).statements) : s.IsDeclaration := by
  have hrest : IsCode (cutAt isBlank cs).2 :=
    hcode.part ((List.tail_suffix _).trans (List.dropWhile_suffix _)).isInfix
  unfold readDirective at h
  dsimp only at h
  split at h
  · exact isDeclaration_of_readHeader hrest h
  · split at h
    · obtain ⟨p, hp, rfl⟩ := exists_of_map_eq_ok (mem_ofExcept.1 h)
      exact isRead_of_readParameter hrest hp
    · split at h
      · obtain ⟨v, hv, rfl⟩ := exists_of_map_eq_ok (mem_ofExcept.1 h)
        exact isRead_of_readVariable hrest hv
      · split at h
        · obtain ⟨v, hv, rfl⟩ := exists_of_map_eq_ok (mem_ofExcept.1 h)
          exact isRead_of_readVariable hrest hv
        · split at h
          · cases h
          · cases h

end Statement

end KernelListing
