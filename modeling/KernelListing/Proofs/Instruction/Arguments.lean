import KernelListing.Instruction.Reader
import KernelListing.Proofs.Text.Token

/-!
# Cutting arguments apart

Arguments are cut at the commas outside all brackets. `Solid` says of a text that it has no such
comma, where some brackets may be open in front of it, and `Arguments` of some texts that they
can stand behind one another: each of them is solid, and all but the last close what they open.
`splitArguments` yields such texts and finds them again when commas are put between them.
-/

namespace KernelListing.Instruction

open Text

/-- How many brackets are open behind a text. -/
def depthBehind (depth : Nat) (cs : List Char) : Nat := cs.foldl depthAfter depth

/-- No comma of a text stands outside all brackets, where `depth` are open in front of it. -/
def Solid (depth : Nat) : List Char → Prop
  | [] => True
  | c :: cs => ¬ (c = ',' ∧ depth = 0) ∧ Solid (depthAfter depth c) cs

/-- A character that is neither a bracket nor a comma. -/
def isNeutral (c : Char) : Bool := c ∉ [',', '{', '}', '[', ']']

theorem depthBehind_append (depth : Nat) (cs cs' : List Char) :
    depthBehind depth (cs ++ cs') = depthBehind (depthBehind depth cs) cs' := List.foldl_append

theorem solid_append {depth : Nat} {cs cs' : List Char} :
    Solid depth (cs ++ cs') ↔ Solid depth cs ∧ Solid (depthBehind depth cs) cs' := by
  induction cs generalizing depth with
  | nil => exact (and_iff_right trivial).symm
  | cons c cs ih =>
    simp only [List.cons_append, Solid, ih, and_assoc]
    rfl

section neutral

variable {cs : List Char}

theorem depthAfter_of_isNeutral {c : Char} (h : isNeutral c = true) (depth : Nat) :
    depthAfter depth c = depth := by
  simp only [isNeutral, List.mem_cons, List.not_mem_nil, or_false, not_or, decide_eq_true_eq] at h
  simp [depthAfter, h]

theorem depthAfter_of_comma_or_isNeutral {c : Char} (h : c = ',' ∨ isNeutral c = true)
    (depth : Nat) : depthAfter depth c = depth := by
  rcases h with rfl | h
  · rfl
  · exact depthAfter_of_isNeutral h depth

theorem depthBehind_of_forall (h : ∀ c ∈ cs, c = ',' ∨ isNeutral c = true) (depth : Nat) :
    depthBehind depth cs = depth := by
  induction cs with
  | nil => rfl
  | cons c cs ih =>
    obtain ⟨hc, hcs⟩ := List.forall_mem_cons.1 h
    rw [depthBehind, List.foldl_cons, depthAfter_of_comma_or_isNeutral hc]
    exact ih hcs

theorem solid_of_forall (h : ∀ c ∈ cs, c = ',' ∨ isNeutral c = true) {depth : Nat}
    (hdepth : depth ≠ 0) : Solid depth cs := by
  induction cs with
  | nil => trivial
  | cons c cs ih =>
    obtain ⟨hc, hcs⟩ := List.forall_mem_cons.1 h
    rw [Solid, depthAfter_of_comma_or_isNeutral hc]
    exact ⟨fun hcomma => hdepth hcomma.2, ih hcs⟩

theorem depthBehind_of_isNeutral (h : ∀ c ∈ cs, isNeutral c = true) (depth : Nat) :
    depthBehind depth cs = depth := depthBehind_of_forall (fun c hc => .inr (h c hc)) depth

theorem solid_of_isNeutral (h : ∀ c ∈ cs, isNeutral c = true) (depth : Nat) : Solid depth cs := by
  induction cs with
  | nil => trivial
  | cons c cs ih =>
    obtain ⟨hc, hcs⟩ := List.forall_mem_cons.1 h
    rw [Solid, depthAfter_of_isNeutral hc]
    refine ⟨?_, ih hcs⟩
    rintro ⟨rfl, -⟩
    exact absurd hc (by decide)

theorem isNeutral_of_forall {p : Char → Bool}
    (hp : ∀ d ∈ [',', '{', '}', '[', ']'], p d = false) {c : Char} (h : p c = true) :
    isNeutral c = true := by
  refine decide_eq_true fun hc => ?_
  rw [hp c hc] at h
  cases h

theorem isNeutral_of_isTokenChar {c : Char} (h : isTokenChar c = true) : isNeutral c = true :=
  isNeutral_of_forall (by decide) h

theorem isNeutral_of_isLiteralChar {c : Char} (h : isLiteralChar c = true) : isNeutral c = true :=
  isNeutral_of_forall (by decide) h

theorem isNeutral_of_isBlank {c : Char} (h : isBlank c = true) : isNeutral c = true :=
  isNeutral_of_forall (by decide) h

end neutral

/-! ## Commas and brackets -/

/-- The commas and brackets of a text, in their order. -/
def skeleton (cs : List Char) : List Char := cs.filter (! isNeutral ·)

section skeleton

variable {cs cs' : List Char}

theorem skeleton_append (cs cs' : List Char) : skeleton (cs ++ cs') = skeleton cs ++ skeleton cs' :=
  List.filter_append ..

theorem skeleton_of_isNeutral (h : ∀ c ∈ cs, isNeutral c = true) : skeleton cs = [] :=
  List.filter_eq_nil_iff.2 fun c hc => by simp [h c hc]

theorem skeleton_cons_of_isNeutral {c : Char} (h : isNeutral c = true) :
    skeleton (c :: cs) = skeleton cs := List.filter_cons_of_neg (by simp [h])

theorem solid_skeleton {depth : Nat} : Solid depth (skeleton cs) ↔ Solid depth cs := by
  induction cs generalizing depth with
  | nil => rfl
  | cons c cs ih =>
    cases hc : isNeutral c with
    | true =>
      have hcomma : c ≠ ',' := by
        rintro rfl
        exact absurd hc (by decide)
      rw [skeleton_cons_of_isNeutral hc, ih, Solid, depthAfter_of_isNeutral hc]
      exact (and_iff_right fun h => hcomma h.1).symm
    | false =>
      rw [skeleton, List.filter_cons_of_pos (by simp [hc]), ← skeleton, Solid, ih, Solid]

theorem depthBehind_skeleton (depth : Nat) :
    depthBehind depth (skeleton cs) = depthBehind depth cs := by
  induction cs generalizing depth with
  | nil => rfl
  | cons c cs ih =>
    cases hc : isNeutral c with
    | true =>
      rw [skeleton_cons_of_isNeutral hc, ih, depthBehind, depthBehind, List.foldl_cons,
        depthAfter_of_isNeutral hc]
    | false =>
      rw [skeleton, List.filter_cons_of_pos (by simp [hc]), ← skeleton]
      exact ih (depthAfter depth c)

/-- Only commas and brackets matter. -/
theorem solid_congr (h : skeleton cs = skeleton cs') {depth : Nat} :
    Solid depth cs ↔ Solid depth cs' := by
  rw [← solid_skeleton, h, solid_skeleton]

theorem depthBehind_congr (h : skeleton cs = skeleton cs') (depth : Nat) :
    depthBehind depth cs = depthBehind depth cs' := by
  rw [← depthBehind_skeleton, h, depthBehind_skeleton]

theorem skeleton_neutral_append {front back : List Char} (hfront : ∀ c ∈ front, isNeutral c = true)
    (hback : ∀ c ∈ back, isNeutral c = true) : skeleton (front ++ cs ++ back) = skeleton cs := by
  rw [skeleton_append, skeleton_append, skeleton_of_isNeutral hfront, skeleton_of_isNeutral hback,
    List.nil_append, List.append_nil]

theorem trim_neutral (cs : List Char) : ∃ front back, cs = front ++ trim cs ++ back ∧
    (∀ c ∈ front, isNeutral c = true) ∧ ∀ c ∈ back, isNeutral c = true := by
  obtain ⟨-, front, back, hcs, hfront, hback⟩ := trim_spec cs
  exact ⟨front, back, hcs, fun c hc => isNeutral_of_isBlank (hfront c hc),
    fun c hc => isNeutral_of_isBlank (hback c hc)⟩

theorem skeleton_trim (cs : List Char) : skeleton (trim cs) = skeleton cs := by
  obtain ⟨front, back, hcs, hfront, hback⟩ := trim_neutral cs
  conv_rhs => rw [hcs, skeleton_neutral_append hfront hback]

theorem skeleton_intercalate (t : List Char) (ts : List (List Char)) :
    skeleton ([',', ' '].intercalate (t :: ts)) =
      skeleton t ++ ts.flatMap fun u => ',' :: skeleton u := by
  induction ts generalizing t with
  | nil => rw [List.intercalate_singleton, List.flatMap_nil, List.append_nil]
  | cons u ts ih =>
    rw [List.intercalate_cons_cons, skeleton_append, skeleton_append, ih, List.flatMap_cons,
      List.append_assoc]
    rfl

theorem skeleton_map_trim_split (cs : List Char) :
    skeleton ([',', ' '].intercalate ((split (· == ',') cs).map trim)) = skeleton cs := by
  have hcs := flatten_intersperse_split ',' cs
  cases hpieces : split (· == ',') cs with
  | nil => exact absurd hpieces (split_ne_nil _ cs)
  | cons piece pieces =>
    rw [hpieces, List.headD_cons, List.tail_cons] at hcs
    conv_rhs => rw [← hcs, skeleton_append, skeleton, skeleton, List.filter_flatMap]
    rw [List.map_cons, skeleton_intercalate, skeleton_trim, List.flatMap_map]
    simp only [skeleton_trim]
    rfl

end skeleton

/-! ## Pieces -/

/-- Texts that commas can stand between, where `depth` brackets are open in front of the first. -/
def Pieces (depth : Nat) : List (List Char) → Prop
  | [] => True
  | [piece] => Solid depth piece
  | piece :: pieces => Solid depth piece ∧ depthBehind depth piece = 0 ∧ Pieces 0 pieces

theorem pieces_cons {depth : Nat} {piece : List Char} {pieces : List (List Char)}
    (h : pieces ≠ []) : Pieces depth (piece :: pieces) ↔
      Solid depth piece ∧ depthBehind depth piece = 0 ∧ Pieces 0 pieces := by
  cases pieces with
  | nil => exact absurd rfl h
  | cons piece' pieces => rfl

theorem pieces_consFirst {depth : Nat} {c : Char} {pieces : List (List Char)} (hne : pieces ≠ [])
    (hc : ¬ (c = ',' ∧ depth = 0)) (h : Pieces (depthAfter depth c) pieces) :
    Pieces depth (consFirst c pieces) := by
  cases pieces with
  | nil => exact absurd rfl hne
  | cons piece pieces =>
    cases pieces with
    | nil => exact ⟨hc, h⟩
    | cons piece' pieces => exact ⟨⟨hc, h.1⟩, h.2⟩

theorem argumentPieces_ne_nil (depth : Nat) (cs : List Char) : argumentPieces depth cs ≠ [] := by
  cases cs with
  | nil => exact List.cons_ne_nil _ _
  | cons c cs =>
    rw [argumentPieces]
    split
    · exact List.cons_ne_nil _ _
    · exact consFirst_ne_nil c _

theorem pieces_argumentPieces (depth : Nat) (cs : List Char) :
    Pieces depth (argumentPieces depth cs) := by
  induction cs generalizing depth with
  | nil => trivial
  | cons c cs ih =>
    rw [argumentPieces]
    split
    · next hc =>
      rw [pieces_cons (argumentPieces_ne_nil 0 cs)]
      exact ⟨trivial, hc.2, ih 0⟩
    · next hc => exact pieces_consFirst (argumentPieces_ne_nil _ cs) hc (ih _)

theorem flatten_argumentPieces (depth : Nat) (cs : List Char) :
    (argumentPieces depth cs).headD [] ++ (argumentPieces depth cs).tail.flatMap (',' :: ·) =
      cs := by
  -- The depth is generalized, as each character may change it for the rest.
  induction cs generalizing depth with
  | nil => rfl
  | cons c cs ih =>
    rw [argumentPieces]
    split
    · next hc =>
      have hcs := ih 0
      cases hpieces : argumentPieces 0 cs with
      | nil => exact absurd hpieces (argumentPieces_ne_nil 0 cs)
      | cons piece pieces =>
        rw [hpieces] at hcs
        rw [hc.1]
        simpa using hcs
    · have hcs := ih (depthAfter depth c)
      cases hpieces : argumentPieces (depthAfter depth c) cs with
      | nil => exact absurd hpieces (argumentPieces_ne_nil _ cs)
      | cons piece pieces =>
        rw [hpieces] at hcs
        simpa [consFirst] using hcs

theorem infix_of_mem_argumentPieces {depth : Nat} {cs piece : List Char}
    (h : piece ∈ argumentPieces depth cs) : piece <:+: cs := by
  have hcs := flatten_argumentPieces depth cs
  cases hpieces : argumentPieces depth cs with
  | nil => exact absurd hpieces (argumentPieces_ne_nil depth cs)
  | cons first pieces =>
    rw [hpieces] at h hcs
    rw [List.headD_cons, List.tail_cons] at hcs
    rw [← hcs]
    rcases List.mem_cons.1 h with rfl | h
    · exact (List.prefix_append ..).isInfix
    · obtain ⟨before, behind, rfl⟩ := List.append_of_mem h
      exact ⟨first ++ before.flatMap (',' :: ·) ++ [','], behind.flatMap (',' :: ·), by simp⟩

theorem argumentPieces_of_solid {depth : Nat} {cs : List Char} (h : Solid depth cs) :
    argumentPieces depth cs = [cs] := by
  induction cs generalizing depth with
  | nil => rfl
  | cons c cs ih => rw [argumentPieces, if_neg h.1, ih h.2, consFirst]

/-- A comma behind a solid text that closes what it opens. -/
theorem argumentPieces_append_comma {depth : Nat} {cs : List Char} (h : Solid depth cs)
    (hdepth : depthBehind depth cs = 0) (cs' : List Char) :
    argumentPieces depth (cs ++ ',' :: cs') = cs :: argumentPieces 0 cs' := by
  induction cs generalizing depth with
  | nil =>
    obtain rfl : depth = 0 := hdepth
    rw [List.nil_append, argumentPieces, if_pos ⟨rfl, rfl⟩]
  | cons c cs ih => rw [List.cons_append, argumentPieces, if_neg h.1, ih h.2 hdepth, consFirst]

/-! ## Arguments -/

/-- Texts that can be the arguments of an instruction. -/
structure Arguments (ts : List (List Char)) : Prop where
  trimmed : ∀ t ∈ ts, Trimmed t
  pieces : Pieces 0 ts

theorem pieces_map_trim {depth : Nat} {pieces : List (List Char)} (h : Pieces depth pieces) :
    Pieces depth (pieces.map trim) := by
  induction pieces generalizing depth with
  | nil => trivial
  | cons piece pieces ih =>
    cases pieces with
    | nil => exact (solid_congr (skeleton_trim piece)).2 h
    | cons piece' pieces =>
      obtain ⟨hsolid, hdepth, hpieces⟩ := h
      exact ⟨(solid_congr (skeleton_trim piece)).2 hsolid,
        (depthBehind_congr (skeleton_trim piece) depth).trans hdepth, ih hpieces⟩

theorem splitArguments_spec (cs : List Char) :
    Arguments (splitArguments cs) ∧ ∀ t ∈ splitArguments cs, t <:+: cs := by
  have hspec : Arguments ((argumentPieces 0 cs).map trim) ∧
      ∀ t ∈ (argumentPieces 0 cs).map trim, t <:+: cs := by
    refine ⟨⟨fun t ht => ?_, pieces_map_trim (pieces_argumentPieces 0 cs)⟩, fun t ht => ?_⟩
    · obtain ⟨piece, -, rfl⟩ := List.mem_map.1 ht
      exact (trim_spec piece).1
    · obtain ⟨piece, hpiece, rfl⟩ := List.mem_map.1 ht
      exact (trim_isInfix piece).trans (infix_of_mem_argumentPieces hpiece)
  unfold splitArguments
  split
  · exact ⟨⟨fun t ht => absurd ht List.not_mem_nil, trivial⟩,
      fun t ht => absurd ht List.not_mem_nil⟩
  · exact hspec

theorem map_trim_argumentPieces_blank (cs : List Char) :
    (argumentPieces 0 (' ' :: cs)).map trim = (argumentPieces 0 cs).map trim := by
  have hblank : ∀ piece, trim (' ' :: piece) = trim piece := fun piece => rfl
  rw [argumentPieces, if_neg (by simp), depthAfter_of_isNeutral (by decide)]
  cases hpieces : argumentPieces 0 cs with
  | nil => exact absurd hpieces (argumentPieces_ne_nil 0 cs)
  | cons piece pieces => rw [consFirst, List.map_cons, List.map_cons, hblank]

theorem map_trim_argumentPieces_intercalate {ts : List (List Char)} (h : Arguments ts)
    (hne : ts ≠ []) : (argumentPieces 0 ([',', ' '].intercalate ts)).map trim = ts := by
  induction ts with
  | nil => exact absurd rfl hne
  | cons t ts ih =>
    have htrim := trim_eq_self (h.trimmed t (List.mem_cons_self ..))
    cases ts with
    | nil =>
      rw [List.intercalate_singleton, argumentPieces_of_solid h.pieces, List.map_singleton, htrim]
    | cons t' ts =>
      obtain ⟨hsolid, hdepth, hpieces⟩ := h.pieces
      have hrest := ih ⟨fun u hu => h.trimmed u (List.mem_cons_of_mem t hu), hpieces⟩
        (List.cons_ne_nil t' ts)
      rw [List.intercalate_cons_cons, List.append_assoc, List.cons_append, List.cons_append,
        List.nil_append, argumentPieces_append_comma hsolid hdepth, List.map_cons, htrim,
        map_trim_argumentPieces_blank, hrest]

theorem splitArguments_ne_blank (cs : List Char) : splitArguments cs ≠ [[]] := by
  unfold splitArguments
  split
  · exact (List.cons_ne_nil _ _).symm
  · next h => exact h

/-- Arguments with commas between them are found again, and no other texts are. -/
theorem splitArguments_intercalate_iff {ts : List (List Char)} :
    splitArguments ([',', ' '].intercalate ts) = ts ↔ Arguments ts ∧ ts ≠ [[]] := by
  constructor
  · intro h
    rw [← h]
    exact ⟨(splitArguments_spec _).1, splitArguments_ne_blank _⟩
  · rintro ⟨h, hne⟩
    cases ts with
    | nil => rfl
    | cons t ts =>
      rw [splitArguments, map_trim_argumentPieces_intercalate h (List.cons_ne_nil t ts)]
      split
      · next heq => exact absurd heq hne
      · rfl

/-! ## Arguments for arguments -/

/-- A text that can stand in the place of an argument. -/
structure Replaces (cs token : List Char) : Prop where
  ne_nil : cs ≠ []
  trimmed : Trimmed cs
  isCode : IsCode cs
  solid : Solid 0 token → Solid 0 cs
  closes : depthBehind 0 token = 0 → depthBehind 0 cs = 0

/-- A text that can stand in the place of an argument and does not start with a colon, which would
make a label of what stands in front of it. -/
structure StandsFor (cs token : List Char) : Prop extends Replaces cs token where
  head_ne : cs.head? ≠ some ':'

/-- Commas and brackets are all that must be the same. -/
theorem replaces_of_skeleton {cs token : List Char} (h : skeleton cs = skeleton token)
    (hne : cs ≠ []) (htrimmed : Trimmed cs) (hcode : IsCode cs) : Replaces cs token :=
  ⟨hne, htrimmed, hcode, (solid_congr h).2, fun hdepth => (depthBehind_congr h 0).trans hdepth⟩

theorem standsFor_of_forall {cs : List Char} (h : ∀ c ∈ cs, c = '|' ∨ isTokenChar c = true)
    (hne : cs ≠ []) (token : List Char) : StandsFor cs token := by
  have hchar : ∀ c ∈ cs, isBlank c = false ∧ isPlain c = true ∧ c ≠ ':' ∧ isNeutral c = true := by
    intro c hc
    rcases h c hc with rfl | htoken
    · decide
    · exact ⟨not_isBlank_of_isTokenChar htoken, isPlain_of_isTokenChar htoken,
        ne_of_isTokenChar htoken (by decide), isNeutral_of_isTokenChar htoken⟩
  refine ⟨⟨hne, ?_, ?_, ?_, ?_⟩, ?_⟩
  · exact trimmed_of_forall fun c hc => (hchar c hc).1
  · exact isCode_of_forall fun c hc => (hchar c hc).2.1
  · exact fun _ => solid_of_isNeutral (fun c hc => (hchar c hc).2.2.2) 0
  · exact fun _ => depthBehind_of_isNeutral (fun c hc => (hchar c hc).2.2.2) 0
  · exact fun hhead => (hchar ':' (List.mem_of_head? hhead)).2.2.1 rfl

theorem standsFor_of_isToken {cs : List Char} (h : IsToken cs) (hne : cs ≠ [])
    (token : List Char) : StandsFor cs token :=
  standsFor_of_forall (fun c hc => .inr (h c hc)) hne token

section brackets

variable {first last : Char} (hpair : (first, last) ∈ [('{', '}'), ('[', ']')])

include hpair

theorem opening_bracket : isPlain first = true ∧ isBlank first = false ∧ first ≠ ':' ∧
    first ≠ ',' ∧ ∀ depth, depthAfter depth first = depth + 1 := by
  rcases List.mem_cons.1 hpair with h | h
  · cases h
    exact ⟨by decide, by decide, by decide, by decide, fun depth => rfl⟩
  · cases List.mem_singleton.1 h
    exact ⟨by decide, by decide, by decide, by decide, fun depth => rfl⟩

theorem closing_bracket : isPlain last = true ∧ isBlank last = false ∧ last ≠ ',' ∧
    ∀ depth, depthAfter depth last = depth - 1 := by
  rcases List.mem_cons.1 hpair with h | h
  · cases h
    exact ⟨by decide, by decide, by decide, fun depth => rfl⟩
  · cases List.mem_singleton.1 h
    exact ⟨by decide, by decide, by decide, fun depth => rfl⟩

theorem solid_brackets (cs : List Char) : Solid 0 (first :: (cs ++ [last])) ↔ Solid 1 cs := by
  obtain ⟨-, -, -, hcomma, hopen⟩ := opening_bracket hpair
  obtain ⟨-, -, hcomma', -⟩ := closing_bracket hpair
  simp only [Solid, solid_append, hopen, hcomma, hcomma']
  simp

theorem depthBehind_brackets (cs : List Char) :
    depthBehind 0 (first :: (cs ++ [last])) = depthBehind 1 cs - 1 := by
  obtain ⟨-, -, -, -, hopen⟩ := opening_bracket hpair
  obtain ⟨-, -, -, hclose⟩ := closing_bracket hpair
  rw [depthBehind, List.foldl_cons, hopen]
  show depthBehind 1 (cs ++ [last]) = _
  rw [depthBehind_append]
  exact hclose _

/-- Texts between brackets, which may hold other brackets. -/
theorem standsFor_of_brackets {cs cs' : List Char} (hcode : IsCode cs)
    (hsolid : Solid 1 cs' → Solid 1 cs) (hdepth : depthBehind 1 cs' ≤ 1 → depthBehind 1 cs ≤ 1) :
    StandsFor (first :: (cs ++ [last])) (first :: (cs' ++ [last])) := by
  obtain ⟨hplain, hblank, hcolon, -, -⟩ := opening_bracket hpair
  obtain ⟨hplain', hblank', -, -⟩ := closing_bracket hpair
  refine ⟨⟨List.cons_ne_nil _ _, ⟨?_, ?_⟩, ?_, ?_, ?_⟩, ?_⟩
  · intro c hc
    obtain rfl := Option.some.inj hc
    exact hblank
  · intro c hc
    rw [← List.cons_append, List.getLast?_concat] at hc
    obtain rfl := Option.some.inj hc
    exact hblank'
  · rw [isCode_cons hplain, isCode_append_cons hplain']
    exact ⟨hcode, isCode_nil⟩
  · rw [solid_brackets hpair, solid_brackets hpair]
    exact hsolid
  · rw [depthBehind_brackets hpair, depthBehind_brackets hpair]
    omega
  · exact fun h => hcolon (Option.some.inj h)

end brackets

theorem standsFor_of_skeleton {first last : Char} {cs cs' : List Char}
    (hpair : (first, last) ∈ [('{', '}'), ('[', ']')]) (hcode : IsCode cs)
    (h : skeleton cs = skeleton cs') :
    StandsFor (first :: (cs ++ [last])) (first :: (cs' ++ [last])) :=
  standsFor_of_brackets hpair hcode (solid_congr h).2 fun hdepth =>
    (depthBehind_congr h 1).trans_le hdepth

theorem Arguments.cons_replaces {c t : List Char} {ts : List (List Char)} (h : Arguments (t :: ts))
    (hct : Replaces c t) : Arguments (c :: ts) := by
  obtain ⟨htrimmed, hpieces⟩ := h
  refine ⟨List.forall_mem_cons.2 ⟨hct.trimmed, (List.forall_mem_cons.1 htrimmed).2⟩, ?_⟩
  cases ts with
  | nil => exact hct.solid hpieces
  | cons t' ts => exact ⟨hct.solid hpieces.1, hct.closes hpieces.2.1, hpieces.2.2⟩

theorem Arguments.of_replaces {cs ts : List (List Char)} (h : Arguments ts)
    (hcs : List.Forall₂ Replaces cs ts) : Arguments cs := by
  obtain ⟨-, hpieces⟩ := h
  induction hcs with
  | nil => exact ⟨fun t ht => absurd ht List.not_mem_nil, trivial⟩
  | @cons c t cs ts hct hcs ih =>
    have hpieces' : Pieces 0 ts := by
      cases ts with
      | nil => trivial
      | cons t' ts => exact hpieces.2.2
    obtain ⟨htrimmed, hrest⟩ := ih hpieces'
    refine ⟨List.forall_mem_cons.2 ⟨hct.trimmed, htrimmed⟩, ?_⟩
    cases hcs with
    | nil => exact hct.solid hpieces
    | cons hct' hcs => exact ⟨hct.solid hpieces.1, hct.closes hpieces.2.1, hrest⟩

end KernelListing.Instruction
