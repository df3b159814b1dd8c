import KernelListing.Proofs.Instruction.Slots
import KernelListing.Source

/-!
# How an instruction is laid out

An instruction that is made of parts is written part by part: the guard, the operation, and the
arguments with commas between them (`toList_text_putAll`). `Layout` says of such parts that they
are fit for reading. Each of them is then read in its place (`layout_of_parts`), and the whole is
read as a piece of a listing unless a label stands in front of it (`Layout.readPiece`).
-/

namespace KernelListing

open Text

namespace Instruction

/-! ## Arguments as they are written -/

/-- The text of what an argument was read as. -/
def Argument.written (x : Argument) : String :=
  x.1.text ++ (x.2.map fun q => "|" ++ q.text).getD ""

/-- Arguments that are written one by one. -/
structure Writable (xs : List Argument) : Prop where
  length : xs.length ≤ Slot.arguments.length
  valid : ∀ x ∈ xs, x.1.isValid = true
  second : ∀ x ∈ xs, ∀ q ∈ x.2, q.isValid = true
  /-- A second destination stands behind the first. -/
  tail : ∀ x ∈ xs.tail, x.2 = none

theorem Reads.writable {opcode : Opcode} {type : Option DataType} {ts : List (List Char)}
    {xs : List Argument} (h : Reads opcode type Slot.arguments ts xs)
    (hvalid : ∀ x ∈ xs, x.1.isValid = true) : Writable xs := by
  refine ⟨h.length_eq.2, hvalid, fun x hx q hq => ?_, h.second_tail⟩
  obtain ⟨-, -, name, rfl⟩ := h.second x hx q hq
  rfl

theorem Writable.map {f : Operand → Operand} (hf : ∀ op, (f op).isValid = op.isValid)
    {xs : List Argument} (h : Writable xs) : Writable (xs.map (Argument.map f)) := by
  constructor
  · rw [List.length_map]
    exact h.length
  · rw [List.forall_mem_map]
    exact fun x hx => (hf x.1).trans (h.valid x hx)
  · rw [List.forall_mem_map]
    intro x hx q hq
    obtain ⟨q', hq', rfl⟩ := Option.map_eq_some_iff.1 hq
    exact (hf q').trans (h.second x hx q' hq')
  · rw [← List.map_tail, List.forall_mem_map]
    exact fun x hx => congrArg (Option.map f) (h.tail x hx)

theorem map_filter_of_zip {α β γ : Type} {p : α → Bool} {f : α → γ} {g : β → γ} {ss : List α}
    {xs : List β} (hlength : xs.length ≤ ss.length)
    (h : ∀ s x, (s, x) ∈ ss.zip xs → p s = true ∧ f s = g x)
    (hrest : ∀ s ∈ ss.drop xs.length, p s = false) : (ss.filter p).map f = xs.map g := by
  induction ss generalizing xs with
  | nil =>
    cases xs with
    | nil => rfl
    | cons x xs => simp at hlength
  | cons s ss ih =>
    cases xs with
    | nil =>
      have hnone : (s :: ss).filter p = [] := List.filter_eq_nil_iff.2 fun s' hs' => by
        simpa using hrest s' hs'
      rw [hnone]
      rfl
    | cons x xs =>
      obtain ⟨hp, hf⟩ := h s x (by simp)
      have hih := ih (by simpa using hlength)
        (fun s' x' hmem => h s' x' (by simp [hmem])) (by simpa using hrest)
      rw [List.filter_cons_of_pos hp, List.map_cons, List.map_cons, hf, hih]

theorem argumentTexts_putAll {token : List Char} {operation : Instruction}
    (hoperation : readOperation token = .ok operation) (guard : Operand) {xs : List Argument}
    (h : Writable xs) : ({ operation with guard }.putAll Slot.arguments xs).argumentTexts =
      xs.map Argument.written := by
  have hinvalid : Operand.isValid .invalid = false := rfl
  have hbare := (operationText_of_readOperation hoperation).2
  refine map_filter_of_zip h.length (fun s x hmem => ?_) (fun s hs => ?_)
  · have hx := (List.of_mem_zip hmem).2
    have hoperand := operand_putAll_of_mem { operation with guard } (by decide) (by decide) hmem
    rw [hoperand]
    refine ⟨h.valid x hx, ?_⟩
    rw [argumentText, hoperand, Argument.written]
    congr 1
    cases xs with
    | nil => cases hmem
    | cons y ys =>
      have hq : ({ operation with guard }.putAll Slot.arguments (y :: ys)).q =
          y.2.getD .invalid := by
        rw [q_putAll_arguments _ y ys h.tail, hbare]
      rw [hq]
      rw [Slot.arguments, List.zip_cons_cons, List.mem_cons] at hmem
      rcases hmem with hmem | hmem
      · obtain ⟨rfl, rfl⟩ := Prod.mk.inj hmem
        cases hsecond : x.2 with
        | none => simp [hinvalid]
        | some q => simp [h.second x hx q hsecond]
      · have hs : s ≠ .d := by
          rintro rfl
          exact absurd (List.of_mem_zip hmem).1 (by decide)
        rw [if_neg fun hd => hs hd.1, h.tail x (List.of_mem_zip hmem).2]
        rfl
  · -- A slot that got no argument is still as the operation left it, which is invalid.
    have hs' : s ∉ Slot.arguments.take xs.length := fun hmem =>
      List.disjoint_take_drop (by decide) (Nat.le_refl _) hmem hs
    have hq : s ≠ .q := by
      rintro rfl
      exact absurd (List.mem_of_mem_drop hs) (by decide)
    have hargument := List.mem_of_mem_drop hs
    rw [operand_putAll_of_not_mem _ hs' hq, hbare]
    cases s <;> first | rfl | exact absurd hargument (by decide)

/-- The text of some arguments behind the operation. -/
def argumentTail (ts : List (List Char)) : List Char :=
  if ts.isEmpty then [] else ' ' :: [',', ' '].intercalate ts

theorem argumentTail_cons (t : List Char) (ts : List (List Char)) :
    argumentTail (t :: ts) = ' ' :: [',', ' '].intercalate (t :: ts) := rfl

theorem toList_text (i : Instruction) : i.text.toList = i.guard.guardText.toList ++
    (i.operationText.toList ++ argumentTail (i.argumentTexts.map String.toList)) := by
  rw [text]
  cases i.argumentTexts with
  | nil => simp [argumentTail]
  | cons t ts => simp [argumentTail_cons, String.toList_intercalate]

theorem toList_text_putAll {token : List Char} {operation : Instruction}
    (hoperation : readOperation token = .ok operation) (guard : Operand) {xs : List Argument}
    (h : Writable xs) : ({ operation with guard }.putAll Slot.arguments xs).text.toList =
      guard.guardText.toList ++ (token ++ argumentTail (xs.map fun x => x.written.toList)) := by
  have htoken : ({ operation with guard } : Instruction).operationText.toList = token :=
    (operationText_of_readOperation hoperation).1
  rw [toList_text, argumentTexts_putAll hoperation guard h, guard_putAll, operationText_putAll,
    htoken, List.map_map]
  rfl

/-! ## Guards as they are written -/

theorem guardText_predicate {name : String} (h : name ≠ "") :
    (Operand.predicate name).guardText = "@" ++ name ++ " " ∧
      (Operand.predicate name).negate.guardText = "@!" ++ name ++ " " := by
  have htext : ∀ op : Operand, op.name = name → op.registerText = name := by
    rintro op rfl
    rw [Operand.registerText, if_neg (by simpa using h)]
  constructor
  · show "@" ++ (Operand.predicate name).registerText ++ " " = _
    rw [htext (.predicate name) rfl]
  · show "@!" ++ (Operand.predicate name).negate.registerText ++ " " = _
    rw [htext (Operand.predicate name).negate rfl]

theorem readGuard_of_isGuardName {name : String} (h : IsGuardName name) :
    readGuard name.toList = .ok (.predicate name) ∧
      readGuard ('!' :: name.toList) = .ok (Operand.predicate name).negate := by
  have hpredicate : readPredicate? name.toList = some (.predicate name) := by
    rw [readPredicate?, if_neg, if_pos h.head, String.ofList_toList]
    intro hpt
    have hhead := h.head
    rw [hpt] at hhead
    cases hhead
  obtain ⟨rest, hrest⟩ := List.head?_eq_some_iff.1 h.head
  constructor
  · rw [hrest] at hpredicate ⊢
    simp [readGuard, hpredicate]
  · simp [readGuard, hpredicate]

/-- A guard is written as a word behind an at sign, unless it always holds. -/
theorem IsGuard.guardText_cases {g : Operand} (h : IsGuard g) :
    g = .alwaysTrue ∧ g.guardText.toList = [] ∨ ∃ w, IsCode w ∧ (∀ c ∈ w, isBlank c = false) ∧
      readGuard w = .ok g ∧ g.guardText.toList = '@' :: (w ++ [' ']) := by
  cases h with
  | always => exact .inl ⟨rfl, rfl⟩
  | never => exact .inr ⟨['!', 'p', 't'], isCode_of_forall (by decide), by decide, rfl, rfl⟩
  | @ifTrue name h =>
    refine .inr ⟨name.toList, h.isCode, h.blank, (readGuard_of_isGuardName h).1, ?_⟩
    rw [(guardText_predicate h.ne).1]
    simp
  | @ifFalse name h =>
    refine .inr ⟨'!' :: name.toList, (isCode_cons (by decide)).2 h.isCode,
      List.forall_mem_cons.2 ⟨by decide, h.blank⟩, (readGuard_of_isGuardName h).2, ?_⟩
    rw [(guardText_predicate h.ne).2]
    simp

theorem IsGuard.eq_alwaysTrue {g : Operand} (h : IsGuard g) (htext : g.guardText.toList = []) :
    g = .alwaysTrue := by
  rcases h.guardText_cases with ⟨hg, -⟩ | ⟨w, -, -, -, hw⟩
  · exact hg
  · rw [hw] at htext
    cases htext

theorem readGuarded_guardText {g : Operand} (h : IsGuard g) {c : Char} (cs : List Char)
    (hblank : isBlank c = false) (hat : c ≠ '@') :
    readGuarded (g.guardText.toList ++ c :: cs) = .ok (g, c :: cs) := by
  rcases h.guardText_cases with ⟨rfl, htext⟩ | ⟨w, -, hw, hread, htext⟩
  · rw [htext, List.nil_append, readGuarded]
    rintro rest heq
    exact hat (List.cons.inj heq).1
  · have hcut : cutAt isBlank (w ++ ' ' :: c :: cs) = (w, c :: cs) :=
      cutAt_append_cons hw (by decide) _
    have hstart : trimStart (c :: cs) = c :: cs := by
      rw [trimStart, List.dropWhile_cons_of_neg (by simp [hblank])]
    rw [htext, List.cons_append, List.append_assoc, List.singleton_append, readGuarded, hcut,
      hstart, hread]
    rfl

/-! ## Reading the parts -/

theorem cutAt_argumentTail {token : List Char} (h : ∀ c ∈ token, isBlank c = false)
    (ts : List (List Char)) :
    cutAt isBlank (token ++ argumentTail ts) = (token, [',', ' '].intercalate ts) := by
  cases ts with
  | nil => exact (congrArg _ (List.append_nil token)).trans (cutAt_of_forall h)
  | cons t ts => exact cutAt_append_cons h (by decide) _

theorem exists_alpha_of_readOperation {token : List Char} {i : Instruction}
    (h : readOperation token = .ok i) : ∃ c cs, token = c :: cs ∧ c.isAlpha = true := by
  obtain ⟨c, cs, hname, halpha, -⟩ := name_toList i.opcode
  rw [← (operationText_of_readOperation h).1, operationText, String.toList_append,
    String.toList_append, hname]
  exact ⟨c, _, rfl, halpha⟩

/-- Arguments that can be read again, one by one, from other texts. -/
theorem Reads.again {opcode : Opcode} {type : Option DataType} {ss : List Slot}
    {ts : List (List Char)} {xs : List Argument} {R : List Char → List Char → Prop}
    {f : Argument → List Char} {g : Argument → Argument} (h : Reads opcode type ss ts xs)
    (hxs : ∀ s t x, (s, x) ∈ ss.zip xs → t ∈ ts → argument? opcode type s t = .ok x →
      x.1.isValid = true ∧ R (f x) t ∧ argument? opcode type s (f x) = .ok (g x)) :
    (∀ x ∈ xs, x.1.isValid = true) ∧ List.Forall₂ R (xs.map f) ts ∧
      Reads opcode type ss (xs.map f) (xs.map g) := by
  induction h with
  | nil => exact ⟨List.forall_mem_nil _, .nil, .nil⟩
  | @cons s ss t ts x xs hx _ ih =>
    obtain ⟨hvalid, hR, hread⟩ := hxs s t x (by simp) (List.mem_cons_self ..) hx
    obtain ⟨hvalid', hR', hread'⟩ := ih fun s' t' x' hmem ht' =>
      hxs s' t' x' (List.mem_cons_of_mem _ hmem) (List.mem_cons_of_mem t ht')
    exact ⟨List.forall_mem_cons.2 ⟨hvalid, hvalid'⟩, .cons hR hR', .cons hread hread'⟩

/-- Parts that an instruction can be written as: what stands in front of the operation, the
operation, and the arguments. -/
structure Layout (front token : List Char) (us : List (List Char)) : Prop where
  front : front = [] ∨ ∃ w, IsCode w ∧ front = '@' :: (w ++ [' '])
  blank : ∀ c ∈ token, isBlank c = false
  alpha : ∃ c cs, token = c :: cs ∧ c.isAlpha = true
  isCode : IsCode token
  arguments : ∀ u ∈ us, u ≠ [] ∧ Trimmed u ∧ IsCode u

theorem forall_of_replaces {us ts : List (List Char)} (h : List.Forall₂ Replaces us ts) :
    ∀ u ∈ us, u ≠ [] ∧ Trimmed u ∧ IsCode u :=
  ((List.forall₂_and_left us ts).1 (h.imp fun _ _ hu => ⟨⟨hu.ne_nil, hu.trimmed, hu.isCode⟩, hu⟩)).1

/-- A guard, an operation and some arguments are read in their places. -/
theorem layout_of_parts {guard : Operand} {operation : Instruction} {token : List Char}
    {us ts : List (List Char)} {xs : List Argument} (hguard : IsGuard guard)
    (hoperation : readOperation token = .ok operation) (hblank : ∀ c ∈ token, isBlank c = false)
    (hcode : IsCode token) (harguments : Arguments ts) (hus : List.Forall₂ Replaces us ts)
    (hreads : Reads operation.opcode operation.type Slot.arguments us xs) :
    Layout guard.guardText.toList token us ∧
      readInstruction (guard.guardText.toList ++ (token ++ argumentTail us)) =
        .ok ({ operation with guard }.putAll Slot.arguments xs) := by
  have hall := forall_of_replaces hus
  have hblank_ne : us ≠ [[]] := by
    rintro rfl
    exact (hall [] (List.mem_singleton_self [])).1 rfl
  have hsplit := splitArguments_intercalate_iff.2 ⟨harguments.of_replaces hus, hblank_ne⟩
  have hlength := hreads.length_eq
  have hread : readArguments { operation with guard } (Slot.arguments.zip us) =
      .ok ({ operation with guard }.putAll Slot.arguments xs) :=
    (readArguments_eq_ok_iff (hlength.1 ▸ hlength.2)).2 ⟨xs, hreads, rfl⟩
  have hcut := cutAt_argumentTail hblank us
  obtain ⟨c, cs, rfl, halpha⟩ := exists_alpha_of_readOperation hoperation
  have hat : c ≠ '@' := by
    rintro rfl
    exact absurd halpha (by decide)
  have hguarded := readGuarded_guardText hguard (cs ++ argumentTail us)
    (hblank c (List.mem_cons_self ..)) hat
  have hfront : guard.guardText.toList = [] ∨
      ∃ w, IsCode w ∧ guard.guardText.toList = '@' :: (w ++ [' ']) :=
    hguard.guardText_cases.imp And.right fun ⟨w, hw, _, _, htext⟩ => ⟨w, hw, htext⟩
  refine ⟨⟨hfront, hblank, ⟨c, cs, rfl, halpha⟩, hcode, hall⟩, ?_⟩
  rw [← List.cons_append] at hguarded
  rw [readInstruction, hguarded]
  simp only [Except.mapError, bind, Except.bind, hcut, hoperation, hsplit]
  rw [if_neg (Nat.not_lt.2 (hlength.1 ▸ hlength.2))]
  exact hread

/-! ## Pieces of a listing -/

/-- A text that a label does not start. -/
def Unlabelled (cs : List Char) : Prop :=
  ∀ before after, cutAt? (· == ':') cs = some (before, after) → isLabelName before = false

theorem unlabelled_of_not_mem {cs : List Char} (h : ':' ∉ cs) : Unlabelled cs := by
  intro before after hcut
  obtain ⟨c, hc, rfl, -⟩ := cutAt?_eq_some hcut
  exact absurd (by simp [eq_of_beq hc]) h

theorem not_mem_operationText {i : Instruction} (h : ':' ∉ i.modifiers.toList) :
    ':' ∉ i.operationText.toList := by
  obtain ⟨-, -, -, -, hcolon⟩ := name_toList i.opcode
  rw [operationText, String.toList_append, String.toList_append, List.mem_append, List.mem_append]
  rintro ((hmem | hmem) | hmem)
  · exact hcolon ':' hmem rfl
  · exact h hmem
  · cases htype : i.type with
    | none =>
      rw [htype] at hmem
      cases hmem
    | some t =>
      rw [htype] at hmem
      revert hmem
      cases t <;> decide

/-- An operation with its arguments starts with a label only if the operation does, or if it is one
and its first argument starts with the colon. -/
theorem not_isLabelName_argumentTail {token : List Char} {us : List (List Char)}
    (htoken : ∀ c ∈ token, isBlank c = false) (hne : token ≠ []) (hlabel : Unlabelled token)
    (hus : ∀ u ∈ us, u ≠ [] ∧ Trimmed u)
    (hfirst : isLabelName token = true → ∀ u ∈ us.head?, u.head? ≠ some ':')
    {before after : List Char}
    (h : cutAt? (· == ':') (token ++ argumentTail us) = some (before, after)) :
    isLabelName (trim before) = false := by
  have htrim := trim_eq_self (trimmed_of_forall htoken)
  obtain ⟨c, hc, htext, hbefore⟩ := cutAt?_eq_some h
  obtain rfl := eq_of_beq hc
  rcases List.append_eq_append_iff.1 htext with ⟨part, rfl, hpart⟩ | ⟨part, rfl, hpart⟩
  · -- The colon stands among the arguments.
    cases us with
    | nil => simp [argumentTail] at hpart
    | cons u us =>
      obtain ⟨hu, htrimmed⟩ := hus u (List.mem_cons_self ..)
      obtain ⟨first, rest, hlist⟩ := List.exists_cons_of_ne_nil
        (trimmed_intercalate [',', ' '] (List.cons_ne_nil u us) hus).1
      have hhead := head?_intercalate [',', ' '] hu us
      rw [hlist] at hhead
      rw [argumentTail_cons, hlist] at hpart
      cases part with
      | nil => cases hpart
      | cons b part =>
        obtain ⟨rfl, hlist'⟩ := List.cons.inj hpart
        cases part with
        | nil =>
          rw [(List.cons.inj hlist').1] at hhead
          rw [Bool.eq_false_iff]
          intro hname
          rw [trim_append_blank (trimmed_of_forall htoken)] at hname
          exact hfirst hname u rfl hhead.symm
        | cons b' part =>
          rw [← (List.cons.inj hlist').1]
          exact not_isLabelName_trim htoken hne (htrimmed.1 first hhead.symm) part
  · -- The colon stands in the operation.
    cases part with
    | nil => cases us <;> cases hpart
    | cons b part =>
      obtain rfl := (List.cons.inj hpart).1
      have htrim' : trim before = before :=
        trim_eq_self (trimmed_of_forall fun c hc => htoken c (List.mem_append_left _ hc))
      rw [htrim']
      exact hlabel before part (cutAt?_append_cons hbefore rfl part)

theorem readBody_of_readInstruction {c : Char} {cs : List Char} {i : Instruction}
    (hc : c = '@' ∨ c.isAlpha = true) (h : readInstruction (c :: cs) = .ok i) :
    Source.readBody (c :: cs) = .statement (.instruction i) := by
  have hne : ∀ d, d ≠ '@' → d.isAlpha = false → c ≠ d := by
    rintro d hat halpha rfl
    rcases hc with hc | hc
    · exact hat hc
    · rw [halpha] at hc
      cases hc
  have hsilent : c :: cs ∉ Source.silentPieces := by
    simp only [Source.silentPieces, List.mem_cons, List.not_mem_nil, or_false, not_or]
    refine ⟨List.cons_ne_nil _ _, ?_, ?_, ?_⟩
    · exact fun heq => hne '{' (by decide) (by decide) (List.cons.inj heq).1
    · exact fun heq => hne '}' (by decide) (by decide) (List.cons.inj heq).1
    · exact fun heq => hne ')' (by decide) (by decide) (List.cons.inj heq).1
  rw [Source.readBody, if_neg hsilent, if_neg, h]
  exact fun heq => hne '.' (by decide) (by decide) (Option.some.inj heq)

namespace Layout

variable {front token : List Char} {us : List (List Char)} (h : Layout front token us)

include h

theorem ne_nil : token ≠ [] := by
  obtain ⟨c, cs, rfl, -⟩ := h.alpha
  exact List.cons_ne_nil c cs

theorem isCode_text : IsCode (front ++ (token ++ argumentTail us)) := by
  have hcode : IsCode (token ++ argumentTail us) := by
    cases us with
    | nil => exact (List.append_nil token).symm ▸ h.isCode
    | cons u us =>
      rw [argumentTail_cons, isCode_append_cons (by decide)]
      exact ⟨h.isCode, isCode_intercalate fun u hu => (h.arguments u hu).2.2⟩
  rcases h.front with rfl | ⟨w, hw, rfl⟩
  · exact hcode
  · rw [List.cons_append, List.append_assoc, List.singleton_append, isCode_cons (by decide),
      isCode_append_cons (by decide)]
    exact ⟨hw, hcode⟩

theorem trimmed_text : Trimmed (front ++ (token ++ argumentTail us)) := by
  have htrimmed := trimmed_of_forall h.blank
  have htrimmed' : Trimmed (token ++ argumentTail us) := by
    cases us with
    | nil => exact (List.append_nil token).symm ▸ htrimmed
    | cons u us =>
      obtain ⟨hne, hlist⟩ := trimmed_intercalate [',', ' '] (List.cons_ne_nil u us)
        fun u hu => ⟨(h.arguments u hu).1, (h.arguments u hu).2.1⟩
      refine trimmed_append htrimmed.1 h.ne_nil ?_ (List.cons_ne_nil _ _)
      rw [argumentTail_cons, List.getLast?_cons_of_ne_nil hne]
      exact hlist.2
  rcases h.front with rfl | ⟨w, -, rfl⟩
  · exact htrimmed'
  · refine trimmed_append ?_ (List.cons_ne_nil _ _) htrimmed'.2
      (List.append_ne_nil_of_left_ne_nil h.ne_nil _)
    intro c hc
    rw [← Option.some.inj hc]
    decide

/-- The parts are read as a piece of a listing, if no label stands in front of them. -/
theorem readPiece {i : Instruction}
    (hread : readInstruction (front ++ (token ++ argumentTail us)) = .ok i)
    (hlabel : front = [] → Unlabelled token ∧
      (isLabelName token = true → ∀ u ∈ us.head?, u.head? ≠ some ':')) :
    Source.readPiece (front ++ (token ++ argumentTail us)) = .statement (.instruction i) := by
  rcases h.front with rfl | ⟨w, -, rfl⟩
  · obtain ⟨hunlabelled, hfirst⟩ := hlabel rfl
    rw [List.nil_append] at hread ⊢
    rw [Source.readPiece_body fun before after hcut =>
      not_isLabelName_argumentTail h.blank h.ne_nil hunlabelled
        (fun u hu => ⟨(h.arguments u hu).1, (h.arguments u hu).2.1⟩) hfirst hcut]
    obtain ⟨c, cs, rfl, halpha⟩ := h.alpha
    exact readBody_of_readInstruction (.inr halpha) hread
  · rw [Source.readPiece_body]
    · exact readBody_of_readInstruction (.inl rfl) hread
    · intro before after hcut
      obtain ⟨d, hd, hbefore, -⟩ := cutAt?_eq_some hcut
      cases before with
      | nil =>
        rw [← (List.cons.inj hbefore).1] at hd
        exact absurd hd (by decide)
      | cons b before =>
        rw [← (List.cons.inj hbefore).1]
        exact not_isLabelName_trim_cons (by decide) (.inl (by decide)) before

end Layout

end Instruction

end KernelListing
