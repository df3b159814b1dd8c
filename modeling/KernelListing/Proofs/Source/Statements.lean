import KernelListing.Proofs.FlowGraph.Segments
import KernelListing.Proofs.Instruction.Parts
import KernelListing.Proofs.Statement.Declaration

/-!
# The statements of a text

What a statement is like that has been read from a text, whatever the text: its label can name a
label, its instruction is made of parts that have been read, and its declaration is one that can be
written down.
-/

namespace KernelListing

open Text

/-- What a statement that has been read is like. -/
def Statement.IsRead : Statement → Prop
  | label name => isLabelName name.toList = true
  | instruction i => i.IsRead
  | s => s.IsDeclaration

theorem Statement.IsDeclaration.isRead {s : Statement} (h : s.IsDeclaration) : s.IsRead := by
  cases s with
  | label name => exact h.elim
  | instruction i => exact h.elim
  | parameter p => exact h
  | localVariable v => exact h
  | sharedVariable v => exact h
  | entry name => exact h

theorem Statement.isRead_of_mem_instructions {ss : List Statement} (hread : ∀ s ∈ ss, s.IsRead)
    {i : Instruction} (hi : i ∈ instructions ss) : i.IsRead := by
  obtain ⟨s, hs, hsome⟩ := List.mem_filterMap.1 hi
  cases s with
  | instruction i' =>
    obtain rfl := Option.some.inj hsome
    exact hread _ hs
  | label l => cases hsome
  | parameter p => cases hsome
  | localVariable v => cases hsome
  | sharedVariable v => cases hsome
  | entry n => cases hsome

namespace Source

theorem not_mem_of_mem_lines {cs line : List Char} (h : line ∈ lines cs) : '\n' ∉ line := by
  have hpiece : ∀ piece ∈ split (· == '\n') cs, '\n' ∉ piece := fun piece hpiece hmem =>
    absurd ((mem_split hpiece).1 '\n' hmem) (by decide)
  rw [lines, List.mem_append] at h
  rcases h with h | h
  · obtain ⟨piece, hmem, rfl⟩ := List.mem_map.1 h
    exact fun hnewline => hpiece piece (List.dropLast_subset _ hmem)
      ((dropReturn_isPrefix piece).subset hnewline)
  · rw [Option.mem_toList, Option.filter_eq_some_iff] at h
    exact hpiece line (List.mem_of_getLast? h.1)

theorem isRead_of_readBody {cs : List Char} (hcode : IsCode cs) {s : Statement}
    (h : s ∈ (readBody cs).statements) : s.IsRead := by
  unfold readBody at h
  split at h
  · cases h
  · split at h
    · exact (Statement.isDeclaration_of_readDirective hcode h).isRead
    · split at h
      · next i hi =>
        rw [List.mem_singleton.1 h]
        exact Instruction.isRead_of_readInstruction hi hcode
      · cases h

section forall_mem

variable {P : Statement → Prop}
  (hlabel : ∀ name : String, isLabelName name.toList = true → P (.label name))
  (hbody : ∀ cs, IsCode cs → ∀ s ∈ (readBody cs).statements, P s)

include hlabel hbody

theorem forall_mem_readPiece {cs : List Char} (hcode : IsCode cs) :
    ∀ s ∈ (readPiece cs).statements, P s := by
  -- What stands behind a label is shorter, but it is trimmed and so no tail of the piece.
  induction hlength : cs.length using Nat.strongRecOn generalizing cs with
  | ind length ih =>
    intro s hs
    by_cases hfront : ∃ before after,
        cutAt? (· == ':') cs = some (before, after) ∧ isLabelName (trim before) = true
    · obtain ⟨before, after, hcut, hname⟩ := hfront
      obtain ⟨c, -, hcs, -⟩ := cutAt?_eq_some hcut
      rw [readPiece_label hcut hname, Reading.statements_append, List.mem_append] at hs
      rcases hs with hs | hs
      · rw [List.mem_singleton.1 hs]
        exact hlabel _ (by rwa [String.toList_ofList])
      · have hlt := Nat.lt_of_le_of_lt (length_trim_le after) (length_cutAt_snd_lt hcut)
        have hafter : trim after <:+: cs := by
          refine (trim_isInfix after).trans (List.IsSuffix.isInfix ⟨before ++ [c], ?_⟩)
          simp [hcs]
        exact ih _ (hlength ▸ hlt) (hcode.part hafter) rfl s hs
    · rw [readPiece_body fun before after hcut =>
        Bool.eq_false_iff.2 fun hname => hfront ⟨before, after, hcut, hname⟩] at hs
      exact hbody cs hcode s hs

theorem forall_mem_readCode {cs : List Char} (happart : cs.IsChain Apart) (hnewline : '\n' ∉ cs) :
    ∀ s ∈ (readCode cs).statements, P s := by
  intro s hs
  obtain ⟨r, hr, hs⟩ := Statement.mem_join.1 hs
  obtain ⟨piece, hpiece, rfl⟩ := List.mem_map.1 hr
  obtain ⟨hsemicolon, hpart⟩ := mem_split hpiece
  have hcode : IsCode piece := by
    constructor
    · exact List.IsChain.infix happart hpart
    · exact fun hmem => hnewline (hpart.subset hmem)
    · exact fun hmem => absurd (hsemicolon ';' hmem) (by decide)
  exact forall_mem_readPiece hlabel hbody (hcode.part (trim_isInfix piece)) s hs

theorem forall_mem_readLines {inComment : Bool} {ls : List (List Char)} (hls : ∀ l ∈ ls, '\n' ∉ l) :
    ∀ s ∈ (readLines inComment ls).statements, P s := by
  induction ls generalizing inComment with
  | nil => exact List.forall_mem_nil _
  | cons line rest ih =>
    obtain ⟨hline, hrest⟩ := List.forall_mem_cons.1 hls
    obtain ⟨happart, hmem⟩ := stripComments_spec inComment line
    rw [readLines, Reading.statements_append, List.forall_mem_append]
    refine ⟨forall_mem_readCode hlabel hbody happart fun hnewline => ?_, ih hrest⟩
    rcases hmem '\n' hnewline with hmem | hmem
    · exact hline hmem
    · exact absurd hmem (by decide)

/-- What holds of labels and of all that stands behind them holds of every statement of a text. -/
theorem forall_mem_read (text : String) : ∀ s ∈ (read text).statements, P s :=
  forall_mem_readLines hlabel hbody fun _ hl => not_mem_of_mem_lines hl

end forall_mem

/-- Every statement that is read from a text can be read back from its own text. -/
theorem isRead_of_mem_read {text : String} {s : Statement} (h : s ∈ (read text).statements) :
    s.IsRead :=
  forall_mem_read (fun _ hname => hname) (fun _ hcode _ hs => isRead_of_readBody hcode hs) text s h

theorem exists_readInstruction_of_mem_read {text : String} {i : Instruction}
    (h : .instruction i ∈ (read text).statements) :
    ∃ cs, IsCode cs ∧ Instruction.readInstruction cs = .ok i := by
  refine forall_mem_read (P := fun s => ∀ i, s = .instruction i →
    ∃ cs, IsCode cs ∧ Instruction.readInstruction cs = .ok i) ?_ ?_ text _ h i rfl
  · rintro name - i ⟨⟩
  · rintro cs hcode s hs i rfl
    unfold readBody at hs
    split at hs
    · cases hs
    · split at hs
      · exact (Statement.isDeclaration_of_readDirective hcode hs).elim
      · split at hs
        · next i' hi =>
          obtain rfl : i = i' := Statement.instruction.inj (List.mem_singleton.1 hs)
          exact ⟨cs, hcode, hi⟩
        · cases hs

end Source

end KernelListing
