import KernelListing.Proofs.FlowGraph.Landings

/-!
# Building a graph from its own segments

Segments can be written down one after the other, each as its label and its instructions. From
these statements the same segments are found again (`filled_settle`, `outline_written`), provided
that each segment is closed, has a label of its own, and is entered as the one in front of it says.
-/

namespace KernelListing.FlowGraph

namespace Outline

/-! ## Statements that can be taken -/

theorem step_of_takes {o o' : Outline} {s : Statement} (h : o.Takes s o') (n : Nat) :
    o.step (s, n) = .ok o' := by
  cases h with
  | labelHere hempty hnew =>
    simp only [step, stepLabel, closeForLabel, hempty, List.isEmpty_nil, if_true, bind, Except.bind,
      hnew, if_false]
    rfl
  | labelNext hne hnew hroom =>
    have hempty : o.last.instructions.isEmpty = false := by simpa using hne
    simp only [step, stepLabel, closeForLabel, hempty, Bool.false_eq_true, if_false, close, hroom,
      if_true, bind, Except.bind, labels_close, hnew]
    rfl
  | plain hplain =>
    have hcall := no_call_of_plain hplain
    have hexit := Segment.ne_of_plain hplain .exit rfl
    simp only [step, stepInstruction, hcall, hexit, hplain, false_and, Bool.false_eq_true, if_false]
  | @transfer i htransfer hcall hexit hroom =>
    have hroom' : (o.push i).current + 1 < idLimit := hroom
    rw [step, stepInstruction, if_neg hcall, if_neg (fun h => by simp [hexit h.1] at h),
      if_pos htransfer, close, if_pos hroom']
  | declaration hlabel hinst =>
    cases s with
    | label l => exact absurd rfl (hlabel l)
    | instruction i => cases hinst
    | parameter p => rfl
    | localVariable v => rfl
    | sharedVariable v => rfl
    | entry name => rfl

/-- Some statements lead from one outline to another, wherever they stand. -/
def Leads (o : Outline) (ss : List Statement) (o' : Outline) : Prop :=
  ∀ front, outline front = .ok o → outline (front ++ ss) = .ok o'

theorem leads_nil (o : Outline) : o.Leads [] o := fun front h => by rwa [List.append_nil]

theorem Leads.append {o o' o'' : Outline} {ss ss' : List Statement} (h : o.Leads ss o')
    (h' : o'.Leads ss' o'') : o.Leads (ss ++ ss') o'' := by
  intro front hfront
  rw [← List.append_assoc]
  exact h' _ (h front hfront)

theorem Takes.leads {o o' : Outline} {s : Statement} (h : o.Takes s o') : o.Leads [s] o' := by
  intro front hfront
  rw [outline_concat, hfront]
  exact step_of_takes h front.length

theorem leads_declarations {ss : List Statement}
    (h : ∀ s ∈ ss, (∀ l, s ≠ .label l) ∧ s.instruction? = none) (o : Outline) : o.Leads ss o := by
  induction ss with
  | nil => exact o.leads_nil
  | cons s ss ih =>
    obtain ⟨⟨hlabel, hinst⟩, hrest⟩ := List.forall_mem_cons.1 h
    exact (Takes.declaration hlabel hinst).leads.append (ih hrest)

theorem leads_plain {is : List Instruction} (h : ∀ i ∈ is, i.opcode.isControlFlow = false)
    (o : Outline) : o.Leads (is.map .instruction)
      { o with last := { o.last with instructions := o.last.instructions ++ is } } := by
  induction is generalizing o with
  | nil =>
    rw [List.append_nil]
    exact o.leads_nil
  | cons i is ih =>
    obtain ⟨hplain, hrest⟩ := List.forall_mem_cons.1 h
    have hnext := ih hrest (o.push i)
    simp only [push, List.append_assoc, List.singleton_append] at hnext
    exact (Takes.plain hplain).leads.append hnext

end Outline

/-! ## Written segments -/

def Segment.statements (s : Segment) : List Statement :=
  s.labels.map .label ++ s.instructions.map .instruction

def written (ss : List Segment) : List Statement := ss.flatMap Segment.statements

theorem written_concat (ss : List Segment) (s : Segment) :
    written (ss ++ [s]) = written ss ++ s.statements := by
  simp [written]

/-- Whether a segment is closed by its last instruction. -/
def Segment.transfers (s : Segment) : Bool :=
  s.instructions.getLast?.any (·.opcode.isControlFlow)

/-- The outline whose filled segments are given. -/
def settle (ss : List Segment) : Outline :=
  if ss.getLast?.any (! ·.transfers) then
    { closed := ss.dropLast, last := ss.getLast?.getD { entered := true } }
  else { closed := ss, last := { entered := (lastBehind ss).all (·.goesOn) } }

theorem settle_of_transfers (ss : List Segment) {s : Segment} (h : s.transfers = true) :
    settle (ss ++ [s]) =
      { closed := ss ++ [s], last := { entered := s.instructions.getLast?.all (·.goesOn) } } := by
  rw [settle, List.getLast?_concat, Outline.lastBehind_concat, Option.any_some, h]
  rfl

theorem settle_of_not_transfers (ss : List Segment) {s : Segment} (h : s.transfers = false) :
    settle (ss ++ [s]) = { closed := ss, last := s } := by
  rw [settle, List.getLast?_concat, Option.any_some, h, List.dropLast_concat]
  rfl

theorem length_closed_settle (ss : List Segment) : (settle ss).closed.length ≤ ss.length := by
  unfold settle
  split
  · exact (List.dropLast_prefix ss).length_le
  · exact Nat.le_refl _

theorem le_length_closed_settle (ss : List Segment) (s : Segment) :
    ss.length ≤ (settle (ss ++ [s])).closed.length := by
  cases h : s.transfers with
  | true =>
    rw [settle_of_transfers ss h, List.length_append]
    exact Nat.le_add_right _ _
  | false =>
    have hsettle := settle_of_not_transfers ss h
    exact Nat.le_of_eq (by rw [hsettle])

theorem filled_settle {ss : List Segment} (h : ∀ s ∈ ss, s.Closed) : (settle ss).filled = ss := by
  induction ss using List.reverseRecOn with
  | nil => rfl
  | append_singleton ss s =>
    have hne := (h s (List.mem_append_right _ (List.mem_singleton_self s))).ne_nil
    cases htransfers : s.transfers with
    | true =>
      rw [settle_of_transfers ss htransfers]
      rfl
    | false =>
      rw [settle_of_not_transfers ss htransfers]
      simp [Outline.filled, Outline.segments, hne]

/-- What is asked of some segments so that they are found again. -/
structure Written (ss : List Segment) : Prop where
  closed : ∀ s ∈ ss, s.Closed
  labelled : ∀ s ∈ ss, ∃ l, s.labels = [l]
  linked : Linked ss
  distinct : (ss.flatMap (·.labels)).Nodup
  exits : ss.Pairwise fun s s' => ¬ (s.exits = true ∧ s'.exits = true)
  room : (settle ss).closed.length + 2 < idLimit

theorem Written.init {ss : List Segment} {s : Segment} (h : Written (ss ++ [s])) : Written ss := by
  constructor
  · exact fun s' hs' => h.closed s' (List.mem_append_left _ hs')
  · exact fun s' hs' => h.labelled s' (List.mem_append_left _ hs')
  · exact (linked_concat.1 h.linked).1
  · have hdistinct := h.distinct
    rw [List.flatMap_append] at hdistinct
    exact hdistinct.of_append_left
  · exact (List.pairwise_append.1 h.exits).1
  · have hle := Nat.le_trans (length_closed_settle ss) (le_length_closed_settle ss s)
    exact Nat.lt_of_le_of_lt (Nat.add_le_add_right hle 2) h.room

theorem leads_label {ss : List Segment} (h : ∀ s ∈ ss, s.Closed) {l : String}
    (hnew : l ∉ ss.flatMap (·.labels)) (hroom : ss.length + 2 < idLimit) :
    (settle ss).Leads [.label l] { closed := ss, last := {
      entered := (lastBehind ss).all (·.goesOn), labels := [l] } } := by
  induction ss using List.reverseRecOn with
  | nil => exact (Outline.Takes.labelHere rfl hnew).leads
  | append_singleton ss s =>
    have hclosed := h s (List.mem_append_right _ (List.mem_singleton_self s))
    have hsegments : ∀ e, Outline.labels { closed := ss ++ [s], last := { entered := e } } =
        (ss ++ [s]).flatMap (·.labels) := by
      intro e
      simp [Outline.labels, Outline.segments]
    -- Either the last segment is closed by now and the label is put on the empty one behind it, or
    -- it is the label that closes it.
    cases htransfers : s.transfers with
    | true =>
      rw [settle_of_transfers ss htransfers, Outline.lastBehind_concat]
      refine (Outline.Takes.labelHere rfl ?_).leads
      rwa [hsegments]
    | false =>
      obtain ⟨i, hlast⟩ := hclosed.exists_last
      have hplain : i.opcode.isControlFlow = false := by
        simpa [Segment.transfers, hlast] using htransfers
      have hgoes : (lastBehind (ss ++ [s])).all (·.goesOn) = true := by
        rw [Outline.lastBehind_concat, hlast]
        exact goesOn_of_plain hplain
      rw [settle_of_not_transfers ss htransfers, hgoes]
      refine (Outline.Takes.labelNext hclosed.ne_nil hnew ?_).leads
      rw [List.length_append] at hroom
      exact hroom

theorem leads_instructions {ss : List Segment} {s : Segment} (hclosed : s.Closed)
    (hexits : ∀ s' ∈ ss, ¬ (s'.exits = true ∧ s.exits = true))
    (hroom : (settle (ss ++ [s])).closed.length + 2 < idLimit) :
    Outline.Leads { closed := ss, last := { s with instructions := [] } }
      (s.instructions.map .instruction) (settle (ss ++ [s])) := by
  obtain ⟨i, hlast⟩ := hclosed.exists_last
  -- Control passes through all instructions but the last, and that one decides whether the segment
  -- is closed.
  have hfront := Outline.leads_plain hclosed.plain
    { closed := ss, last := { s with instructions := [] } }
  have hconcat := Segment.eq_concat_of_last hlast
  have hstep : Outline.Leads
      { closed := ss, last := { s with instructions := s.instructions.dropLast } }
      [.instruction i] (settle (ss ++ [s])) := by
    cases htransfers : s.transfers with
    | true =>
      have htransfer : i.opcode.isControlFlow = true := by
        simpa [Segment.transfers, hlast] using htransfers
      have hcall := hclosed.no_call i (List.mem_of_getLast? hlast)
      rw [settle_of_transfers ss htransfers] at hroom ⊢
      have htakes := Outline.Takes.transfer
        (o := { closed := ss, last := { s with instructions := s.instructions.dropLast } })
        htransfer hcall (fun hop => ?_) ?_
      · simp only [Outline.push, Outline.segments, ← hconcat] at htakes
        rw [hlast]
        exact htakes.leads
      · have hexit : s.exits = true := by
          rw [Segment.exits, hlast]
          exact decide_eq_true hop
        exact List.any_eq_false.2 fun s' hs' hexit' => hexits s' hs' ⟨hexit', hexit⟩
      · rw [List.length_append] at hroom
        exact hroom
    | false =>
      have hplain : i.opcode.isControlFlow = false := by
        simpa [Segment.transfers, hlast] using htransfers
      have htakes := Outline.Takes.plain
        (o := { closed := ss, last := { s with instructions := s.instructions.dropLast } }) hplain
      simp only [Outline.push, ← hconcat] at htakes
      rw [settle_of_not_transfers ss htransfers]
      exact htakes.leads
  rw [hconcat, List.map_append]
  exact hfront.append hstep

/-- The statements of some segments are cut into these segments again. -/
theorem leads_written {ss : List Segment} (h : Written ss) :
    Outline.Leads {} (written ss) (settle ss) := by
  induction ss using List.reverseRecOn with
  | nil => exact Outline.leads_nil _
  | append_singleton ss s ih =>
    have hs : s ∈ ss ++ [s] := List.mem_append_right _ (List.mem_singleton_self s)
    obtain ⟨l, hl⟩ := h.labelled s hs
    have hnew : l ∉ ss.flatMap (·.labels) := by
      have hdistinct := h.distinct
      rw [List.flatMap_append, List.nodup_append] at hdistinct
      intro hmem
      exact hdistinct.2.2 l hmem l (by simp [hl]) rfl
    have hroom : ss.length + 2 < idLimit :=
      Nat.lt_of_le_of_lt (Nat.add_le_add_right (le_length_closed_settle ss s) 2) h.room
    have hlabel := leads_label h.init.closed hnew hroom
    have hinstructions := leads_instructions (h.closed s hs)
      (fun s' hs' => (List.pairwise_append.1 h.exits).2.2 s' hs' s (List.mem_singleton_self s))
      h.room
    have hopen : ({ s with instructions := [] } : Segment) =
        { entered := (lastBehind ss).all (·.goesOn), labels := [l] } := by
      rw [← (linked_concat.1 h.linked).2, hl]
    rw [hopen] at hinstructions
    rw [written_concat, Segment.statements, hl]
    exact (ih h.init).append (hlabel.append hinstructions)

theorem outline_written {ss : List Segment} (h : Written ss) {declarations : List Statement}
    (hdeclarations : ∀ s ∈ declarations, (∀ l, s ≠ .label l) ∧ s.instruction? = none) :
    outline (declarations ++ written ss) = .ok (settle ss) :=
  leads_written h declarations (Outline.leads_declarations hdeclarations {} [] rfl)

end KernelListing.FlowGraph
