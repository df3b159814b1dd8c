import KernelListing.Proofs.FlowGraph.Segments

/-!
# Drafts follow outlines

Adding a statement to the draft of an outline gives the draft of the outline's next step, or
the same error (`addStatement_draft`). There is one equation for each primitive of `Draft`. The
equations of the primitives that draw edges need that the blocks at both ends are there, which
for the draft of an outline is read off `block?_slotsOf`.
-/

namespace KernelListing.FlowGraph

/-! ## The arena of some segments -/

@[simp] theorem length_slotsOf (ss : List Segment) : (slotsOf ss).length = ss.length + 2 := by
  simp only [slotsOf, numbered, FlowGraph.empty, List.length_append, List.length_cons,
    List.length_nil, List.length_map, List.length_zipIdx]
  omega

theorem slotsOf_concat (ss : List Segment) (s : Segment) :
    slotsOf (ss ++ [s]) = slotsOf ss ++ [some (s.block (ss.length + 2))] := by
  simp [slotsOf, numbered_concat]

theorem getElem?_slotsOf (ss : List Segment) (k : Nat) :
    (slotsOf ss)[k + 2]? = ss[k]?.map fun s => some (s.block (k + 2)) := by
  simp only [slotsOf, FlowGraph.empty, numbered]
  rw [List.getElem?_append_right (by simp)]
  simp only [List.length_cons, List.length_nil, Nat.zero_add, Nat.add_sub_cancel,
    List.getElem?_map, List.getElem?_zipIdx, Option.map_map]
  congr 1
  funext s
  simp [Nat.add_comm]

theorem block?_slotsOf {ss : List Segment} {es : List Edge} {n k : Nat} :
    block? ⟨slotsOf ss, es, n⟩ (k + 2) = ss[k]?.map (·.block (k + 2)) := by
  rw [block?, getElem?_slotsOf]
  cases ss[k]? <;> rfl

theorem isSome_block?_slotsOf {ss : List Segment} (es : List Edge) (n : Nat) {id : BlockId}
    (h : id < ss.length + 2) : (block? ⟨slotsOf ss, es, n⟩ id).isSome := by
  match id with
  | 0 => rfl
  | 1 => rfl
  | k + 2 =>
    have hk : k < ss.length := Nat.lt_of_add_lt_add_right h
    rw [block?_slotsOf, List.getElem?_eq_getElem hk]
    rfl

theorem insertEdge_slotsOf {ss : List Segment} (es : List Edge) (n : Nat) {e : Edge}
    (hhead : e.head < ss.length + 2) (htail : e.tail < ss.length + 2) :
    insertEdge ⟨slotsOf ss, es, n⟩ e = .ok ⟨slotsOf ss, es ++ [e], n⟩ := by
  have hh := isSome_block?_slotsOf es n hhead
  have ht := isSome_block?_slotsOf es n htail
  simp [insertEdge, Option.isSome_iff_ne_none.1 hh, Option.isSome_iff_ne_none.1 ht]

theorem modifyBlock_slotsOf (ss ss' : List Segment) {s s' : Segment} {f : Block → Block}
    (h : f (s.block (ss.length + 2)) = s'.block (ss.length + 2)) (es : List Edge) (n : Nat) :
    modifyBlock ⟨slotsOf (ss ++ s :: ss'), es, n⟩ (ss.length + 2) f =
      .ok ⟨slotsOf (ss ++ s' :: ss'), es, n⟩ := by
  have hb : block? ⟨slotsOf (ss ++ s :: ss'), es, n⟩ (ss.length + 2) =
      some (s.block (ss.length + 2)) := by
    rw [block?_slotsOf]
    simp
  have hset : (slotsOf (ss ++ s :: ss')).set (ss.length + 2)
      (some (s'.block (ss.length + 2))) = slotsOf (ss ++ s' :: ss') := by
    -- Slot by slot: the one that is set, and those in front of it and behind.
    apply List.ext_getElem?
    intro k
    by_cases hk : k = ss.length + 2
    · subst hk
      rw [List.getElem?_set_self (by simp), getElem?_slotsOf]
      simp
    · rw [List.getElem?_set_ne (Ne.symm hk)]
      match k with
      | 0 => rfl
      | 1 => rfl
      | k + 2 =>
        have hne : k ≠ ss.length := fun heq => hk (by rw [heq])
        rw [getElem?_slotsOf, getElem?_slotsOf]
        by_cases hlt : k < ss.length
        · rw [List.getElem?_append_left hlt, List.getElem?_append_left hlt]
        · obtain ⟨j, rfl⟩ := Nat.exists_eq_add_of_lt (Nat.lt_of_le_of_ne (Nat.le_of_not_lt hlt)
            hne.symm)
          rw [List.getElem?_append_right (by omega), List.getElem?_append_right (by omega),
            show ss.length + j + 1 - ss.length = j + 1 by omega]
          rfl
  rw [modifyBlock, hb]
  simp only [h, hset]

theorem openBlock_slotsOf (ss : List Segment) (es : List Edge) :
    Draft.openBlock ⟨slotsOf ss, es, ss.length + 2⟩ =
      if ss.length + 2 < idLimit then
        .ok (ss.length + 2,
          ⟨slotsOf ss ++ [some { id := ss.length + 2 }], es, ss.length + 3⟩)
      else .error (.fault .idsExhausted) := by
  have hnone : block? ⟨slotsOf ss, es, ss.length + 3⟩ (ss.length + 2) = none := by
    rw [block?_slotsOf]
    simp
  have hpad : ((slotsOf ss).rightpad (ss.length + 3) none).set (ss.length + 2)
      (some { id := ss.length + 2 }) = slotsOf ss ++ [some { id := ss.length + 2 }] := by
    rw [List.rightpad, length_slotsOf, show ss.length + 3 - (ss.length + 2) = 1 by omega,
      List.set_append_right _ _ (by simp)]
    simp
  simp only [Draft.openBlock, newId]
  split
  · simp only [Except.mapError, bind, Except.bind, pure, Except.pure, insertBlock, hnone,
      Option.isSome_none, Bool.false_eq_true, if_false, hpad]
  · rfl

theorem edgesOf_concat (ss : List Segment) (s : Segment) :
    edgesOf (ss ++ [s]) = edgesOf ss ++ s.edges (ss.length + 2) := by
  simp [edgesOf, numbered_concat]

theorem namesOf_concat (ss : List Segment) (s : Segment) :
    namesOf (ss ++ [s]) = (s.names (ss.length + 2)).reverse ++ namesOf ss := by
  simp [namesOf, numbered_concat]

theorem map_fst_namesOf (ss : List Segment) :
    (namesOf ss).map Prod.fst = (ss.flatMap (·.labels)).reverse := by
  induction ss using List.reverseRecOn with
  | nil => rfl
  | append_singleton ss s ih => simp [namesOf_concat, ih, Segment.names, Function.comp_def]

theorem branchesOf_concat (ss : List Segment) (s : Segment) :
    branchesOf (ss ++ [s]) = branchesOf ss ++ (s.openBranch? (ss.length + 2)).toList := by
  rw [branchesOf, numbered_concat, List.filterMap_append]
  cases h : s.openBranch? (ss.length + 2) <;> simp [h, branchesOf]

namespace Segment

variable {s : Segment} {i : Instruction}

theorem leaving_of_plain (hlast : s.instructions.getLast? = some i)
    (hplain : i.opcode.isControlFlow = false) {id : BlockId} : s.leaving id = [] := by
  simp only [leaving, hlast]
  split
  · next hop => rw [hop] at hplain; cases hplain
  · next hop => rw [hop] at hplain; cases hplain
  · rfl

theorem openBranch?_of_ne_bra (hlast : s.instructions.getLast? = some i) (hop : i.opcode ≠ .bra)
    {id : BlockId} : s.openBranch? id = none := by
  simp [openBranch?, hlast, hop]

theorem exits_of_last (hlast : s.instructions.getLast? = some i) :
    s.exits = decide (i.opcode = .exit) := by
  simp [exits, hlast]

theorem ne_of_plain {op : Opcode} (hplain : op.isControlFlow = false) (op' : Opcode)
    (htransfer : op'.isControlFlow = true) : op ≠ op' := by
  rintro rfl
  rw [hplain] at htransfer
  cases htransfer

end Segment

namespace Outline

/-! ## The primitives of a draft -/

theorem length_segments (o : Outline) : o.segments.length = o.closed.length + 1 := by
  simp [segments]

theorem start_eq_draft : Draft.start = .ok ({} : Outline).draft := by
  rfl

theorem currentBlock_draft (o : Outline) :
    o.draft.currentBlock = .ok (o.last.block o.current) := by
  have hb : o.draft.graph.block? o.current = some (o.last.block o.current) := by
    rw [draft, current, block?_slotsOf]
    simp [segments]
  rw [Draft.currentBlock, show o.draft.current = o.current from rfl, hb]

theorem modifyCurrent_push (o : Outline) (i : Instruction) :
    o.draft.modifyCurrent (fun b => { b with instructions := b.instructions ++ [i] }) =
      .ok (o.push i).draft := by
  have hmodify : o.draft.graph.modifyBlock o.current
      (fun b => { b with instructions := b.instructions ++ [i] }) =
        .ok (o.push i).draft.graph :=
    modifyBlock_slotsOf o.closed [] rfl (edgesOf o.closed) (o.current + 1)
  have hnames : (o.push i).draft.labels = o.draft.labels := by
    simp only [draft, segments, push, namesOf_concat]
    rfl
  rw [Draft.modifyCurrent, show o.draft.current = o.current from rfl, hmodify]
  exact congrArg (fun labels => Except.ok { (o.push i).draft with labels }) hnames.symm

theorem modifyCurrent_name (o : Outline) (label : String) :
    o.draft.modifyCurrent (fun b => { b with label }) =
      .ok { (o.name label).draft with labels := o.draft.labels } := by
  have hlabel : (o.name label).last.label = label := by simp [name, Segment.label]
  have hmodify : o.draft.graph.modifyBlock o.current (fun b => { b with label }) =
      .ok (o.name label).draft.graph :=
    modifyBlock_slotsOf o.closed [] (by simp only [Segment.block, hlabel]; rfl)
      (edgesOf o.closed) (o.current + 1)
  rw [Draft.modifyCurrent, show o.draft.current = o.current from rfl, hmodify]
  rfl

/-- Whether an exit has been seen makes no difference to joining the pending block. -/
theorem joinPending_draft (o : Outline) (exitSeen : Bool) :
    Draft.joinPending { o.draft with exitSeen } = .ok { o.draft with
      graph := { o.draft.graph with edges := edgesOf o.closed ++ o.last.entering o.current }
      pending := none
      exitSeen } := by
  have hcurrent : o.current < o.segments.length + 2 := by simp [current, segments]
  have hbefore : Segment.before o.current < o.current :=
    Segment.before_lt (Nat.le_add_left 2 _)
  have hinsert := insertEdge_slotsOf (edgesOf o.closed) (o.current + 1)
    (e := ⟨Segment.before o.current, o.current, .fallThrough⟩)
    (Nat.lt_trans hbefore hcurrent) hcurrent
  unfold Draft.joinPending Segment.entering
  cases hentered : o.last.entered with
  | false => simp [draft, Segment.pending, hentered]
  | true =>
    simp only [draft, Segment.pending, hentered, if_true, Draft.insertEdge, hinsert]
    rfl

theorem draft_close (o : Outline) (entered : Bool) :
    draft { closed := o.segments, last := { entered } } =
      { graph := ⟨slotsOf o.segments ++ [some { id := o.current + 1 }], edgesOf o.segments,
          o.current + 2⟩
        current := o.current + 1
        pending := if entered then some o.current else none
        labels := namesOf o.segments
        branches := branchesOf o.segments
        exitSeen := o.segments.any Segment.exits } := by
  have hcurrent : current { closed := o.segments, last := { entered } } = o.current + 1 := by
    rw [current, length_segments]
    rfl
  have hslots : slotsOf (segments { closed := o.segments, last := { entered } }) =
      slotsOf o.segments ++ [some { id := o.current + 1 }] := by
    rw [segments, slotsOf_concat, length_segments]
    rfl
  have hnames : namesOf (segments { closed := o.segments, last := { entered } }) =
      namesOf o.segments := by
    rw [segments, namesOf_concat]
    rfl
  have hbefore : Segment.before (o.current + 1) = o.current := by
    simp [Segment.before, current]
  simp only [draft, hcurrent, hslots, hnames, Segment.pending, hbefore]

/-- Opening a block behind the last segment closes that segment, if its edges, its branch and
its exit have been recorded. -/
theorem nextBlock_eq_close {o : Outline} {d : Draft} (entered : Bool)
    (hgraph : d.graph = ⟨slotsOf o.segments, edgesOf o.segments, o.current + 1⟩)
    (hlabels : d.labels = namesOf o.segments) (hbranches : d.branches = branchesOf o.segments)
    (hexit : d.exitSeen = o.segments.any Segment.exits) :
    d.nextBlock (if entered then some o.current else none) = (o.close entered).map draft := by
  have hopen : Draft.openBlock d.graph =
      if o.current + 1 < idLimit then
        .ok (o.current + 1,
          ⟨slotsOf o.segments ++ [some { id := o.current + 1 }], edgesOf o.segments,
            o.current + 2⟩)
      else .error (.fault .idsExhausted) := by
    have h := openBlock_slotsOf o.segments (edgesOf o.segments)
    rw [length_segments] at h
    rw [hgraph]
    exact h
  rw [Draft.nextBlock, hopen, close]
  split
  · rw [Except.map, draft_close, ← hlabels, ← hbranches, ← hexit]
    rfl
  · rfl

/-! ## Statements -/

theorem edgesOf_segments (o : Outline) :
    edgesOf o.segments =
      edgesOf o.closed ++ o.last.entering o.current ++ o.last.leaving o.current := by
  rw [segments, edgesOf_concat, List.append_assoc]
  rfl

theorem closeForLabel_draft {o : Outline} (h : o.Sound) :
    o.draft.closeForLabel = o.closeForLabel.map draft := by
  rw [Draft.closeForLabel, currentBlock_draft, closeForLabel]
  cases hempty : o.last.instructions.isEmpty with
  | true => simp [bind, Except.bind, Block.isEmpty, Segment.block, hempty, Except.map, pure,
      Except.pure]
  | false =>
    -- Nothing in the segment transfers control, so closing it draws no edge and records no branch.
    have hne : o.last.instructions ≠ [] := by simpa using hempty
    obtain ⟨i, hlast, hplain⟩ := h.exists_last hne
    simp only [bind, Except.bind, Block.isEmpty, Segment.block, hempty, Bool.false_eq_true,
      if_false, joinPending_draft o o.draft.exitSeen]
    refine nextBlock_eq_close true ?_ rfl ?_ ?_
    · rw [edgesOf_segments, Segment.leaving_of_plain hlast hplain, List.append_nil]
      rfl
    · rw [segments, branchesOf_concat,
        Segment.openBranch?_of_ne_bra hlast (Segment.ne_of_plain hplain .bra rfl)]
      simp [draft]
    · have hexit := Segment.ne_of_plain hplain .exit rfl
      simp [segments, Segment.exits_of_last hlast, hexit, draft]

theorem isSome_lookup_draft (o : Outline) (label : String) :
    (o.draft.labels.lookup label).isSome = true ↔ label ∈ o.labels := by
  rw [show o.draft.labels = namesOf o.segments from rfl, labels, List.lookup_isSome_iff,
    ← List.mem_reverse, ← map_fst_namesOf, List.mem_map]
  constructor
  · rintro ⟨p, hp, hl⟩
    exact ⟨p, hp, (eq_of_beq hl).symm⟩
  · rintro ⟨p, hp, hl⟩
    exact ⟨p, hp, beq_iff_eq.2 hl.symm⟩

theorem nameCurrent_draft (o : Outline) (label : String) :
    o.draft.nameCurrent label = .ok (o.name label).draft := by
  have hnames : (o.name label).draft.labels = (label, o.current) :: o.draft.labels := by
    simp only [draft, segments, name, namesOf_concat, Segment.names, List.map_append,
      List.reverse_append]
    rfl
  rw [Draft.nameCurrent, modifyCurrent_name]
  exact congrArg (fun labels => Except.ok { (o.name label).draft with labels }) hnames.symm

theorem addLabel_draft {o : Outline} (h : o.Sound) (label : String) (statement : Nat) :
    o.draft.addLabel label statement = (o.stepLabel label statement).map draft := by
  rw [Draft.addLabel, closeForLabel_draft h, stepLabel]
  cases hclose : o.closeForLabel with
  | error e => rfl
  | ok o₁ =>
    simp only [Except.map, bind, Except.bind, isSome_lookup_draft, nameCurrent_draft]
    split <;> rfl

theorem closeWithLeave_draft {o : Outline} (kind : EdgeKind)
    (hleaving : o.last.leaving o.current = [⟨o.current, FlowGraph.exit, kind⟩])
    (hbranch : o.last.openBranch? o.current = none) :
    Draft.closeWithLeave { o.draft with exitSeen := o.segments.any Segment.exits } kind =
      (o.close false).map draft := by
  have hcurrent : o.current < o.segments.length + 2 := by simp [current, segments]
  have hexit : FlowGraph.exit < o.segments.length + 2 := Nat.lt_add_left _ Nat.one_lt_two
  have hinsert := insertEdge_slotsOf (edgesOf o.closed ++ o.last.entering o.current)
    (o.current + 1) (e := ⟨o.current, FlowGraph.exit, kind⟩) hcurrent hexit
  simp only [Draft.closeWithLeave, joinPending_draft, bind, Except.bind, Draft.insertEdge]
  rw [show o.draft.graph.slots = slotsOf o.segments from rfl,
    show o.draft.graph.issued = o.current + 1 from rfl, show o.draft.current = o.current from rfl,
    hinsert]
  refine nextBlock_eq_close false ?_ rfl ?_ rfl
  · rw [edgesOf_segments, hleaving]
  · rw [segments, branchesOf_concat, show o.closed.length + 2 = o.current from rfl, hbranch]
    simp [draft]

theorem closeWithBranch_draft {o : Outline} {i : Instruction}
    (hlast : o.last.instructions.getLast? = some i) (hop : i.opcode = .bra) :
    o.draft.closeWithBranch i = (o.close i.goesOn).map draft := by
  have hleaving : o.last.leaving o.current = [] := by simp [Segment.leaving, hlast, hop]
  have hbranch : o.last.openBranch? o.current =
      some { origin := o.current, target := i.d.name, dead := i.guard.isAlwaysFalse } := by
    simp [Segment.openBranch?, hlast, hop]
  have hgoesOn : (if i.guard.isAlwaysTrue = true then none else some o.current) =
      if i.goesOn = true then some o.current else none := by
    simp only [Instruction.goesOn, hop]
    cases i.guard.isAlwaysTrue <;> rfl
  simp only [Draft.closeWithBranch, joinPending_draft o o.draft.exitSeen, bind, Except.bind]
  rw [show o.draft.current = o.current from rfl, hgoesOn]
  refine nextBlock_eq_close i.goesOn ?_ rfl ?_ ?_
  · rw [edgesOf_segments, hleaving, List.append_nil]
    rfl
  · rw [segments, branchesOf_concat, show o.closed.length + 2 = o.current from rfl, hbranch]
    rfl
  · simp [segments, Segment.exits_of_last hlast, hop, draft]

theorem pushInstruction_draft (o : Outline) {i : Instruction} (hcall : i.opcode ≠ .call) :
    o.draft.pushInstruction i =
      (if i.opcode.isControlFlow then (o.push i).close i.goesOn else .ok (o.push i)).map draft := by
  have hlast : (o.push i).last.instructions.getLast? = some i := by simp [push]
  have hexits : (o.push i).segments.any Segment.exits =
      (o.closed.any Segment.exits || decide (i.opcode = .exit)) := by
    simp only [segments, List.any_append, List.any_cons, List.any_nil, Bool.or_false,
      Segment.exits_of_last hlast]
    rfl
  simp only [Draft.pushInstruction, modifyCurrent_push, bind, Except.bind]
  split
  · next hop =>
    rw [closeWithBranch_draft hlast hop, hop]
    rfl
  · next hop =>
    have hleave := closeWithLeave_draft (o := o.push i) .fallThrough
      (by simp [Segment.leaving, hlast, hop]) (Segment.openBranch?_of_ne_bra hlast (by simp [hop]))
    rw [hexits, decide_eq_true hop, Bool.or_true] at hleave
    simp only [hop, Instruction.goesOn]
    exact hleave
  · next hop =>
    have hleave := closeWithLeave_draft (o := o.push i) .branch
      (by simp [Segment.leaving, hlast, hop]) (Segment.openBranch?_of_ne_bra hlast (by simp [hop]))
    rw [hexits, decide_eq_false (by simp [hop]), Bool.or_false] at hleave
    simp only [hop, Instruction.goesOn]
    exact hleave
  · next hbra hexit hret =>
    have hplain : i.opcode.isControlFlow = false := by
      simpa [Opcode.isControlFlow, hcall] using ⟨hbra, hexit, hret⟩
    simp [hplain, Except.map, pure, Except.pure]

theorem addInstruction_draft (o : Outline) (i : Instruction) (statement : Nat) :
    o.draft.addInstruction i statement = (o.stepInstruction i statement).map draft := by
  rw [Draft.addInstruction, stepInstruction, show o.draft.exitSeen = o.closed.any Segment.exits
    from rfl]
  split
  · rfl
  · next hcall =>
    split
    · rfl
    · exact o.pushInstruction_draft hcall

/-- Adding a statement to the draft of an outline is the draft of the next step. -/
theorem addStatement_draft {o : Outline} (h : o.Sound) (x : Statement × Nat) :
    o.draft.addStatement x = (o.step x).map draft := by
  obtain ⟨s, n⟩ := x
  cases s with
  | label l => exact addLabel_draft h l n
  | instruction i => exact o.addInstruction_draft i n
  | parameter p => rfl
  | localVariable v => rfl
  | sharedVariable v => rfl
  | entry name => rfl

theorem foldlM_addStatement {o : Outline} (h : o.Sound) (xs : List (Statement × Nat)) :
    xs.foldlM Draft.addStatement o.draft = (xs.foldlM step o).map draft := by
  induction xs generalizing o with
  | nil => rfl
  | cons x xs ih =>
    rw [List.foldlM_cons, List.foldlM_cons, addStatement_draft h]
    cases hstep : o.step x with
    | error e => rfl
    | ok o' => exact ih (h.takes (takes_of_step hstep))

end Outline

/-- The graph of some statements is that of their outline, finished. -/
theorem ofStatements_eq (ss : List Statement) :
    ofStatements ss = outline ss >>= fun o => o.draft.finish := by
  rw [ofStatements, Outline.start_eq_draft, outline]
  simp only [bind, Except.bind]
  rw [Outline.foldlM_addStatement Outline.sound_empty]
  cases ss.zipIdx.foldlM Outline.step {} <;> rfl

end KernelListing.FlowGraph
