import Mathlib.Algebra.Group.Nat.Defs
import KernelListing.Proofs.FlowGraph.Edits
import KernelListing.Proofs.FlowGraph.Verdict

/-!
# No operation is refused

Building a graph asks for operations that a graph may refuse: a fresh id where all are handed out, a
block inserted into a slot that is taken, the entry or exit block removed, a block changed or joined
that is not there. `Draft.Ready` is what it takes to add one more statement, and `Draft.Intact` what
it takes to finish as well. The branches and labels that a draft has recorded are used last, after
the block at the end may have been removed: `Draft.Resolvable` is what has to be left of them then.

A draft that is ready is refused nothing when a statement is added (`Ready.addStatement_ne_fault`),
and one that is intact nothing when it is finished (`Intact.finish_ne_fault`). All drafts on the way
to a graph are intact, since they are drafts of outlines, as long as there are fewer statements than
ids (`ofStatements_faultless`).
-/

namespace KernelListing.FlowGraph

namespace Draft

/-- The blocks that the recorded branches and labels stand for are there. -/
structure Resolvable (d : Draft) : Prop where
  origins : ∀ b ∈ d.branches, (d.graph.block? b.origin).isSome
  targets : ∀ p ∈ d.labels, (d.graph.block? p.2).isSome

/-- The block at the end can be closed and the next one opened. -/
structure Ready (d : Draft) : Prop where
  current : (d.graph.block? d.current).isSome
  pending : ∀ head ∈ d.pending, (d.graph.block? head).isSome
  exit : (d.graph.block? FlowGraph.exit).isSome
  /-- There is an id for the next block. -/
  room : d.graph.issued < idLimit
  /-- The slot of the next block is empty. -/
  fresh : d.graph.block? d.graph.issued = none

/-- The draft can be added to and finished. -/
structure Intact (d : Draft) : Prop extends d.Resolvable, d.Ready where
  /-- The block at the end may be removed. -/
  removable : d.current ≠ FlowGraph.entry ∧ d.current ≠ FlowGraph.exit
  /-- No branch goes with the block at the end. -/
  kept : ∀ b ∈ d.branches, b.origin ≠ d.current

variable {d : Draft}

/-! ## Operations -/

theorem insertEdge_of_isSome {g : FlowGraph} {e : Edge} (hhead : (g.block? e.head).isSome)
    (htail : (g.block? e.tail).isSome) :
    g.insertEdge e = .ok { g with edges := g.edges ++ [e] } := by
  have hhead' := Option.isSome_iff_ne_none.1 hhead
  have htail' := Option.isSome_iff_ne_none.1 htail
  simp only [FlowGraph.insertEdge, Option.isNone_iff_eq_none, hhead', htail', if_false]

theorem modifyBlock_of_isSome {g : FlowGraph} {id : BlockId} (h : (g.block? id).isSome)
    (f : Block → Block) : ∃ g', g.modifyBlock id f = .ok g' ∧ g'.issued = g.issued ∧
      ∀ id', (g'.block? id').isSome = (g.block? id').isSome := by
  obtain ⟨b, hb⟩ := Option.isSome_iff_exists.1 h
  have hmodify : g.modifyBlock id f = .ok { g with slots := g.slots.set id (some (f b)) } := by
    rw [modifyBlock, hb]
  refine ⟨_, hmodify, rfl, fun id' => ?_⟩
  rw [block?_of_modifyBlock hmodify]
  split
  · next hid => rw [hid, Option.isSome_map]
  · rfl

theorem modifyCurrent_of_isSome (h : (d.graph.block? d.current).isSome) (f : Block → Block) :
    ∃ g', d.modifyCurrent f = .ok { d with graph := g' } ∧ g'.issued = d.graph.issued ∧
      ∀ id, (g'.block? id).isSome = (d.graph.block? id).isSome := by
  obtain ⟨g', hmodify, hissued, hblocks⟩ := modifyBlock_of_isSome h f
  refine ⟨g', ?_, hissued, hblocks⟩
  rw [modifyCurrent, hmodify]
  rfl

namespace Ready

theorem exists_currentBlock (h : d.Ready) :
    ∃ b, d.graph.block? d.current = some b ∧ d.currentBlock = .ok b := by
  obtain ⟨b, hb⟩ := Option.isSome_iff_exists.1 h.current
  refine ⟨b, hb, ?_⟩
  rw [currentBlock, hb]

theorem joinPending (h : d.Ready) : ∃ es, d.joinPending =
    .ok { d with graph := { d.graph with edges := es }, pending := none } := by
  cases hpending : d.pending with
  | none =>
    refine ⟨d.graph.edges, ?_⟩
    rw [Draft.joinPending, hpending]
    exact congrArg (fun pending => Except.ok { d with pending }) hpending
  | some head =>
    have hedge := insertEdge_of_isSome (e := ⟨head, d.current, .fallThrough⟩)
      (h.pending head hpending) h.current
    refine ⟨d.graph.edges ++ [⟨head, d.current, .fallThrough⟩], ?_⟩
    simp only [Draft.joinPending, hpending, Draft.insertEdge, hedge]
    rfl

/-- Whichever edges have been drawn, a draft stays ready. -/
theorem joined (h : d.Ready) (es : List Edge) :
    Ready { d with graph := { d.graph with edges := es }, pending := none } :=
  ⟨h.current, fun head hhead => absurd hhead (Option.not_mem_none head), h.exit, h.room, h.fresh⟩

theorem modifyCurrent (h : d.Ready) (f : Block → Block) :
    ∃ d', d.modifyCurrent f = .ok d' ∧ d'.Ready := by
  obtain ⟨g', hmodify, hissued, hblocks⟩ := modifyCurrent_of_isSome h.current f
  refine ⟨_, hmodify, ?_, fun head hhead => ?_, ?_, ?_, ?_⟩
  · exact (hblocks _).trans h.current
  · exact (hblocks head).trans (h.pending head hhead)
  · exact (hblocks _).trans h.exit
  · exact hissued ▸ h.room
  · rw [← Option.not_isSome_iff_eq_none, hissued, hblocks, Option.not_isSome_iff_eq_none]
    exact h.fresh

theorem nextBlock (h : d.Ready) (pending : Option BlockId) :
    ∃ d', d.nextBlock pending = .ok d' ∧ (d'.graph.block? d'.current).isSome := by
  have hid : d.graph.newId = .ok (d.graph.issued, { d.graph with issued := d.graph.issued + 1 }) :=
    if_pos h.room
  obtain ⟨g, hinsert⟩ := insertBlock_of_none
    (g := { d.graph with issued := d.graph.issued + 1 }) (b := { id := d.graph.issued }) h.fresh
  have hopen : openBlock d.graph = .ok (d.graph.issued, g) := by
    simp only [openBlock, hid, Except.mapError, bind, Except.bind, hinsert]
    rfl
  refine ⟨{ d with graph := g, current := d.graph.issued, pending }, ?_, ?_⟩
  · rw [Draft.nextBlock, hopen]
    rfl
  · rw [block?_of_insertBlock hinsert, if_pos rfl]
    rfl

/-! ## Statements -/

theorem closeForLabel (h : d.Ready) :
    ∃ d', d.closeForLabel = .ok d' ∧ (d'.graph.block? d'.current).isSome := by
  obtain ⟨b, -, hcurrent⟩ := h.exists_currentBlock
  rw [Draft.closeForLabel, hcurrent]
  simp only [bind, Except.bind]
  split
  · exact ⟨d, rfl, h.current⟩
  · obtain ⟨es, hjoin⟩ := h.joinPending
    rw [hjoin]
    exact (h.joined es).nextBlock _

theorem addLabel_ne_fault (h : d.Ready) (name : String) (statement : Nat) (fault : Fault) :
    d.addLabel name statement ≠ .error (.fault fault) := by
  obtain ⟨d', hclose, hcurrent⟩ := h.closeForLabel
  obtain ⟨g', hmodify, -, -⟩ :=
    modifyCurrent_of_isSome hcurrent fun b => { b with label := name }
  rw [addLabel, hclose]
  simp only [bind, Except.bind]
  split
  · intro herr
    cases herr
  · rw [nameCurrent, hmodify]
    intro herr
    cases herr

theorem closeWithBranch (h : d.Ready) (i : Instruction) : ∃ d', d.closeWithBranch i = .ok d' := by
  obtain ⟨es, hjoin⟩ := h.joinPending
  have hjoined := h.joined es
  rw [Draft.closeWithBranch, hjoin]
  have hbranch : Ready { d with
      graph := { d.graph with edges := es }
      pending := none
      branches := d.branches ++
        [{ origin := d.current, target := i.d.name, dead := i.guard.isAlwaysFalse }] } :=
    ⟨hjoined.current, hjoined.pending, hjoined.exit, hjoined.room, hjoined.fresh⟩
  obtain ⟨d', hnext, -⟩ := hbranch.nextBlock (if i.guard.isAlwaysTrue then none else some d.current)
  exact ⟨d', hnext⟩

theorem closeWithLeave (h : d.Ready) (kind : EdgeKind) :
    ∃ d', d.closeWithLeave kind = .ok d' := by
  obtain ⟨es, hjoin⟩ := h.joinPending
  have hedge := insertEdge_of_isSome (g := { d.graph with edges := es })
    (e := ⟨d.current, FlowGraph.exit, kind⟩) h.current h.exit
  obtain ⟨d', hnext, -⟩ :=
    (h.joined (es ++ [⟨d.current, FlowGraph.exit, kind⟩])).nextBlock none
  rw [Draft.closeWithLeave, hjoin]
  simp only [bind, Except.bind, Draft.insertEdge, hedge]
  exact ⟨d', hnext⟩

theorem pushInstruction (h : d.Ready) (i : Instruction) : ∃ d', d.pushInstruction i = .ok d' := by
  obtain ⟨d', hmodify, hready⟩ :=
    h.modifyCurrent fun b => { b with instructions := b.instructions ++ [i] }
  rw [Draft.pushInstruction, hmodify]
  simp only [bind, Except.bind]
  split
  · exact hready.closeWithBranch i
  · have hseen : Ready { d' with exitSeen := true } :=
      ⟨hready.current, hready.pending, hready.exit, hready.room, hready.fresh⟩
    exact hseen.closeWithLeave .fallThrough
  · exact hready.closeWithLeave .branch
  · exact ⟨d', rfl⟩

/-- A statement may be wrong, but is never refused an operation. -/
theorem addStatement_ne_fault (h : d.Ready) (x : Statement × Nat) (fault : Fault) :
    d.addStatement x ≠ .error (.fault fault) := by
  obtain ⟨s, n⟩ := x
  cases s with
  | label name => exact h.addLabel_ne_fault name n fault
  | instruction i =>
    obtain ⟨d', hpush⟩ := h.pushInstruction i
    rw [addStatement, addInstruction, hpush]
    split
    · intro herr
      cases herr
    · split
      · intro herr
        cases herr
      · intro herr
        cases herr
  | parameter p =>
    intro herr
    cases herr
  | localVariable v =>
    intro herr
    cases herr
  | sharedVariable v =>
    intro herr
    cases herr
  | entry name =>
    intro herr
    cases herr

end Ready

/-! ## Finishing -/

/-- Closing the last block leaves every block that a branch or a label stands for. -/
theorem Intact.closeLast (h : d.Intact) : ∃ d', d.closeLast = .ok d' ∧ d'.Resolvable := by
  obtain ⟨b, hb, hcurrent⟩ := h.exists_currentBlock
  rw [Draft.closeLast, hcurrent]
  simp only [bind, Except.bind]
  split
  · obtain ⟨g, hremove⟩ := removeBlock_of_some h.removable.1 h.removable.2 hb
    -- The block that goes is not the origin of a branch, and its labels go with it.
    have hblock : ∀ {id}, id ≠ d.current → g.block? id = d.graph.block? id := fun hid =>
      (block?_of_removeBlock hremove _).2.trans (if_neg hid)
    rw [hremove]
    refine ⟨_, rfl, fun branch hbranch => ?_, fun p hp => ?_⟩
    · exact hblock (h.kept branch hbranch) ▸ h.origins branch hbranch
    · obtain ⟨hmem, hne⟩ := List.mem_filter.1 hp
      exact hblock (by simpa using hne) ▸ h.targets p hmem
  · obtain ⟨es, hjoin⟩ := h.joinPending
    exact ⟨_, hjoin, h.origins, h.targets⟩

theorem resolveBranch_ne_fault {g : FlowGraph} {names : List (String × BlockId)} {b : OpenBranch}
    (horigin : (g.block? b.origin).isSome) (htargets : ∀ p ∈ names, (g.block? p.2).isSome) :
    (∀ fault, resolveBranch names g b ≠ .error (.fault fault)) ∧
      ∀ g', resolveBranch names g b = .ok g' →
        ∀ id, (g'.block? id).isSome = (g.block? id).isSome := by
  unfold resolveBranch
  cases hlookup : names.lookup b.target with
  | none =>
    constructor
    · intro fault herr
      cases herr
    · intro g' hok
      cases hok
  | some target =>
    obtain ⟨before, after, hnames, -⟩ := List.lookup_eq_some_iff.1 hlookup
    have htarget : (g.block? target).isSome := by
      refine htargets (b.target, target) ?_
      rw [hnames]
      exact List.mem_append_right _ (List.mem_cons_self ..)
    obtain ⟨g', hmodify, -, hblocks⟩ := modifyBlock_of_isSome horigin fun block =>
      { block with instructions :=
          retargetLast (((g.block? target).map (·.label)).getD "") block.instructions }
    have hedge := insertEdge_of_isSome (e := ⟨b.origin, target, .branch⟩)
      ((hblocks _).trans horigin) ((hblocks _).trans htarget)
    simp only [hmodify, hedge, Except.mapError, bind, Except.bind]
    split
    · refine ⟨fun fault herr => ?_, fun g'' hok => ?_⟩
      · cases herr
      · cases hok
        exact hblocks
    · refine ⟨fun fault herr => ?_, fun g'' hok => ?_⟩
      · cases herr
      · cases hok
        exact hblocks

theorem foldlM_resolveBranch_ne_fault {names : List (String × BlockId)} {bs : List OpenBranch}
    {g : FlowGraph} (horigins : ∀ b ∈ bs, (g.block? b.origin).isSome)
    (htargets : ∀ p ∈ names, (g.block? p.2).isSome) (fault : Fault) :
    bs.foldlM (resolveBranch names) g ≠ .error (.fault fault) := by
  induction bs generalizing g with
  | nil =>
    intro herr
    cases herr
  | cons b bs ih =>
    obtain ⟨hb, hbs⟩ := List.forall_mem_cons.1 horigins
    obtain ⟨hne, hblocks⟩ := resolveBranch_ne_fault hb htargets
    rw [List.foldlM_cons]
    cases hstep : resolveBranch names g b with
    | error e =>
      intro herr
      obtain rfl := Except.error.inj herr
      exact hne fault hstep
    | ok g' =>
      have hblocks := hblocks g' hstep
      exact ih (fun b' hb' => (hblocks _).trans (hbs b' hb')) fun p hp =>
        (hblocks _).trans (htargets p hp)

theorem Intact.finish_ne_fault (h : d.Intact) (fault : Fault) :
    d.finish ≠ .error (.fault fault) := by
  obtain ⟨d', hclose, hresolvable⟩ := h.closeLast
  rw [finish, hclose]
  simp only [bind, Except.bind]
  split
  · exact foldlM_resolveBranch_ne_fault hresolvable.origins hresolvable.targets fault
  · intro herr
    cases herr

end Draft

/-! ## Runs -/

/-- The draft of some statements, before it is finished. -/
def drafted (ss : List Statement) : Except BuildError Draft := do
  ss.zipIdx.foldlM Draft.addStatement (← Draft.start)

theorem drafted_concat (ss : List Statement) (s : Statement) :
    drafted (ss ++ [s]) = drafted ss >>= fun d => d.addStatement (s, ss.length) := by
  rw [drafted, drafted, Outline.start_eq_draft, List.zipIdx_append]
  simp only [bind, Except.bind]
  rw [List.foldlM_append]
  simp only [List.zipIdx_cons, List.zipIdx_nil, List.foldlM_cons, List.foldlM_nil, Nat.zero_add,
    bind_pure]
  rfl

theorem ofStatements_eq_drafted (ss : List Statement) :
    ofStatements ss = drafted ss >>= Draft.finish := by
  rw [ofStatements, drafted, Outline.start_eq_draft]
  rfl

/-- While all drafts are ready for the next statement, no statement is refused an operation. -/
theorem drafted_ne_fault {ss : List Statement}
    (h : ∀ front, front <+: ss → ∀ d, drafted front = .ok d → d.Ready) (fault : Fault) :
    drafted ss ≠ .error (.fault fault) := by
  induction ss using List.reverseRecOn with
  | nil =>
    intro herr
    cases herr
  | append_singleton ss s ih =>
    have hss := List.prefix_append ss [s]
    rw [drafted_concat]
    cases hdraft : drafted ss with
    | error e =>
      intro herr
      obtain rfl := Except.error.inj herr
      exact ih (fun front hfront => h front (hfront.trans hss)) hdraft
    | ok d => exact (h ss hss d hdraft).addStatement_ne_fault (s, ss.length) fault

/-! ## Drafts of outlines -/

theorem exists_outline_of_drafted {ss : List Statement} {d : Draft} (h : drafted ss = .ok d) :
    ∃ o, outline ss = .ok o ∧ d = o.draft := by
  -- The simulation needs no more than that the empty outline is sound.
  have hdrafted : drafted ss = (outline ss).map Outline.draft := by
    rw [drafted, Outline.start_eq_draft]
    exact Outline.foldlM_addStatement Outline.sound_empty ss.zipIdx
  rw [hdrafted] at h
  cases hout : outline ss with
  | error e =>
    rw [hout] at h
    cases h
  | ok o =>
    rw [hout] at h
    exact ⟨o, rfl, (Except.ok.inj h).symm⟩

theorem origin_lt_of_mem_branchesOf {ss : List Segment} {b : OpenBranch} (h : b ∈ branchesOf ss) :
    b.origin < ss.length + 2 := by
  obtain ⟨⟨s, id⟩, hs, hb⟩ := List.mem_filterMap.1 h
  obtain ⟨i, -, rfl⟩ := Option.map_eq_some_iff.1 hb
  obtain ⟨hid, hs⟩ := mem_numbered.1 hs
  have hlt := (List.getElem?_eq_some_iff.1 hs).1
  exact (Nat.sub_lt_iff_lt_add hid).1 hlt

theorem lt_of_mem_namesOf {ss : List Segment} {p : String × BlockId} (h : p ∈ namesOf ss) :
    p.2 < ss.length + 2 := by
  obtain ⟨hid, s, hs, -⟩ := mem_namesOf.1 h
  have hlt := (List.getElem?_eq_some_iff.1 hs).1
  exact (Nat.sub_lt_iff_lt_add hid).1 hlt

theorem Outline.intact_draft {o : Outline} (hroom : o.current + 1 < idLimit) : o.draft.Intact := by
  have hcurrent : o.current < o.segments.length + 2 := by simp [Outline.current, Outline.segments]
  have hthere : ∀ {id}, id < o.segments.length + 2 → (o.draft.graph.block? id).isSome :=
    isSome_block?_slotsOf _ _
  have hnext : o.draft.graph.issued = o.segments.length + 2 := by
    rw [o.length_segments]
    rfl
  refine ⟨⟨fun b hb => ?_, fun p hp => ?_⟩, ⟨hthere hcurrent, fun head hhead => ?_, ?_, hroom, ?_⟩,
    ⟨Nat.succ_ne_zero _, fun h => Nat.succ_ne_zero _ (Nat.succ.inj h)⟩, fun b hb => ?_⟩
  · exact hthere (Nat.lt_trans (origin_lt_of_mem_branchesOf hb) hcurrent)
  · exact hthere (lt_of_mem_namesOf hp)
  · obtain ⟨-, rfl⟩ : o.last.entered = true ∧ Segment.before o.current = head := by
      simpa [Outline.draft, Segment.pending] using hhead
    exact hthere (Nat.lt_trans (Segment.before_lt (Nat.le_add_left 2 _)) hcurrent)
  · exact hthere (Nat.lt_add_left _ Nat.one_lt_two)
  · rw [hnext, Outline.draft, block?_slotsOf, List.getElem?_eq_none (Nat.le_refl _)]
    rfl
  · exact Nat.ne_of_lt (origin_lt_of_mem_branchesOf hb)

/-- With fewer statements than ids, building a graph is never refused an operation. All drafts on
the way are intact; when the last one is closed, the blocks of all branches and labels are left;
and the answer, be it a graph or an error, is no fault. -/
theorem ofStatements_faultless {ss : List Statement} (h : ss.length < 2 ^ 32 - 4) :
    (∀ front, front <+: ss → ∀ d, drafted front = .ok d → d.Intact) ∧
      (∀ d, drafted ss = .ok d → ∃ d', d.closeLast = .ok d' ∧ d'.Resolvable) ∧
      ∀ fault, ofStatements ss ≠ .error (.fault fault) := by
  have hids : idLimit = 2 ^ 32 - 1 := rfl
  have hintact : ∀ front, front <+: ss → ∀ d, drafted front = .ok d → d.Intact := by
    intro front hfront d hd
    obtain ⟨o, hout, rfl⟩ := exists_outline_of_drafted hd
    have hclosed := length_closed_le hout
    have hlength := hfront.length_le
    have hroom : o.closed.length + 3 < idLimit := by omega
    exact Outline.intact_draft hroom
  have hss := List.prefix_refl ss
  refine ⟨hintact, fun d hd => (hintact ss hss d hd).closeLast, fun fault => ?_⟩
  rw [ofStatements_eq_drafted]
  cases hdraft : drafted ss with
  | error e =>
    intro herr
    obtain rfl := Except.error.inj herr
    exact drafted_ne_fault (fun front hfront d hd => (hintact front hfront d hd).toReady) fault
      hdraft
  | ok d => exact (hintact ss hss d hdraft).finish_ne_fault fault

/-- A branch to a label at the end, whose block goes when the draft is finished. -/
def trailing : List Statement :=
  [.instruction { opcode := .bra, d := .label "L" }, .instruction { opcode := .exit }, .label "L"]

theorem ofStatements_faultless_trailing : trailing.length < 2 ^ 32 - 4 ∧
    (∃ d, drafted trailing = .ok d ∧ d.Intact ∧ ∃ d', d.closeLast = .ok d' ∧ d'.Resolvable) ∧
    ∀ fault, ofStatements trailing ≠ .error (.fault fault) := by
  have hlength : trailing.length < 2 ^ 32 - 4 := by decide
  obtain ⟨hintact, hclose, hfault⟩ := ofStatements_faultless hlength
  have hdraft : drafted trailing = .ok _ := rfl
  exact ⟨hlength, ⟨_, rfl, hintact _ (List.prefix_refl _) _ hdraft, hclose _ hdraft⟩, hfault⟩

end KernelListing.FlowGraph
