import KernelListing.Proofs.FlowGraph.Simulation

/-!
# The finished graph

Finishing the draft of an outline gives the graph of its filled segments, once every branch has
been let go by the label of its target (`finish_draft`). The arena keeps the slot of an empty
block at the end, which makes no difference to anything that is asked about the graph.
-/

namespace KernelListing.FlowGraph

/-! ## Slots behind the arena -/

/-- The graph with empty slots at the end of its arena. -/
def padded (n : Nat) (g : FlowGraph) : FlowGraph :=
  { g with slots := g.slots ++ List.replicate n none }

theorem block?_padded (n : Nat) (g : FlowGraph) (id : BlockId) :
    (g.padded n).block? id = g.block? id := by
  have h := join_getElem?_rightpad g.slots (g.slots.length + n) id
  rwa [List.rightpad, Nat.add_sub_cancel_left] at h

theorem insertEdge_padded (n : Nat) (g : FlowGraph) (e : Edge) :
    (g.padded n).insertEdge e = (g.insertEdge e).map (padded n) := by
  simp only [insertEdge, block?_padded]
  split
  · rfl
  · split <;> rfl

theorem modifyBlock_padded (n : Nat) (g : FlowGraph) (id : BlockId) (f : Block → Block) :
    (g.padded n).modifyBlock id f = (g.modifyBlock id f).map (padded n) := by
  simp only [modifyBlock, block?_padded]
  split
  · rfl
  · next b hb =>
    rw [Except.map, padded, padded, List.set_append_left _ _ (lt_of_block? hb)]

theorem resolveBranch_padded (n : Nat) (names : List (String × BlockId)) (g : FlowGraph)
    (b : OpenBranch) :
    Draft.resolveBranch names (g.padded n) b = (Draft.resolveBranch names g b).map (padded n) := by
  simp only [Draft.resolveBranch, block?_padded, modifyBlock_padded]
  cases names.lookup b.target with
  | none => rfl
  | some target =>
    dsimp only
    generalize g.modifyBlock b.origin _ = modified
    cases modified with
    | error e => rfl
    | ok g' =>
      simp only [Except.map, Except.mapError, bind, Except.bind, insertEdge_padded]
      split
      · rfl
      · cases g'.insertEdge ⟨b.origin, target, .branch⟩ <;> rfl

theorem foldlM_resolveBranch_padded (n : Nat) (names : List (String × BlockId))
    (bs : List OpenBranch) (g : FlowGraph) :
    bs.foldlM (Draft.resolveBranch names) (g.padded n) =
      (bs.foldlM (Draft.resolveBranch names) g).map (padded n) := by
  induction bs generalizing g with
  | nil => rfl
  | cons b bs ih =>
    rw [List.foldlM_cons, List.foldlM_cons, resolveBranch_padded]
    cases Draft.resolveBranch names g b with
    | error e => rfl
    | ok g' => exact ih g'

/-! ## Branches -/

/-- The label of the block that a name stands for, among the blocks of some segments. -/
def landing (ss : List Segment) (name : String) : String :=
  (((namesOf ss).lookup name).bind fun id => ss[id - 2]?.map (·.label)).getD ""

/-- The instruction that goes by the label of its target, if it is a branch. -/
def redirect (ss : List Segment) (i : Instruction) : Instruction :=
  if i.opcode = .bra then i.renameDestination (landing ss i.d.name) else i

theorem opcode_redirect (ss : List Segment) (i : Instruction) :
    (redirect ss i).opcode = i.opcode := by
  unfold redirect
  split <;> rfl

/-- The segment whose branch goes by the label of its target. -/
def Segment.redirect (ss : List Segment) (s : Segment) : Segment :=
  { s with instructions := s.instructions.map (FlowGraph.redirect ss) }

/-- The edge of a branch, unless it is never taken or its target is not there. -/
def branchEdge? (names : List (String × BlockId)) (b : OpenBranch) : Option Edge :=
  if b.dead then none else (names.lookup b.target).map fun id => ⟨b.origin, id, .branch⟩

/-- The edges of the branches that some segments end with. -/
def branchEdgesOf (ss ss' : List Segment) : List Edge :=
  (branchesOf ss').filterMap (branchEdge? (namesOf ss))

/-- The first branch whose target is not there. -/
def dangling? (ss ss' : List Segment) : Option OpenBranch :=
  (branchesOf ss').find? fun b => ((namesOf ss).lookup b.target).isNone

theorem mem_namesOf {ss : List Segment} {name : String} {id : BlockId} :
    (name, id) ∈ namesOf ss ↔ 2 ≤ id ∧ ∃ s, ss[id - 2]? = some s ∧ name ∈ s.labels := by
  simp only [namesOf, List.mem_reverse, List.mem_flatMap, Prod.exists, mem_numbered,
    Segment.names, List.mem_map, Prod.mk.injEq]
  constructor
  · rintro ⟨s, _, ⟨hid, hs⟩, l, hl, rfl, rfl⟩
    exact ⟨hid, s, hs, hl⟩
  · rintro ⟨hid, s, hs, hl⟩
    exact ⟨s, id, ⟨hid, hs⟩, name, hl, rfl, rfl⟩

theorem lookup_eq_some_of_mem {α : Type} {name : String} {x : α} {l : List (String × α)}
    (hmem : (name, x) ∈ l) (hunique : ∀ y, (name, y) ∈ l → y = x) : l.lookup name = some x := by
  have hsome : (l.lookup name).isSome := by
    rw [List.lookup_isSome_iff]
    exact ⟨_, hmem, beq_self_eq_true name⟩
  obtain ⟨y, hy⟩ := Option.isSome_iff_exists.1 hsome
  obtain ⟨l₁, l₂, rfl, -⟩ := List.lookup_eq_some_iff.1 hy
  rw [hy, hunique y (List.mem_append_right _ (List.mem_cons_self ..))]

theorem exists_of_lookup_namesOf {ss : List Segment} {name : String} {id : BlockId}
    (h : (namesOf ss).lookup name = some id) :
    ∃ k s, id = k + 2 ∧ ss[k]? = some s ∧ name ∈ s.labels := by
  obtain ⟨l₁, l₂, heq, -⟩ := List.lookup_eq_some_iff.1 h
  have hmem : (name, id) ∈ namesOf ss := by
    rw [heq]
    exact List.mem_append_right _ (List.mem_cons_self ..)
  obtain ⟨hid, s, hs, hl⟩ := mem_namesOf.1 hmem
  exact ⟨id - 2, s, (Nat.sub_add_cancel hid).symm, hs, hl⟩

theorem landing_of_lookup {ss : List Segment} {name : String} {k : Nat} {s : Segment}
    (hlookup : (namesOf ss).lookup name = some (k + 2)) (hs : ss[k]? = some s) :
    landing ss name = s.label := by
  simp [landing, hlookup, hs]

namespace Segment

theorem eq_concat_of_last {s : Segment} {i : Instruction}
    (hlast : s.instructions.getLast? = some i) :
    s.instructions = s.instructions.dropLast ++ [i] :=
  (List.dropLast_append_getLast? i hlast).symm

theorem map_redirect_of_plain (ss : List Segment) {is : List Instruction}
    (h : ∀ i ∈ is, i.opcode ≠ .bra) : is.map (FlowGraph.redirect ss) = is := by
  conv_rhs => rw [← List.map_id is]
  refine List.map_congr_left fun i hi => ?_
  rw [FlowGraph.redirect, if_neg (h i hi)]
  rfl

theorem Closed.redirect_of_ne_bra {s : Segment} (h : s.Closed) {i : Instruction}
    (hlast : s.instructions.getLast? = some i) (hop : i.opcode ≠ .bra) (ss : List Segment) :
    s.redirect ss = s := by
  have hmap : s.instructions.map (FlowGraph.redirect ss) = s.instructions := by
    refine map_redirect_of_plain ss fun i' hi' => ?_
    rw [eq_concat_of_last hlast] at hi'
    rcases List.mem_append.1 hi' with hi' | hi'
    · exact ne_of_plain (h.plain i' hi') .bra rfl
    · rw [List.mem_singleton.1 hi']
      exact hop
  rw [redirect, hmap]

/-- Letting the last instruction go by the label of its target is all that redirecting a closed
segment does. -/
theorem Closed.retargetLast_eq {s : Segment} (h : s.Closed) {i : Instruction}
    (hlast : s.instructions.getLast? = some i) (hop : i.opcode = .bra) (ss : List Segment) :
    Draft.retargetLast (landing ss i.d.name) s.instructions = (s.redirect ss).instructions := by
  have hfront := map_redirect_of_plain ss
    fun i' hi' => ne_of_plain (h.plain i' hi') .bra rfl
  rw [redirect, Draft.retargetLast, hlast]
  conv_rhs => rw [eq_concat_of_last hlast, List.map_append, hfront]
  simp [FlowGraph.redirect, hop]

end Segment

theorem label_redirect (ss : List Segment) (s : Segment) : (s.redirect ss).label = s.label := rfl

theorem Segment.openBranch?_of_bra {s : Segment} {i : Instruction}
    (hlast : s.instructions.getLast? = some i) (hop : i.opcode = .bra) (id : BlockId) :
    s.openBranch? id =
      some { origin := id, target := i.d.name, dead := i.guard.isAlwaysFalse } := by
  simp [openBranch?, hlast, hop]

/-- A branch whose target is there is resolved in its own block alone. -/
theorem resolveBranch_slotsOf {ss done todo : List Segment} {s : Segment} {i : Instruction}
    {b : OpenBranch} {target : BlockId} (hss : ss = done ++ s :: todo) (hclosed : s.Closed)
    (hlast : s.instructions.getLast? = some i) (hop : i.opcode = .bra)
    (hb : s.openBranch? (done.length + 2) = some b)
    (hlookup : (namesOf ss).lookup b.target = some target) (es : List Edge) (n : Nat) :
    Draft.resolveBranch (namesOf ss)
        ⟨slotsOf (done.map (Segment.redirect ss) ++ s :: todo), es, n⟩ b =
      .ok ⟨slotsOf (done.map (Segment.redirect ss) ++ s.redirect ss :: todo),
        es ++ (branchEdge? (namesOf ss) b).toList, n⟩ := by
  obtain ⟨k, t, rfl, ht, -⟩ := exists_of_lookup_namesOf hlookup
  rw [Segment.openBranch?_of_bra hlast hop] at hb
  cases hb
  -- Redirecting leaves the labels alone, so the target bears the label it always had.
  have hlabel : ((block? ⟨slotsOf (done.map (Segment.redirect ss) ++ s :: todo), es, n⟩
      (k + 2)).map (·.label)).getD "" = landing ss i.d.name := by
    rw [landing_of_lookup hlookup ht, block?_slotsOf, Option.map_map]
    have hmap : ((done.map (Segment.redirect ss) ++ s :: todo)[k]?).map (·.label) =
        some t.label := by
      rw [← List.getElem?_map, List.map_append, List.map_map, Function.comp_def]
      simp only [label_redirect]
      rw [← List.map_append, ← hss, List.getElem?_map, ht]
      rfl
    simpa [Function.comp_def, Segment.block] using congrArg (·.getD "") hmap
  have hretarget : { s.block ((done.map (Segment.redirect ss)).length + 2) with
      instructions := Draft.retargetLast (landing ss i.d.name) s.instructions } =
        (s.redirect ss).block ((done.map (Segment.redirect ss)).length + 2) := by
    rw [hclosed.retargetLast_eq hlast hop]
    rfl
  have hmodify := modifyBlock_slotsOf (done.map (Segment.redirect ss)) todo (s := s)
    (f := fun b => { b with
      instructions := Draft.retargetLast (landing ss i.d.name) b.instructions })
    hretarget es n
  have hk : k + 2 < (done.map (Segment.redirect ss) ++ s.redirect ss :: todo).length + 2 := by
    have hlt := (List.getElem?_eq_some_iff.1 ht).1
    rw [hss] at hlt
    simpa using hlt
  have hinsert :
      insertEdge ⟨slotsOf (done.map (Segment.redirect ss) ++ s.redirect ss :: todo), es, n⟩
          ⟨done.length + 2, k + 2, .branch⟩ =
        .ok ⟨slotsOf (done.map (Segment.redirect ss) ++ s.redirect ss :: todo),
          es ++ [⟨done.length + 2, k + 2, .branch⟩], n⟩ :=
    insertEdge_slotsOf es n (by simp) hk
  rw [List.length_map] at hmodify
  simp only [Draft.resolveBranch, hlookup, hlabel, hmodify, Except.mapError, bind, Except.bind,
    branchEdge?]
  split
  · simp [pure, Except.pure]
  · rw [hinsert]
    rfl

/-- Resolving the branches of some segments redirects these segments and draws their edges,
unless one of them has no target. -/
theorem foldlM_resolveBranch {ss : List Segment} (hclosed : ∀ s ∈ ss, s.Closed) (es : List Edge)
    (n : Nat) {done todo : List Segment} (hss : ss = done ++ todo) :
    (branchesOf done).foldlM (Draft.resolveBranch (namesOf ss)) ⟨slotsOf ss, es, n⟩ =
      match dangling? ss done with
      | some b => .error (.undefinedLabel b.target)
      | none => .ok
        ⟨slotsOf (done.map (Segment.redirect ss) ++ todo), es ++ branchEdgesOf ss done, n⟩ := by
  -- The segments of `done` are redirected and those of `todo` are not yet; all of them are named as
  -- they were in `ss`.
  induction done using List.reverseRecOn generalizing todo with
  | nil => simp [dangling?, branchEdgesOf, branchesOf, hss, pure, Except.pure]
  | append_singleton done s ih =>
    have hs : s.Closed := hclosed s (by simp [hss])
    have hss' : ss = done ++ s :: todo := by rw [hss, List.append_assoc]; rfl
    obtain ⟨i, hlast⟩ := hs.exists_last
    rw [branchesOf_concat, List.foldlM_append, ih hss', dangling?, dangling?, branchesOf_concat,
      List.find?_append, branchEdgesOf, branchEdgesOf, branchesOf_concat, List.filterMap_append]
    cases hfind : (branchesOf done).find? (fun b => ((namesOf ss).lookup b.target).isNone) with
    | some b => rfl
    | none =>
      by_cases hop : i.opcode = .bra
      · have hb := Segment.openBranch?_of_bra hlast hop (done.length + 2)
        cases hlookup : (namesOf ss).lookup i.d.name with
        | none => simp [hb, Draft.resolveBranch, hlookup, bind, Except.bind]
        | some target =>
          have hstep := resolveBranch_slotsOf hss' hs hlast hop hb hlookup
            (es ++ (branchesOf done).filterMap (branchEdge? (namesOf ss))) n
          simp only [hb, Option.toList_some, bind, Except.bind, List.foldlM_cons, List.foldlM_nil,
            hstep, List.find?_cons, hlookup, Option.isNone_some, List.find?_nil, Option.or_none,
            List.map_append, List.map_cons, List.map_nil, List.append_assoc, List.filterMap_cons,
            List.filterMap_nil]
          cases branchEdge? (namesOf ss)
            { origin := done.length + 2, target := i.d.name, dead := i.guard.isAlwaysFalse } <;>
            rfl
      · rw [Segment.openBranch?_of_ne_bra hlast hop]
        simp [bind, Except.bind, hs.redirect_of_ne_bra hlast hop, pure, Except.pure]

namespace Outline

/-- The segments that have instructions: all, or all but an empty one at the end. -/
def filled (o : Outline) : List Segment :=
  if o.last.instructions.isEmpty then o.closed else o.segments

def graph (o : Outline) : FlowGraph :=
  padded (o.segments.length - o.filled.length)
    ⟨slotsOf (o.filled.map (Segment.redirect o.filled)),
      edgesOf o.filled ++ branchEdgesOf o.filled o.filled, o.current + 1⟩

theorem Sound.filled {o : Outline} (h : o.Sound) : ∀ s ∈ o.filled, s.Closed := by
  intro s hs
  unfold Outline.filled at hs
  split at hs
  · exact h.closed s hs
  · next hne =>
    rcases mem_concat hs with hs | rfl
    · exact h.closed s hs
    · exact h.last_closed (by simpa using hne)

theorem Sound.closed_of_getElem? {o : Outline} (h : o.Sound) {k : Nat} {s : Segment}
    (hs : o.filled[k]? = some s) : s.Closed :=
  h.filled s (List.mem_of_getElem? hs)

theorem Sound.linked_filled {o : Outline} (h : o.Sound) : Linked o.filled := by
  unfold Outline.filled
  split
  · exact (linked_concat.1 h.linked).1
  · exact h.linked

theorem removeBlock_slotsOf_concat (ss : List Segment) (s : Segment) (n : Nat) :
    removeBlock ⟨slotsOf (ss ++ [s]), edgesOf ss, n⟩ (ss.length + 2) =
      .ok (some (s.block (ss.length + 2)), padded 1 ⟨slotsOf ss, edgesOf ss, n⟩) := by
  have hb : block? ⟨slotsOf (ss ++ [s]), edgesOf ss, n⟩ (ss.length + 2) =
      some (s.block (ss.length + 2)) := by
    rw [block?_slotsOf]
    simp
  have hset : (slotsOf (ss ++ [s])).set (ss.length + 2) none = slotsOf ss ++ [none] := by
    rw [slotsOf_concat, List.set_append_right _ _ (by simp)]
    simp
  have hedges : (edgesOf ss).filter (fun e => e.head ≠ ss.length + 2 ∧ e.tail ≠ ss.length + 2) =
      edgesOf ss := by
    refine List.filter_eq_self.2 fun e he => ?_
    obtain ⟨hhead, htail⟩ := lt_of_mem_edgesOf he
    simpa using ⟨Nat.ne_of_lt hhead, Nat.ne_of_lt htail⟩
  rw [removeBlock, if_neg (by simp [FlowGraph.entry, FlowGraph.exit]), hb]
  simp only [hset, hedges]
  rfl

theorem filter_namesOf_concat (ss : List Segment) (s : Segment) :
    (namesOf (ss ++ [s])).filter (·.2 ≠ ss.length + 2) = namesOf ss := by
  have hlast : ((s.names (ss.length + 2)).reverse).filter (·.2 ≠ ss.length + 2) = [] := by
    refine List.filter_eq_nil_iff.2 fun p hp => ?_
    obtain ⟨l, -, rfl⟩ := List.mem_map.1 (List.mem_reverse.1 hp)
    simp
  have hfront : (namesOf ss).filter (·.2 ≠ ss.length + 2) = namesOf ss := by
    refine List.filter_eq_self.2 fun p hp => ?_
    obtain ⟨hid, s', hs', -⟩ := mem_namesOf.1 (show (p.1, p.2) ∈ namesOf ss from hp)
    have hlt := (List.getElem?_eq_some_iff.1 hs').1
    simp only [ne_eq, decide_not, Bool.not_eq_true', decide_eq_false_iff_not]
    intro heq
    rw [heq] at hlt
    exact Nat.lt_irrefl _ hlt
  rw [namesOf_concat, List.filter_append, hlast, hfront, List.nil_append]

theorem closeLast_draft {o : Outline} (h : o.Sound) :
    ∃ pending current, o.draft.closeLast = .ok
      { graph := padded (o.segments.length - o.filled.length)
          ⟨slotsOf o.filled, edgesOf o.filled, o.current + 1⟩
        labels := namesOf o.filled
        branches := branchesOf o.filled
        exitSeen := o.filled.any Segment.exits
        pending, current } := by
  cases hempty : o.last.instructions.isEmpty with
  | true =>
    -- The block at the end is empty and is removed, with the labels that stand for it.
    refine ⟨o.draft.pending, o.current, ?_⟩
    have hfilled : o.filled = o.closed := by simp [filled, hempty]
    have hlength : o.segments.length - o.closed.length = 1 := by simp [segments]
    have hremove : o.draft.graph.removeBlock o.draft.current =
        .ok (some (o.last.block o.current),
          padded 1 ⟨slotsOf o.closed, edgesOf o.closed, o.current + 1⟩) :=
      removeBlock_slotsOf_concat o.closed o.last (o.current + 1)
    rw [Draft.closeLast, currentBlock_draft, hfilled, hlength]
    simp only [bind, Except.bind, Block.isEmpty, Segment.block, hempty, if_true, hremove,
      Except.mapError, pure, Except.pure]
    rw [show o.draft.labels.filter (·.2 ≠ o.draft.current) = namesOf o.closed from
      filter_namesOf_concat o.closed o.last]
    rfl
  | false =>
    -- The block at the end stays. It does not transfer control, so only the edge into it is left to
    -- draw.
    refine ⟨none, o.current, ?_⟩
    have hne : o.last.instructions ≠ [] := by simpa using hempty
    obtain ⟨i, hlast, hplain⟩ := h.exists_last hne
    have hfilled : o.filled = o.segments := by simp [filled, hempty]
    have hexit := Segment.ne_of_plain hplain .exit rfl
    have hexits : o.segments.any Segment.exits = o.closed.any Segment.exits := by
      simp [segments, Segment.exits_of_last hlast, hexit]
    have hbranches : branchesOf o.segments = branchesOf o.closed := by
      rw [segments, branchesOf_concat,
        Segment.openBranch?_of_ne_bra hlast (Segment.ne_of_plain hplain .bra rfl)]
      simp
    rw [Draft.closeLast, currentBlock_draft, hfilled, hexits, hbranches, edgesOf_segments,
      Segment.leaving_of_plain hlast hplain, List.append_nil, Nat.sub_self]
    simp only [bind, Except.bind, Block.isEmpty, Segment.block, hempty, Bool.false_eq_true,
      if_false, joinPending_draft o o.draft.exitSeen]
    simp [padded, draft]

/-- Finishing the draft of an outline gives its graph, unless there is no exit or a branch has
no target. -/
theorem finish_draft {o : Outline} (h : o.Sound) :
    o.draft.finish =
      if o.filled.any Segment.exits then
        match dangling? o.filled o.filled with
        | some b => .error (.undefinedLabel b.target)
        | none => .ok o.graph
      else .error .missingExit := by
  obtain ⟨pending, current, hclose⟩ := closeLast_draft h
  have hresolve := foldlM_resolveBranch h.filled (edgesOf o.filled) (o.current + 1)
    (List.append_nil o.filled).symm
  rw [Draft.finish, hclose]
  simp only [bind, Except.bind]
  split
  · rw [foldlM_resolveBranch_padded, hresolve]
    cases dangling? o.filled o.filled with
    | some b => rfl
    | none =>
      rw [graph, List.append_nil]
      rfl
  · rfl

end Outline

/-- A graph of statements is the graph of their outline. -/
theorem ofStatements_eq_ok_iff {ss : List Statement} {g : FlowGraph} :
    ofStatements ss = .ok g ↔ ∃ o, outline ss = .ok o ∧ o.filled.any Segment.exits = true ∧
      dangling? o.filled o.filled = none ∧ g = o.graph := by
  rw [ofStatements_eq]
  cases hout : outline ss with
  | error e => simp [bind, Except.bind]
  | ok o =>
    simp only [bind, Except.bind, Outline.finish_draft (outline_sound hout), Except.ok.injEq,
      exists_eq_left']
    split
    · next hexit =>
      cases dangling? o.filled o.filled with
      | some b => simp
      | none => simp [hexit, eq_comm]
    · next hexit => simp [hexit]

end KernelListing.FlowGraph
