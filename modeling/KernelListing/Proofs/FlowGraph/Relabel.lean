import KernelListing.Proofs.FlowGraph.Rebuild
import KernelListing.Proofs.FlowGraph.ControlFlow

/-!
# Segments under other labels

A graph does not depend on how its labels are spelled: if each segment gets one label of its own,
and each branch goes by the new label of its target, then the segments make a graph with the same
edges (`edges_relabel`). The instructions may change as well, as long as control takes the same
ways through them.
-/

namespace KernelListing

/-- Control takes the same ways through one instruction as through another. -/
structure Instruction.FlowsLike (i' i : Instruction) : Prop where
  opcode : i'.opcode = i.opcode
  alwaysTrue : i'.guard.isAlwaysTrue = i.guard.isAlwaysTrue
  alwaysFalse : i'.guard.isAlwaysFalse = i.guard.isAlwaysFalse

theorem Instruction.FlowsLike.goesOn {i' i : Instruction} (h : i'.FlowsLike i) :
    i'.goesOn = i.goesOn := by
  simp [Instruction.goesOn, h.opcode, h.alwaysTrue]

theorem Instruction.renameDestination_self (i : Instruction) :
    i.renameDestination i.d.name = i := by
  obtain ⟨opcode, modifiers, type, ⟨⟩, a, b, c, guard, q⟩ := i
  rfl

namespace FlowGraph

/-- The segments with one label each, and with other instructions. -/
def relabel (label : BlockId → String) (f : Instruction → Instruction) (ss : List Segment) :
    List Segment :=
  (numbered ss).map fun (s, id) =>
    { s with labels := [label id], instructions := s.instructions.map f }

section relabel

variable {label : BlockId → String} {f : Instruction → Instruction}

theorem relabel_concat (ss : List Segment) (s : Segment) :
    relabel label f (ss ++ [s]) = relabel label f ss ++
      [{ s with labels := [label (ss.length + 2)], instructions := s.instructions.map f }] := by
  rw [relabel, numbered_concat, List.map_append]
  rfl

@[simp] theorem length_relabel (ss : List Segment) : (relabel label f ss).length = ss.length := by
  simp [relabel, numbered]

theorem getElem?_relabel (ss : List Segment) (k : Nat) :
    (relabel label f ss)[k]? = ss[k]?.map fun s =>
      { s with labels := [label (k + 2)], instructions := s.instructions.map f } := by
  simp only [relabel, numbered, List.getElem?_map, List.getElem?_zipIdx, Option.map_map,
    Function.comp_def, Nat.add_comm 2 k]

theorem numbered_relabel (ss : List Segment) : numbered (relabel label f ss) =
    (numbered ss).map fun (s, id) =>
      ({ s with labels := [label id], instructions := s.instructions.map f }, id) := by
  induction ss using List.reverseRecOn with
  | nil => rfl
  | append_singleton ss s ih =>
    rw [relabel_concat, numbered_concat, numbered_concat, ih, List.map_append, length_relabel]
    rfl

theorem mem_relabel {ss : List Segment} {s' : Segment} : s' ∈ relabel label f ss ↔
    ∃ (k : Nat) (s : Segment), ss[k]? = some s ∧
      s' = { s with labels := [label (k + 2)], instructions := s.instructions.map f } := by
  simp only [List.mem_iff_getElem?, getElem?_relabel, Option.map_eq_some_iff]
  simp only [eq_comm]

theorem flatMap_labels_relabel (ss : List Segment) :
    (relabel label f ss).flatMap (·.labels) = (List.range' 2 ss.length).map label := by
  induction ss using List.reverseRecOn with
  | nil => rfl
  | append_singleton ss s ih =>
    rw [relabel_concat, List.flatMap_append, ih, List.length_append, List.length_singleton,
      List.range'_1_concat, List.map_append, Nat.add_comm 2 ss.length]
    rfl

variable (hf : ∀ i, (f i).FlowsLike i)

include hf

theorem transfers_map (s : Segment) (labels : List String) : Segment.transfers
    { s with labels, instructions := s.instructions.map f } = s.transfers := by
  unfold Segment.transfers
  rw [List.getLast?_map]
  cases s.instructions.getLast? with
  | none => rfl
  | some i => simp [(hf i).opcode]

theorem exits_map {s : Segment} {labels : List String} : Segment.exits
    { s with labels, instructions := s.instructions.map f } = s.exits := by
  unfold Segment.exits
  rw [List.getLast?_map]
  cases s.instructions.getLast? with
  | none => rfl
  | some i => simp [(hf i).opcode]

theorem edges_map {s : Segment} {labels : List String} (id : BlockId) : Segment.edges id
    { s with labels, instructions := s.instructions.map f } = s.edges id := by
  unfold Segment.edges Segment.entering Segment.leaving
  rw [List.getLast?_map]
  cases s.instructions.getLast? with
  | none => rfl
  | some i =>
    simp only [Option.map_some, (hf i).opcode]
    rfl

theorem closed_map {s : Segment} (h : s.Closed) (labels : List String) :
    Segment.Closed { s with labels, instructions := s.instructions.map f } := by
  constructor
  · simpa using h.ne_nil
  · intro i hi
    rw [← List.map_dropLast] at hi
    obtain ⟨i₀, hi₀, rfl⟩ := List.mem_map.1 hi
    rw [(hf i₀).opcode]
    exact h.plain i₀ hi₀
  · intro i hi
    obtain ⟨i₀, hi₀, rfl⟩ := List.mem_map.1 hi
    rw [(hf i₀).opcode]
    exact h.no_call i₀ hi₀

theorem lastBehind_relabel (ss : List Segment) :
    (lastBehind (relabel label f ss)).all (·.goesOn) = (lastBehind ss).all (·.goesOn) := by
  induction ss using List.reverseRecOn with
  | nil => rfl
  | append_singleton ss s =>
    rw [relabel_concat, Outline.lastBehind_concat, Outline.lastBehind_concat, List.getLast?_map]
    cases s.instructions.getLast? with
    | none => rfl
    | some i => exact (hf i).goesOn

theorem linked_relabel {ss : List Segment} (h : Linked ss) : Linked (relabel label f ss) := by
  induction ss using List.reverseRecOn with
  | nil => exact nofun
  | append_singleton ss s ih =>
    obtain ⟨hinit, hlast⟩ := linked_concat.1 h
    rw [relabel_concat]
    refine linked_concat.2 ⟨ih hinit, ?_⟩
    rw [lastBehind_relabel hf]
    exact hlast

theorem edgesOf_relabel (ss : List Segment) : edgesOf (relabel label f ss) = edgesOf ss := by
  induction ss using List.reverseRecOn with
  | nil => rfl
  | append_singleton ss s ih =>
    rw [relabel_concat, edgesOf_concat, edgesOf_concat, ih, edges_map hf, length_relabel]

theorem any_exits_relabel (ss : List Segment) :
    (relabel label f ss).any Segment.exits = ss.any Segment.exits := by
  induction ss using List.reverseRecOn with
  | nil => rfl
  | append_singleton ss s ih =>
    rw [relabel_concat, List.any_append, List.any_append, ih]
    simp [exits_map hf]

theorem length_closed_settle_relabel (ss : List Segment) :
    (settle (relabel label f ss)).closed.length = (settle ss).closed.length := by
  induction ss using List.reverseRecOn with
  | nil => rfl
  | append_singleton ss s =>
    have hmap := transfers_map hf s [label (ss.length + 2)]
    rw [relabel_concat]
    cases htransfers : s.transfers with
    | true =>
      rw [settle_of_transfers _ (hmap.trans htransfers), settle_of_transfers _ htransfers]
      simp
    | false =>
      rw [settle_of_not_transfers _ (hmap.trans htransfers), settle_of_not_transfers _ htransfers]
      exact length_relabel ss

theorem pairwise_exits_relabel {ss : List Segment}
    (h : ss.Pairwise fun s s' => ¬ (s.exits = true ∧ s'.exits = true)) :
    (relabel label f ss).Pairwise fun s s' => ¬ (s.exits = true ∧ s'.exits = true) := by
  induction ss using List.reverseRecOn with
  | nil => exact .nil
  | append_singleton ss s ih =>
    obtain ⟨hinit, -, hlast⟩ := List.pairwise_append.1 h
    rw [relabel_concat, List.pairwise_append]
    refine ⟨ih hinit, List.pairwise_singleton _ _, fun s' hs' s'' hs'' => ?_⟩
    obtain ⟨k, s₀, hs₀, rfl⟩ := mem_relabel.1 hs'
    rw [List.mem_singleton.1 hs'', exits_map hf, exits_map hf]
    exact hlast s₀ (List.mem_of_getElem? hs₀) s (List.mem_singleton_self s)

end relabel

/-! ## The segments of an outline -/

section outline

variable {ss : List Statement} {o : Outline} (h : outline ss = .ok o)

include h

theorem room_outline : o.closed.length + 2 < idLimit := by
  refine outline_induction (motive := fun _ o => o.closed.length + 2 < idLimit) (by decide)
    (fun ss s o o' _ ih ht => ?_) h
  cases ht with
  | labelHere => exact ih
  | labelNext _ _ hroom =>
    rw [Outline.length_segments]
    exact hroom
  | plain => exact ih
  | transfer _ _ _ hroom =>
    rw [Outline.length_segments]
    exact hroom
  | declaration => exact ih

theorem pairwise_exits_closed :
    o.closed.Pairwise fun s s' => ¬ (s.exits = true ∧ s'.exits = true) := by
  refine outline_induction
    (motive := fun _ o => o.closed.Pairwise fun s s' => ¬ (s.exits = true ∧ s'.exits = true))
    .nil (fun ss s o o' ho ih ht => ?_) h
  cases ht with
  | labelHere => exact ih
  | labelNext hne =>
    obtain ⟨i, hlast, hplain⟩ := (outline_sound ho).exists_last hne
    refine List.pairwise_append.2 ⟨ih, List.pairwise_singleton _ _, fun s _ s' hs' hexits => ?_⟩
    rw [List.mem_singleton.1 hs', Segment.exits_of_last hlast] at hexits
    exact Segment.ne_of_plain hplain .exit rfl (of_decide_eq_true hexits.2)
  | plain => exact ih
  | @transfer i _ _ hexit =>
    refine List.pairwise_append.2 ⟨ih, List.pairwise_singleton _ _, fun s hs s' hs' hexits => ?_⟩
    have hlast : (o.push i).last.instructions.getLast? = some i := List.getLast?_concat
    rw [List.mem_singleton.1 hs'] at hexits
    have hop := of_decide_eq_true ((Segment.exits_of_last hlast).symm.trans hexits.2)
    have hnone := List.any_eq_false.1 (hexit hop) s hs
    exact hnone hexits.1
  | declaration => exact ih

theorem filled_cases : o.filled = o.closed ∨
    o.filled = o.closed ++ [o.last] ∧ o.last.transfers = false ∧ o.last.exits = false := by
  unfold Outline.filled
  cases hempty : o.last.instructions.isEmpty with
  | true => exact .inl rfl
  | false =>
    have hne : o.last.instructions ≠ [] := by simpa using hempty
    obtain ⟨i, hlast, hplain⟩ := (outline_sound h).exists_last hne
    refine .inr ⟨rfl, ?_, ?_⟩
    · rw [Segment.transfers, hlast]
      exact hplain
    · rw [Segment.exits_of_last hlast]
      exact decide_eq_false (Segment.ne_of_plain hplain .exit rfl)

/-- The filled segments are found again under labels of their own. -/
theorem written_relabel {label : BlockId → String} {f : Instruction → Instruction}
    (hf : ∀ i, (f i).FlowsLike i)
    (hdistinct : ((List.range' 2 o.filled.length).map label).Nodup) :
    Written (relabel label f o.filled) := by
  have hroom := room_outline h
  have hexits := pairwise_exits_closed h
  constructor
  · intro s hs
    obtain ⟨k, s₀, hs₀, rfl⟩ := mem_relabel.1 hs
    exact closed_map hf ((outline_sound h).closed_of_getElem? hs₀) _
  · intro s hs
    obtain ⟨k, s₀, -, rfl⟩ := mem_relabel.1 hs
    exact ⟨_, rfl⟩
  · exact linked_relabel hf (outline_sound h).linked_filled
  · rwa [flatMap_labels_relabel]
  · refine pairwise_exits_relabel hf ?_
    rcases filled_cases h with hfilled | ⟨hfilled, -, hlast⟩
    · rwa [hfilled]
    · rw [hfilled, List.pairwise_append]
      refine ⟨hexits, List.pairwise_singleton _ _, fun s _ s' hs' hboth => ?_⟩
      rw [List.mem_singleton.1 hs', hlast] at hboth
      cases hboth.2
  · rw [length_closed_settle_relabel hf]
    rcases filled_cases h with hfilled | ⟨hfilled, htransfers, -⟩
    · rw [hfilled]
      exact Nat.lt_of_le_of_lt (Nat.add_le_add_right (length_closed_settle _) 2) hroom
    · rw [hfilled, settle_of_not_transfers _ htransfers]
      exact hroom

end outline

/-! ## Branches -/

/-- The branches that some segments end with, each with its target and whether it is dead. -/
def resolved (ss : List Segment) : List (BlockId × Option BlockId × Bool) :=
  (branchesOf ss).map fun b => (b.origin, (namesOf ss).lookup b.target, b.dead)

theorem branchEdgesOf_eq (ss : List Segment) :
    branchEdgesOf ss ss = (resolved ss).filterMap fun (head, tail, dead) =>
      if dead then none else tail.map fun id => ⟨head, id, .branch⟩ := by
  rw [branchEdgesOf, resolved, List.filterMap_map]
  rfl

theorem dangling?_eq_none_iff {ss : List Segment} :
    dangling? ss ss = none ↔ ∀ r ∈ resolved ss, r.2.1.isSome = true := by
  simp [dangling?, resolved]

/-- Each branch goes by the new label of its target. -/
def Retargets (label : BlockId → String) (f : Instruction → Instruction) (ss : List Segment) :
    Prop :=
  ∀ s ∈ ss, ∀ i ∈ s.instructions, i.opcode = .bra →
    ∃ id, (namesOf ss).lookup i.d.name = some id ∧ (f i).d.name = label id

section branches

variable {ss : List Segment} {label : BlockId → String} {f : Instruction → Instruction}
  (hf : ∀ i, (f i).FlowsLike i)
  (hdistinct : ((relabel label f ss).flatMap (·.labels)).Nodup) (h : Retargets label f ss)

include hdistinct in
theorem lookup_relabel {l : String} {id : BlockId} (hid : (namesOf ss).lookup l = some id) :
    (namesOf (relabel label f ss)).lookup (label id) = some id := by
  obtain ⟨k, s, rfl, hs, -⟩ := exists_of_lookup_namesOf hid
  have hs' : (relabel label f ss)[k]? =
      some { s with labels := [label (k + 2)], instructions := s.instructions.map f } := by
    rw [getElem?_relabel, hs, Option.map_some]
  exact (lookup_namesOf_iff hdistinct).2 ⟨_, hs', List.mem_singleton_self _⟩

include hf hdistinct h

theorem openBranch?_relabel {k : Nat} {s : Segment} (hs : ss[k]? = some s) :
    (Segment.openBranch? (k + 2)
        { s with labels := [label (k + 2)], instructions := s.instructions.map f }).map
      (fun b => (b.origin, (namesOf (relabel label f ss)).lookup b.target, b.dead)) =
    (s.openBranch? (k + 2)).map fun b => (b.origin, (namesOf ss).lookup b.target, b.dead) := by
  cases hlast : s.instructions.getLast? with
  | none => simp [Segment.openBranch?, hlast]
  | some i =>
    by_cases hop : i.opcode = .bra
    · obtain ⟨id, hlookup, hname⟩ := h s (List.mem_of_getElem? hs) i (List.mem_of_getLast? hlast) hop
      have hlast' : (s.instructions.map f).getLast? = some (f i) := by
        rw [List.getLast?_map, hlast]
        rfl
      rw [Segment.openBranch?_of_bra hlast hop, Segment.openBranch?_of_bra
        (s := { s with labels := [label (k + 2)], instructions := s.instructions.map f }) hlast'
        ((hf i).opcode.trans hop)]
      simp only [Option.map_some, hname, lookup_relabel hdistinct hlookup, hlookup,
        (hf i).alwaysFalse]
    · simp [Segment.openBranch?, hlast, Option.filter, (hf i).opcode, hop]

/-- The branches go to the same blocks. -/
theorem resolved_relabel : resolved (relabel label f ss) = resolved ss := by
  rw [resolved, resolved, branchesOf, branchesOf, numbered_relabel, List.filterMap_map,
    List.map_filterMap, List.map_filterMap]
  exact List.filterMap_congr (forall_mem_numbered.2 fun k s hs =>
    openBranch?_relabel hf hdistinct h hs)

theorem branchEdgesOf_relabel :
    branchEdgesOf (relabel label f ss) (relabel label f ss) = branchEdgesOf ss ss := by
  rw [branchEdgesOf_eq, branchEdgesOf_eq, resolved_relabel hf hdistinct h]

theorem dangling?_relabel (hnone : dangling? ss ss = none) :
    dangling? (relabel label f ss) (relabel label f ss) = none := by
  rw [dangling?_eq_none_iff] at hnone ⊢
  rwa [resolved_relabel hf hdistinct h]

theorem redirect_relabel :
    (relabel label f ss).map (Segment.redirect (relabel label f ss)) = relabel label f ss := by
  refine (List.map_congr_left fun s' hs' => ?_).trans (List.map_id _)
  obtain ⟨k, s, hs, rfl⟩ := mem_relabel.1 hs'
  have hinstructions : (s.instructions.map f).map (redirect (relabel label f ss)) =
      s.instructions.map f := by
    refine (List.map_congr_left fun i' hi' => ?_).trans (List.map_id _)
    obtain ⟨i, hi, rfl⟩ := List.mem_map.1 hi'
    by_cases hop : i.opcode = .bra
    · obtain ⟨id, hlookup, hname⟩ := h s (List.mem_of_getElem? hs) i hi hop
      obtain ⟨k', s', rfl, hs', -⟩ := exists_of_lookup_namesOf hlookup
      have hland : landing (relabel label f ss) (f i).d.name = (f i).d.name := by
        rw [hname, landing_of_lookup (lookup_relabel hdistinct hlookup)
          (by rw [getElem?_relabel, hs']; rfl)]
        rfl
      rw [redirect, if_pos ((hf i).opcode.trans hop), hland, Instruction.renameDestination_self]
      rfl
    · rw [redirect, if_neg (by rwa [(hf i).opcode])]
      rfl
  rw [Segment.redirect, hinstructions]
  rfl

end branches

/-! ## The graph -/

section graph

variable {ss : List Statement} {o : Outline} (ho : outline ss = .ok o)
  {label : BlockId → String} {f : Instruction → Instruction} (hf : ∀ i, (f i).FlowsLike i)
  (hdistinct : ((List.range' 2 o.filled.length).map label).Nodup)

include ho hf hdistinct

theorem filled_settle_relabel :
    (settle (relabel label f o.filled)).filled = relabel label f o.filled :=
  filled_settle (written_relabel ho hf hdistinct).closed

variable (h : Retargets label f o.filled)

include h

theorem edges_relabel : (settle (relabel label f o.filled)).graph.edges = o.graph.edges := by
  have hwritten := written_relabel ho hf hdistinct
  rw [edges_graph, edges_graph, filled_settle_relabel ho hf hdistinct, edgesOf_relabel hf,
    branchEdgesOf_relabel hf hwritten.distinct h]

theorem block?_relabel (k : Nat) : (settle (relabel label f o.filled)).graph.block? (k + 2) =
    o.filled[k]?.map fun s =>
      { id := k + 2, label := label (k + 2), instructions := s.instructions.map f } := by
  have hwritten := written_relabel ho hf hdistinct
  have hblock : ∀ s : Option Segment, (s.map fun s =>
      (s.redirect (relabel label f o.filled)).block (k + 2)) =
        (s.map (Segment.redirect (relabel label f o.filled))).map (·.block (k + 2)) := by
    intro s
    rw [Option.map_map]
    rfl
  rw [Outline.block?_graph, filled_settle_relabel ho hf hdistinct, hblock, ← List.getElem?_map,
    redirect_relabel hf hwritten.distinct h, getElem?_relabel, Option.map_map]
  rfl

theorem blocks_relabel : (settle (relabel label f o.filled)).graph.blocks =
    FlowGraph.empty.blocks ++ (numbered o.filled).map fun (s, id) =>
      { id, label := label id, instructions := s.instructions.map f } := by
  have hwritten := written_relabel ho hf hdistinct
  have hblocks : ∀ ss : List Segment, ((numbered ss).map fun (s, id) => (s.redirect ss).block id) =
      (numbered (ss.map (Segment.redirect ss))).map fun (s, id) => s.block id := by
    intro ss
    rw [numbered, numbered, List.zipIdx_map, List.map_map]
    rfl
  rw [Outline.blocks_graph, filled_settle_relabel ho hf hdistinct, hblocks,
    redirect_relabel hf hwritten.distinct h, numbered_relabel, List.map_map]
  rfl

/-- The graph of the segments under other labels. -/
theorem ofStatements_relabel (hexit : o.filled.any Segment.exits = true)
    (hnone : dangling? o.filled o.filled = none) {declarations : List Statement}
    (hdeclarations : ∀ s ∈ declarations, (∀ l, s ≠ .label l) ∧ s.instruction? = none) :
    ofStatements (declarations ++ written (relabel label f o.filled)) =
      .ok (settle (relabel label f o.filled)).graph := by
  have hwritten := written_relabel ho hf hdistinct
  refine ofStatements_eq_ok_iff.2 ⟨_, outline_written hwritten hdeclarations, ?_, ?_, rfl⟩
  · rw [filled_settle_relabel ho hf hdistinct, any_exits_relabel hf, hexit]
  · rw [filled_settle_relabel ho hf hdistinct]
    exact dangling?_relabel hf hwritten.distinct h hnone

end graph

end FlowGraph

end KernelListing
