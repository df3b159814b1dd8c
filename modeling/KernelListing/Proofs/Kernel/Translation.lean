import KernelListing.Proofs.FlowGraph.Relabel
import KernelListing.Proofs.Kernel.Canonical

/-!
# Graphs do not depend on names

A `Translation` gives the labels other names, by which they are told apart as before, and puts other
instructions in the places of those that there are, through which control takes the same ways. To
take a translated statement into a translated outline is to translate the step
(`Outline.step_translate`). So the graph of the translated statements is the translated graph, and
where there is none, the error is the same up to the name of the label in it
(`ofStatements_translate`).
-/

namespace KernelListing

/-- The error under another name for the label in it. -/
def BuildError.renameLabel (s : String → String) : BuildError → BuildError
  | duplicateLabel label statement => duplicateLabel (s label) statement
  | undefinedLabel label => undefinedLabel (s label)
  | e => e

/-- Other names for labels, and other instructions that control takes the same ways through. -/
structure Translation where
  label : String → String
  instruction : Instruction → Instruction
  label_injective : Function.Injective label
  flowsLike : ∀ i, (instruction i).FlowsLike i

namespace Translation

variable (t : Translation)

/-- A statement in translation. Declarations stay as they are. -/
def statement : Statement → Statement
  | .label l => .label (t.label l)
  | .instruction i => .instruction (t.instruction i)
  | s => s

/-- An answer in translation, where `f` translates what is asked for. -/
def answer {α : Type} (f : α → α) : Except BuildError α → Except BuildError α
  | .ok a => .ok (f a)
  | .error e => .error (e.renameLabel t.label)

/-- A branch under another name is translated as the branch, under the translated name. -/
def Follows (is : List Instruction) : Prop :=
  ∀ i ∈ is, i.opcode = .bra → ∀ name,
    t.instruction (i.renameDestination name) = (t.instruction i).renameDestination (t.label name)

/-- A block in translation. The entry and exit blocks bear no label of a statement, and neither does
a block whose label is empty. -/
def block (b : Block) : Block where
  id := b.id
  label := if FlowGraph.isInner b && ! b.label.isEmpty then t.label b.label else b.label
  comment := b.comment
  instructions := b.instructions.map t.instruction

/-- Steps that can be translated one by one can be translated together. -/
theorem answer_bind {α β : Type} {f : α → α} {g : β → β} (x : Except BuildError α)
    {h h' : α → Except BuildError β} (hstep : ∀ a, x = .ok a → h' (f a) = t.answer g (h a)) :
    (t.answer f x >>= h') = t.answer g (x >>= h) := by
  cases x with
  | error e => rfl
  | ok a => exact hstep a rfl

theorem Follows.name {is : List Instruction} (h : t.Follows is) {i : Instruction} (hi : i ∈ is)
    (hop : i.opcode = .bra) : (t.instruction i).d.name = t.label i.d.name := by
  have hself := h i hi hop i.d.name
  rw [i.renameDestination_self] at hself
  rw [hself]
  rfl

theorem Follows.mono {is is' : List Instruction} (h : t.Follows is) (hsub : is' ⊆ is) :
    t.Follows is' :=
  fun i hi => h i (hsub hi)

end Translation

theorem Kernel.ofDeclarations_translate (t : Translation) (ss : List Statement) :
    ofDeclarations (ss.map t.statement) = ofDeclarations ss := by
  rw [ofDeclarations, ofDeclarations, List.foldl_map]
  congr 1
  funext k s
  cases s <;> rfl

namespace FlowGraph

def Segment.translate (t : Translation) (s : Segment) : Segment :=
  { s with labels := s.labels.map t.label, instructions := s.instructions.map t.instruction }

def Outline.translate (t : Translation) (o : Outline) : Outline where
  closed := o.closed.map (Segment.translate t)
  last := o.last.translate t

variable (t : Translation)

/-! ## The scan -/

namespace Outline

theorem segments_translate (o : Outline) :
    (o.translate t).segments = o.segments.map (Segment.translate t) := by
  rw [segments, segments, List.map_append]
  rfl

theorem current_translate (o : Outline) : (o.translate t).current = o.current := by
  rw [current, current, translate, List.length_map]

theorem labels_translate (o : Outline) : (o.translate t).labels = o.labels.map t.label := by
  rw [labels, labels, segments_translate, List.flatMap_map, List.map_flatMap]
  rfl

theorem mem_labels_translate {o : Outline} {l : String} :
    t.label l ∈ (o.translate t).labels ↔ l ∈ o.labels := by
  rw [labels_translate, List.mem_map_of_injective t.label_injective]

theorem any_exits_translate (ss : List Segment) :
    (ss.map (Segment.translate t)).any Segment.exits = ss.any Segment.exits := by
  rw [List.any_map]
  congr 1
  funext s
  exact exits_map t.flowsLike

theorem close_translate (o : Outline) (entered : Bool) :
    (o.translate t).close entered = t.answer (translate t) (o.close entered) := by
  unfold close
  rw [current_translate, segments_translate]
  split <;> rfl

theorem closeForLabel_translate (o : Outline) :
    (o.translate t).closeForLabel = t.answer (translate t) o.closeForLabel := by
  have hempty : (o.translate t).last.instructions.isEmpty = o.last.instructions.isEmpty :=
    List.isEmpty_map
  unfold closeForLabel
  rw [hempty, close_translate]
  split <;> rfl

theorem name_translate (o : Outline) (l : String) :
    (o.translate t).name (t.label l) = (o.name l).translate t := by
  simp [name, translate, Segment.translate]

theorem push_translate (o : Outline) (i : Instruction) :
    (o.translate t).push (t.instruction i) = (o.push i).translate t := by
  simp [push, translate, Segment.translate]

theorem stepLabel_translate (o : Outline) (l : String) (n : Nat) :
    (o.translate t).stepLabel (t.label l) n = t.answer (translate t) (o.stepLabel l n) := by
  unfold stepLabel
  rw [closeForLabel_translate]
  refine t.answer_bind _ fun o' _ => ?_
  rw [name_translate]
  by_cases hl : l ∈ o'.labels
  · rw [if_pos hl, if_pos ((mem_labels_translate t).2 hl)]
    rfl
  · rw [if_neg hl, if_neg (mt (mem_labels_translate t).1 hl)]
    rfl

theorem stepInstruction_translate (o : Outline) (i : Instruction) (n : Nat) :
    (o.translate t).stepInstruction (t.instruction i) n =
      t.answer (translate t) (o.stepInstruction i n) := by
  have hop : (t.instruction i).opcode = i.opcode := (t.flowsLike i).opcode
  have hexits : (o.translate t).closed.any Segment.exits = o.closed.any Segment.exits :=
    any_exits_translate t o.closed
  unfold stepInstruction
  rw [hop, hexits, (t.flowsLike i).goesOn, push_translate, close_translate]
  split
  · rfl
  · split
    · rfl
    · split <;> rfl

/-- To take a translated statement is to translate the step. -/
theorem step_translate (o : Outline) (s : Statement) (n : Nat) :
    (o.translate t).step (t.statement s, n) = t.answer (translate t) (o.step (s, n)) := by
  cases s with
  | label l => exact stepLabel_translate t o l n
  | instruction i => exact stepInstruction_translate t o i n
  | parameter p => rfl
  | localVariable v => rfl
  | sharedVariable v => rfl
  | entry name => rfl

end Outline

theorem outline_translate (ss : List Statement) :
    outline (ss.map t.statement) = t.answer (Outline.translate t) (outline ss) := by
  induction ss using List.reverseRecOn with
  | nil => rfl
  | append_singleton ss s ih =>
    rw [List.map_append, List.map_singleton, outline_concat, outline_concat, ih, List.length_map]
    exact t.answer_bind _ fun o _ => o.step_translate t s ss.length

/-! ## Names and branches -/

theorem numbered_translate (ss : List Segment) : numbered (ss.map (Segment.translate t)) =
    (numbered ss).map fun (s, id) => (s.translate t, id) := by
  rw [numbered, numbered, List.zipIdx_map]
  rfl

theorem edgesOf_translate (ss : List Segment) :
    edgesOf (ss.map (Segment.translate t)) = edgesOf ss := by
  rw [edgesOf, edgesOf, numbered_translate, List.flatMap_map]
  exact List.flatMap_congr fun p _ => edges_map t.flowsLike p.2

theorem namesOf_translate (ss : List Segment) : namesOf (ss.map (Segment.translate t)) =
    (namesOf ss).map (Prod.map t.label id) := by
  rw [namesOf, namesOf, numbered_translate, List.map_reverse, List.flatMap_map, List.map_flatMap]
  congr 1
  refine List.flatMap_congr fun p _ => ?_
  simp [Segment.names, Segment.translate, Function.comp_def]

theorem lookup_map_injective {α : Type} {s : String → String} (hs : Function.Injective s)
    (l : List (String × α)) (key : String) :
    (l.map (Prod.map s id)).lookup (s key) = l.lookup key := by
  induction l with
  | nil => rfl
  | cons e l ih =>
    have hkey : (s key == s e.1) = (key == e.1) := by
      rw [Bool.eq_iff_iff, beq_iff_eq, beq_iff_eq, hs.eq_iff]
    rw [List.map_cons, Prod.map, List.lookup_cons, List.lookup_cons, hkey, ih]
    rfl

theorem lookup_namesOf_translate (ss : List Segment) (l : String) :
    (namesOf (ss.map (Segment.translate t))).lookup (t.label l) = (namesOf ss).lookup l := by
  rw [namesOf_translate, lookup_map_injective t.label_injective]

theorem label_translate (s : Segment) :
    (s.translate t).label = if s.labels = [] then "" else t.label s.label := by
  rw [Segment.label, Segment.translate, List.getLast?_map, Segment.label]
  split
  · next h => rw [h]; rfl
  · next h => rw [List.getLast?_eq_some_getLast h]; rfl

def OpenBranch.translate (b : OpenBranch) : OpenBranch := { b with target := t.label b.target }

section branches

variable {t} {ss : List Segment}

theorem openBranch?_translate {s : Segment} (h : t.Follows s.instructions) (id : BlockId) :
    (s.translate t).openBranch? id = (s.openBranch? id).map (OpenBranch.translate t) := by
  rw [Segment.openBranch?, Segment.openBranch?, Segment.translate, List.getLast?_map]
  cases hlast : s.instructions.getLast? with
  | none => rfl
  | some i =>
    have hop : (t.instruction i).opcode = i.opcode := (t.flowsLike i).opcode
    by_cases hbra : i.opcode = .bra
    · simp [Option.filter, hop, hbra, OpenBranch.translate, (t.flowsLike i).alwaysFalse,
        h.name t (List.mem_of_getLast? hlast) hbra]
    · simp [Option.filter, hop, hbra]

variable (h : t.Follows (ss.flatMap (·.instructions)))

include h

theorem branchesOf_translate :
    branchesOf (ss.map (Segment.translate t)) = (branchesOf ss).map (OpenBranch.translate t) := by
  rw [branchesOf, branchesOf, numbered_translate, List.filterMap_map, List.map_filterMap]
  refine List.filterMap_congr fun p hp => openBranch?_translate (h.mono t fun i hi => ?_) p.2
  exact List.mem_flatMap.2 ⟨p.1, mem_of_mem_numbered hp, hi⟩

theorem dangling?_translate :
    dangling? (ss.map (Segment.translate t)) (ss.map (Segment.translate t)) =
      (dangling? ss ss).map (OpenBranch.translate t) := by
  rw [dangling?, dangling?, branchesOf_translate h, List.find?_map]
  congr 2
  funext b
  exact congrArg Option.isNone (lookup_namesOf_translate t ss b.target)

theorem branchEdgesOf_translate :
    branchEdgesOf (ss.map (Segment.translate t)) (ss.map (Segment.translate t)) =
      branchEdgesOf ss ss := by
  rw [branchEdgesOf, branchEdgesOf, branchesOf_translate h, List.filterMap_map]
  refine List.filterMap_congr fun b _ => ?_
  simp only [Function.comp_apply, branchEdge?, OpenBranch.translate, lookup_namesOf_translate]

variable (hclosed : ∀ s ∈ ss, s.Closed) (hnone : dangling? ss ss = none)

include hclosed hnone

theorem redirect_translate {s : Segment} (hs : s ∈ ss) {i : Instruction}
    (hi : i ∈ s.instructions) :
    redirect (ss.map (Segment.translate t)) (t.instruction i) = t.instruction (redirect ss i) := by
  have hop : (t.instruction i).opcode = i.opcode := (t.flowsLike i).opcode
  by_cases hbra : i.opcode = .bra
  · obtain ⟨k, hk⟩ := List.mem_iff_getElem?.1 hs
    obtain ⟨id, hlookup⟩ := exists_lookup_of_bra hclosed hnone hk hi hbra
    obtain ⟨k', s', rfl, hs', hl⟩ := exists_of_lookup_namesOf hlookup
    have hmem : i ∈ ss.flatMap (·.instructions) := List.mem_flatMap.2 ⟨s, hs, hi⟩
    have hland : landing (ss.map (Segment.translate t)) (t.label i.d.name) =
        t.label (landing ss i.d.name) := by
      rw [landing_of_lookup hlookup hs', landing_of_lookup (s := s'.translate t)
        ((lookup_namesOf_translate t ss _).trans hlookup) (by rw [List.getElem?_map, hs']; rfl),
        label_translate, if_neg (List.ne_nil_of_mem hl)]
    rw [redirect, redirect, if_pos hbra, if_pos (hop.trans hbra), h.name t hmem hbra, hland,
      h i hmem hbra]
  · rw [redirect, redirect, if_neg hbra, if_neg (by rwa [hop])]

theorem map_redirect_translate :
    (ss.map (Segment.translate t)).map (Segment.redirect (ss.map (Segment.translate t))) =
      (ss.map (Segment.redirect ss)).map (Segment.translate t) := by
  rw [List.map_map, List.map_map]
  refine List.map_congr_left fun s hs => ?_
  simp only [Function.comp_apply, Segment.redirect, Segment.translate, List.map_map]
  congr 1
  exact List.map_congr_left fun i hi => redirect_translate h hclosed hnone hs hi

end branches

/-! ## The graph -/

theorem filled_translate (o : Outline) :
    (o.translate t).filled = o.filled.map (Segment.translate t) := by
  have hempty : (o.translate t).last.instructions.isEmpty = o.last.instructions.isEmpty :=
    List.isEmpty_map
  unfold Outline.filled
  rw [hempty, Outline.segments_translate]
  split <;> rfl

section graph

variable {t}

theorem block_translate {s : Segment} (hlabels : "" ∈ s.labels → t.label "" = "") {id : BlockId}
    (hid : 2 ≤ id) : (s.translate t).block id = t.block (s.block id) := by
  have hinner : isInner (s.block id) = true := by
    simp only [isInner, Segment.block, FlowGraph.entry, FlowGraph.exit, Bool.and_eq_true,
      bne_iff_ne]
    exact ⟨Nat.ne_of_gt (Nat.lt_of_lt_of_le Nat.zero_lt_two hid), Nat.ne_of_gt hid⟩
  have hlabel : (s.translate t).label =
      if s.label.isEmpty then s.label else t.label s.label := by
    rw [label_translate]
    by_cases hnil : s.labels = []
    · simp [Segment.label, hnil]
    · have hmem := Segment.label_mem hnil
      rw [if_neg hnil]
      by_cases hempty : s.label = ""
      · rw [hempty] at hmem ⊢
        exact hlabels hmem
      · rw [if_neg (by simpa using hempty)]
  rw [Segment.block, hlabel, Translation.block, hinner, Bool.true_and]
  cases hempty : s.label.isEmpty <;> simp [Segment.block, Segment.translate, hempty]

theorem slotsOf_translate {ss : List Segment}
    (hlabels : ∀ s ∈ ss, "" ∈ s.labels → t.label "" = "") :
    slotsOf (ss.map (Segment.translate t)) = (slotsOf ss).map (Option.map t.block) := by
  rw [slotsOf, slotsOf, numbered_translate, List.map_append, List.map_map, List.map_map]
  congr 1
  refine List.map_congr_left (forall_mem_numbered.2 fun k s hs => ?_)
  exact congrArg some
    (block_translate (hlabels s (List.mem_of_getElem? hs)) (Nat.le_add_left 2 k))

theorem mapBlocks_padded (n : Nat) (g : FlowGraph) (f : Block → Block) :
    (g.padded n).mapBlocks f = (g.mapBlocks f).padded n := by
  simp [padded, mapBlocks]

theorem graph_translate {o : Outline} (hsound : o.Sound)
    (h : t.Follows (o.filled.flatMap (·.instructions)))
    (hlabels : ∀ s ∈ o.filled, "" ∈ s.labels → t.label "" = "")
    (hnone : dangling? o.filled o.filled = none) :
    (o.translate t).graph = o.graph.mapBlocks t.block := by
  have hredirected : ∀ s ∈ o.filled.map (Segment.redirect o.filled),
      "" ∈ s.labels → t.label "" = "" := by
    intro s hs
    obtain ⟨s', hs', rfl⟩ := List.mem_map.1 hs
    exact hlabels s' hs'
  rw [Outline.graph, Outline.graph, mapBlocks_padded, filled_translate,
    Outline.segments_translate, List.length_map, List.length_map, Outline.current_translate,
    edgesOf_translate, branchEdgesOf_translate h, map_redirect_translate h hsound.filled hnone,
    slotsOf_translate hredirected]
  rfl

theorem registerNames_translate (g : FlowGraph) : (g.mapBlocks t.block).registerNames =
    g.blocks.flatMap fun b => b.instructions.flatMap fun i => (t.instruction i).registerNames := by
  rw [registerNames, blocks_mapBlocks, List.flatMap_map]
  refine List.flatMap_congr fun b _ => ?_
  rw [Block.registerNames, Translation.block, List.flatMap_map]

/-- The graph of translated statements is the translated graph, and where there is none, the error
is the same up to the name in it. -/
theorem ofStatements_translate {ss : List Statement}
    (h : t.Follows (Statement.instructions ss))
    (hlabels : .label "" ∈ ss → t.label "" = "") :
    ofStatements (ss.map t.statement) =
      t.answer (fun g => g.mapBlocks t.block) (ofStatements ss) := by
  rw [ofStatements_eq, ofStatements_eq, outline_translate]
  refine t.answer_bind _ fun o ho => ?_
  have hsound := outline_sound ho
  -- The outline of the translated statements is sound as well, since it is one of statements.
  have hsound' := outline_sound ((outline_translate t ss).trans (congrArg _ ho))
  have hfollows : t.Follows (o.filled.flatMap (·.instructions)) := by
    rwa [instructions_filled ho]
  rw [Outline.finish_draft hsound, Outline.finish_draft hsound', filled_translate,
    Outline.any_exits_translate, dangling?_translate hfollows]
  split
  · cases hdangling : dangling? o.filled o.filled with
    | some b => rfl
    | none =>
      refine congrArg Except.ok (graph_translate hsound hfollows (fun s hs hl => ?_) hdangling)
      obtain ⟨k, hk⟩ := List.mem_iff_getElem?.1 hs
      exact hlabels (label_mem_of_filled ho hk hl)
  · rfl

end graph

end FlowGraph

end KernelListing
