import KernelListing.Proofs.Kernel.Listing

/-!
# The graph of a listing

The graph that is built from a listing consists of the same segments as the graph that was listed,
under the names on the label lines, and with the same numbers for the registers (`shows_relabel`),
if each predicate has a name. So it has the same lines again, except for comments.
-/

namespace KernelListing.FlowGraph

variable {g g' : FlowGraph} {ss : List Segment} {x : Labelling} {m : Numbering}

/-! ## Label lines as labels -/

/-- The labelling by the names on the label lines. -/
def Labelling.lines (x : Labelling) (used : List String) : Labelling where
  label := x.line used
  comment _ := ""

section lines

variable (hx : x.Proper ss) (haim : Aimed ss) (used : List String)

include hx haim

theorem retarget_lines {s : Segment} (hs : s ∈ ss) {i : Instruction} (hi : i ∈ s.instructions) :
    (x.lines used).retarget ss i = x.retarget ss i := by
  by_cases hop : i.opcode = .bra
  · obtain ⟨-, id, hlookup⟩ := haim s hs i hi hop
    obtain ⟨k, s', rfl, hs', hl⟩ := exists_of_lookup_namesOf hlookup
    rw [retarget_of_lookup hop hlookup, retarget_of_lookup hop hlookup]
    exact congrArg _ (line_of_ne_empty (hx.named k s' hs' (List.ne_nil_of_mem hl)))
  · rw [retarget_of_ne_bra hop, retarget_of_ne_bra hop]

theorem block_lines {s : Segment} (hs : s ∈ ss) (id : BlockId) :
    m.block ((x.lines used).block ss id s) =
      { m.block (x.block ss id s) with label := x.line used id, comment := "" } := by
  have hinstructions : s.instructions.map ((x.lines used).retarget ss) =
      s.instructions.map (x.retarget ss) :=
    List.map_congr_left fun i hi => retarget_lines hx haim used hs hi
  rw [Labelling.block, hinstructions]
  rfl

end lines

/-! ## Numbers of registers -/

/-- The registers of some segments, in the order in which they are numbered. -/
def scalarsOf (ss : List Segment) : List Operand :=
  (ss.flatMap (·.instructions)).flatMap Instruction.numberedScalars

theorem subset_scalarsOf {s : Segment} (hs : s ∈ ss) {i : Instruction} (hi : i ∈ s.instructions) :
    i.numberedScalars ⊆ scalarsOf ss := fun _ hop =>
  List.mem_flatMap.2 ⟨i, List.mem_flatMap.2 ⟨s, hs, hi⟩, hop⟩

theorem numberedScalars_retarget (haim : Aimed ss) {s : Segment} (hs : s ∈ ss) {i : Instruction}
    (hi : i ∈ s.instructions) : (x.retarget ss i).numberedScalars = i.numberedScalars := by
  unfold Labelling.retarget
  split
  · next hop => exact Instruction.numberedScalars_renameDestination (haim s hs i hi hop).1 _
  · rfl

/-- Each predicate that is written has a name. -/
def Named (ss : List Segment) : Prop :=
  ∀ s ∈ ss, ∀ i ∈ s.instructions, ∀ slot, i.operand slot ≠ .predicate ""

/-- With names for all predicates, a line is read with the names by their numbers. -/
theorem lineInstruction_eq (haim : Aimed ss) (hnamed : Named ss) {s : Segment} (hs : s ∈ ss)
    {i : Instruction} (hi : i ∈ s.instructions) :
    x.lineInstruction ss m i = m.spelledInstruction (x.retarget ss i) := by
  refine Numbering.rereadInstruction_eq fun slot => ?_
  unfold Labelling.retarget
  split
  · next hop =>
    rw [i.operand_renameDestination]
    split
    · -- The destination of a branch is no register at all.
      intro heq
      have hnumbered := congrArg Operand.isNumbered heq
      rw [show Operand.isNumbered { i.d with name := _ } = false from (haim s hs i hi hop).1]
        at hnumbered
      cases hnumbered
    · exact hnamed s hs i hi slot
  · exact hnamed s hs i hi slot

theorem instruction_lineInstruction (haim : Aimed ss) (hnamed : Named ss)
    (hpredicates : ∀ op ∈ scalarsOf ss, ∀ op' ∈ scalarsOf ss, op.name = op'.name →
      op.isPredicate = op'.isPredicate) {m' : Numbering}
    (hm : m = .ofNames ((scalarsOf ss).map (·.name)))
    (hm' : m' = .ofNames ((scalarsOf ss).map m.registerName)) {s : Segment} (hs : s ∈ ss)
    {i : Instruction} (hi : i ∈ s.instructions) :
    m'.instruction (x.lineInstruction ss m i) = m.instruction (x.retarget ss i) := by
  have hsubset : (x.retarget ss i).numberedScalars ⊆ scalarsOf ss := by
    rw [numberedScalars_retarget haim hs hi]
    exact subset_scalarsOf hs hi
  rw [hm', lineInstruction_eq haim hnamed hs hi, hm]
  exact Numbering.instruction_spelledInstruction hpredicates hsubset

theorem block_lineInstruction (hx : x.Proper ss) (haim : Aimed ss) (hnamed : Named ss)
    (hpredicates : ∀ op ∈ scalarsOf ss, ∀ op' ∈ scalarsOf ss, op.name = op'.name →
      op.isPredicate = op'.isPredicate) {m' : Numbering}
    (hm : m = .ofNames ((scalarsOf ss).map (·.name)))
    (hm' : m' = .ofNames ((scalarsOf ss).map m.registerName)) {s : Segment} (hs : s ∈ ss)
    (used : List String) (id : BlockId) :
    m'.block
        { id, label := x.line used id,
          instructions := s.instructions.map (x.lineInstruction ss m) } =
      m.block ((x.lines used).block ss id s) := by
  have hinstructions : (s.instructions.map (x.lineInstruction ss m)).map m'.instruction =
      (s.instructions.map (x.retarget ss)).map m.instruction := by
    rw [List.map_map, List.map_map]
    refine List.map_congr_left fun i hi => ?_
    rw [Function.comp_apply, Function.comp_apply,
      instruction_lineInstruction haim hnamed hpredicates hm hm' hs hi]
  rw [block_lines hx haim used hs]
  simp only [Numbering.block, Labelling.block, hinstructions]

theorem registerNames_eq {block : Segment × BlockId → Block} {name : Operand → String}
    (hblocks : g.blocks = FlowGraph.empty.blocks ++ (numbered ss).map block)
    (hnames : ∀ p ∈ numbered ss, (block p).registerNames =
      (p.1.instructions.flatMap Instruction.numberedScalars).map name) :
    g.registerNames = (scalarsOf ss).map name := by
  have hempty : FlowGraph.empty.blocks.flatMap Block.registerNames = [] := rfl
  have hsegments : (numbered ss).map Prod.fst = ss := List.zipIdx_map_fst 2 ss
  have hinner : (numbered ss).flatMap (fun p => (block p).registerNames) =
      (numbered ss).flatMap fun p =>
        (p.1.instructions.flatMap Instruction.numberedScalars).map name :=
    List.flatMap_congr hnames
  have hscalars : scalarsOf ss = (numbered ss).flatMap fun p =>
      p.1.instructions.flatMap Instruction.numberedScalars := by
    conv_lhs => rw [← hsegments]
    rw [scalarsOf, List.flatMap_assoc, List.flatMap_map]
  rw [registerNames, hblocks, List.flatMap_append, hempty, List.nil_append, List.flatMap_map,
    hinner, hscalars, List.map_flatMap]

theorem registerNames_graph {o : Outline} (haim : Aimed o.filled) :
    o.graph.registerNames = (scalarsOf o.filled).map (·.name) := by
  refine registerNames_eq o.blocks_graph fun p hp => ?_
  obtain ⟨s, id⟩ := p
  have hs := mem_of_mem_numbered hp
  simp only [Block.registerNames, Segment.redirect, Segment.block, List.flatMap_map, List.map_flatMap]
  refine List.flatMap_congr fun i hi => ?_
  rw [← retarget_ofSegments, Instruction.registerNames_eq, numberedScalars_retarget haim hs hi]

/-! ## The graph -/

section relabel

variable {statements : List Statement} {o : Outline} (ho : outline statements = .ok o)
  (hx : x.Proper o.filled) (haim : Aimed o.filled) (hnamed : Named o.filled)
  (hpredicates : ∀ op ∈ scalarsOf o.filled, ∀ op' ∈ scalarsOf o.filled, op.name = op'.name →
    op.isPredicate = op'.isPredicate)
  {used : List String} (hused : ∀ k < o.filled.length, x.label (k + 2) ∈ used)

include ho hx haim hnamed hused

theorem registerNames_relabel (m : Numbering) :
    (settle (relabel (x.line used) (x.lineInstruction o.filled m) o.filled)).graph.registerNames =
      (scalarsOf o.filled).map m.registerName := by
  refine registerNames_eq (blocks_relabel ho flowsLike_lineInstruction (nodup_line hx hused)
    (retargets_line hx haim used)) fun p hp => ?_
  obtain ⟨s, id⟩ := p
  have hs := mem_of_mem_numbered hp
  simp only [Block.registerNames, List.flatMap_map, List.map_flatMap]
  refine List.flatMap_congr fun i hi => ?_
  rw [lineInstruction_eq haim hnamed hs hi, Numbering.registerNames_spelledInstruction,
    numberedScalars_retarget haim hs hi]

include hpredicates

/-- The graph of a listing shows the segments that were listed. -/
theorem shows_relabel {m : Numbering} (hm : m = .ofNames o.graph.registerNames) {g : FlowGraph}
    (hg : g = (settle (relabel (x.line used) (x.lineInstruction o.filled m) o.filled)).graph) :
    (g.mapBlocks (Numbering.ofNames g.registerNames).block).Shows o.filled (x.lines used) m := by
  have hnames : g.registerNames = (scalarsOf o.filled).map m.registerName := by
    rw [hg, registerNames_relabel ho hx haim hnamed hused]
  rw [registerNames_graph haim] at hm
  -- Spelling the registers as lines do and numbering them again changes no number.
  have hblock := fun s (hs : s ∈ o.filled) id =>
    block_lineInstruction hx haim hnamed hpredicates hm rfl hs used id
  have hdistinct := nodup_line hx hused
  have hretargets := retargets_line (m := m) hx haim used
  rw [hnames]
  constructor
  · rw [← edges_graph, ← edges_relabel ho flowsLike_lineInstruction hdistinct hretargets, hg]
    rfl
  · rw [blocks_mapBlocks, hg, blocks_relabel ho flowsLike_lineInstruction hdistinct hretargets,
      List.map_append, List.map_map]
    congr 1
    refine List.map_congr_left fun p hp => ?_
    obtain ⟨s, id⟩ := p
    exact hblock s (mem_of_mem_numbered hp) id
  · rw [block?_mapBlocks, hg]
    rfl
  · rw [block?_mapBlocks, hg]
    rfl
  · intro k
    rw [block?_mapBlocks, hg, block?_relabel ho flowsLike_lineInstruction hdistinct hretargets]
    cases hs : o.filled[k]? with
    | none => rfl
    | some s => exact congrArg some (hblock s (List.mem_of_getElem? hs) (k + 2))

end relabel

/-! ## What it has in common -/

/-- The lines of a block depend on its label through the name on its label line. -/
theorem blockLines_congr {used used' : List String} {b b' : Block} {id : BlockId}
    (hne : b.instructions ≠ []) (hinstructions : b'.instructions = b.instructions)
    (hcomment : b'.comment = b.comment)
    (hline : Kernel.lineLabel used' b' id = Kernel.lineLabel used b id) :
    Kernel.blockLines used' b' id = Kernel.blockLines used b id := by
  have hneeds : Kernel.needsLabelLine b = true := by
    simp [Kernel.needsLabelLine, Block.isEmpty, hne]
  have hneeds' : Kernel.needsLabelLine b' = true := by
    simp [Kernel.needsLabelLine, Block.isEmpty, hinstructions, hne]
  have htext : b'.commentText = b.commentText := by
    rw [Block.commentText, Block.commentText, hcomment]
  rw [Kernel.blockLines, Kernel.blockLines, hneeds, hneeds', hline, htext, hinstructions]

section common

variable {used : List String} (h : g.Shows ss x m) (h' : g'.Shows ss (x.lines used) m)
  (hx : x.Proper ss) (haim : Aimed ss)

include h h' hx haim

theorem forall₂_blocks : List.Forall₂ (fun b b' => b'.id = b.id ∧
    b'.instructions = b.instructions ∧ (b.label ≠ "" → b'.label = b.label)) g.blocks g'.blocks := by
  rw [h.blocks, h'.blocks]
  refine List.rel_append (List.forall₂_same.2 fun b _ => ⟨rfl, rfl, fun _ => rfl⟩) ?_
  rw [List.forall₂_map_left_iff, List.forall₂_map_right_iff, List.forall₂_same]
  intro p hp
  obtain ⟨s, id⟩ := p
  have hs := mem_of_mem_numbered hp
  dsimp only
  rw [block_lines hx haim used hs]
  exact ⟨rfl, rfl, fun hne => line_of_ne_empty hne⟩

theorem flatMap_instructions_blocks :
    g'.blocks.flatMap (·.instructions) = g.blocks.flatMap (·.instructions) := by
  have hblocks := forall₂_blocks h h' hx haim
  generalize g.blocks = bs at hblocks
  generalize g'.blocks = bs' at hblocks
  induction hblocks with
  | nil => rfl
  | cons hb _ ih => rw [List.flatMap_cons, List.flatMap_cons, ih, hb.2.1]

/-- The lines of the blocks are the same again where there are no comments. -/
theorem graphLines_lines (hused : used = g.blocks.map (·.label)) (hlinked : Linked ss)
    (hclosed : ∀ s ∈ ss, s.Closed) (hcomment : ∀ id, x.comment id = "") :
    Kernel.graphLines g' = Kernel.graphLines g := by
  rw [graphLines_eq h hlinked, graphLines_eq h' hlinked, ← hused]
  refine List.flatMap_congr fun p hp => ?_
  obtain ⟨s, id⟩ := p
  have hs := mem_of_mem_numbered hp
  have hne : (m.block (x.block ss id s)).instructions ≠ [] := by
    simpa [Numbering.block, Labelling.block] using (hclosed s hs).ne_nil
  have hlabel : Kernel.lineLabel used (m.block (x.block ss id s)) id = x.line used id := rfl
  have hempty : (x.line used id).isEmpty = false := by
    have hname := isLabelName_line hx used id
    rw [String.isEmpty_eq_false_iff]
    intro hempty
    rw [hempty] at hname
    cases hname
  refine blockLines_congr hne ?_ ?_ ?_
  · rw [block_lines hx haim used hs]
  · exact (hcomment id).symm
  · rw [hlabel, block_lines hx haim used hs, Kernel.lineLabel]
    exact if_neg (by rw [hempty]; decide)

end common

end KernelListing.FlowGraph
