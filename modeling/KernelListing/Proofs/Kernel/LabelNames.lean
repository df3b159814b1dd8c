import Mathlib.Logic.Equiv.Basic
import KernelListing.Proofs.Kernel.Translation
import KernelListing.Proofs.Register.Names

/-!
# Canonical kernels do not depend on the names of labels

To rename the labels of some statements, such that no two of them get one name, is to rename them
throughout the graph of the kernel. Canonicalizing replaces them all, and so it makes the same
kernel of either, whose comments alone still tell what the labels were
(`canonicalize_renameLabels`). No new name is treated as special: labels may be exchanged, or take
the names of the entry block or of canonical labels.
-/

namespace KernelListing

/-- The instruction with another name for its destination, if it is a branch. -/
def Instruction.renameTarget (s : String → String) (i : Instruction) : Instruction :=
  if i.opcode = .bra then i.renameDestination (s i.d.name) else i

/-- The statement with another name for the label that it gives or goes to. -/
def Statement.renameLabels (s : String → String) : Statement → Statement
  | .label l => .label (s l)
  | .instruction i => .instruction (i.renameTarget s)
  | s => s

/-- The other name of a name, if that is not empty. -/
def renameNonempty (s : String → String) (name : String) : String :=
  if name.isEmpty then name else s name

/-- The block with another name in its comment, if it has one. -/
def Block.renameComment (s : String → String) (b : Block) : Block :=
  { b with comment := renameNonempty s b.comment }

theorem isEmpty_renameNonempty {s : String → String} (hne : ∀ l, l ≠ "" → s l ≠ "")
    (name : String) : (renameNonempty s name).isEmpty = name.isEmpty := by
  unfold renameNonempty
  cases h : name.isEmpty with
  | true => exact h
  | false => simpa using hne name (by simpa using h)

namespace Instruction

theorem renameTarget_congr {s s' : String → String} {i : Instruction}
    (h : i.opcode = .bra → s i.d.name = s' i.d.name) : i.renameTarget s = i.renameTarget s' := by
  unfold renameTarget
  split
  · next hop => rw [h hop]
  · rfl

theorem renameTarget_renameTarget (s s' : String → String) (i : Instruction) :
    (i.renameTarget s).renameTarget s' = i.renameTarget (s' ∘ s) := by
  by_cases hop : i.opcode = .bra <;> simp [renameTarget, renameDestination, hop]

theorem flowsLike_renameTarget (s : String → String) (i : Instruction) :
    (i.renameTarget s).FlowsLike i := by
  unfold renameTarget
  split <;> exact ⟨rfl, rfl, rfl⟩

end Instruction

/-- The labels under other names, in front of blocks and as targets. -/
def Translation.labels {s : String → String} (hs : Function.Injective s) : Translation where
  label := s
  instruction := Instruction.renameTarget s
  label_injective := hs
  flowsLike := Instruction.flowsLike_renameTarget s

section labels

variable {s : String → String} (hs : Function.Injective s)

namespace Translation

theorem statement_labels : (labels hs).statement = Statement.renameLabels s := by
  funext st
  cases st <;> rfl

theorem follows_labels (is : List Instruction) : (labels hs).Follows is := by
  intro i _ hop name
  show (i.renameDestination name).renameTarget s = (i.renameTarget s).renameDestination (s name)
  simp [Instruction.renameTarget, Instruction.renameDestination, hop]

theorem label_block_labels {b : Block} (h : FlowGraph.isInner b = true) :
    ((labels hs).block b).label = renameNonempty s b.label := by
  rw [block, h, Bool.true_and, renameNonempty]
  cases b.label.isEmpty <;> rfl

end Translation

/-! ## Numbering -/

section numbering

variable {g : FlowGraph}
  (hg : ∀ b ∈ g.blocks, ∀ i ∈ b.instructions, i.opcode = .bra → i.d.isNumbered = false)

include hg

theorem registerNames_labels :
    (g.mapBlocks (Translation.labels hs).block).registerNames = g.registerNames := by
  rw [FlowGraph.registerNames_translate]
  refine List.flatMap_congr fun b hb => List.flatMap_congr fun i hi => ?_
  show (i.renameTarget s).registerNames = i.registerNames
  unfold Instruction.renameTarget
  split
  · next hop =>
    rw [Instruction.registerNames_eq, Instruction.registerNames_eq,
      Instruction.numberedScalars_renameDestination (hg b hb i hi hop)]
  · rfl

/-- Labels are no registers, and so they can be renamed before or after numbering. -/
theorem mapBlocks_labels (m : Numbering) :
    (g.mapBlocks (Translation.labels hs).block).mapBlocks m.block =
      (g.mapBlocks m.block).mapBlocks (Translation.labels hs).block := by
  have hinstruction : ∀ b ∈ g.blocks, ∀ i ∈ b.instructions,
      m.instruction (i.renameTarget s) = (m.instruction i).renameTarget s := by
    intro b hb i hi
    unfold Instruction.renameTarget
    rw [m.opcode_instruction]
    split
    · next hop =>
      have hnumbered := hg b hb i hi hop
      have hname : (m.instruction i).d.name = i.d.name := by
        rw [m.instruction_eq, m.operand_of_not_isNumbered hnumbered]
      rw [m.instruction_renameDestination hnumbered, hname]
    · rfl
  rw [FlowGraph.mapBlocks_mapBlocks, FlowGraph.mapBlocks_mapBlocks]
  refine FlowGraph.mapBlocks_congr fun b hb => ?_
  simp only [Function.comp_def, Numbering.block, Translation.block, List.map_map]
  exact congrArg (Block.mk _ _ _) (List.map_congr_left (hinstruction b hb))

theorem Kernel.withBody_labels (k : Kernel) :
    k.withBody (g.mapBlocks (Translation.labels hs).block) = { k.withBody g with
      graph := (k.withBody g).graph.mapBlocks (Translation.labels hs).block } := by
  rw [withBody, withBody, Numbering.ofGraph_eq, Numbering.ofGraph_eq, registerNames_labels hs hg,
    mapBlocks_labels hs hg]

end numbering

/-! ## Canonicalizing -/

namespace FlowGraph

theorem retarget_eq (renames : List (String × String)) :
    retarget renames = Instruction.renameTarget fun l => (renames.lookup l).getD l := rfl

section canonicalize

variable (hne : ∀ l, l ≠ "" → s l ≠ "") (g : FlowGraph) (kernelId : Nat)

include hne

theorem canonicalRenaming_labels :
    (g.mapBlocks (Translation.labels hs).block).canonicalRenaming kernelId =
      (g.canonicalRenaming kernelId).map (Prod.map s id) := by
  -- No label becomes empty and no empty one gets a name, so that the table has the same blocks.
  have hborne : (fun b => isInner b && ! b.label.isEmpty) ∘ (Translation.labels hs).block =
      fun b => isInner b && ! b.label.isEmpty := by
    funext b
    show (isInner b && ! ((Translation.labels hs).block b).label.isEmpty) = _
    cases hinner : isInner b with
    | true => rw [Translation.label_block_labels hs hinner, isEmpty_renameNonempty hne]
    | false => rfl
  rw [canonicalRenaming, canonicalRenaming, blocks_mapBlocks, List.filter_map, hborne,
    List.map_reverse, List.map_map, List.map_map]
  congr 1
  refine List.map_congr_left fun b hb => ?_
  obtain ⟨hinner, hlabel⟩ := Bool.and_eq_true_iff.1 (List.mem_filter.1 hb).2
  simp only [Function.comp_apply, Prod.map, Translation.label_block_labels hs hinner]
  rw [renameNonempty, if_neg (by simpa using hlabel)]
  rfl

theorem retarget_labels {i : Instruction} (h : i.opcode = .bra →
    ∃ l, (g.canonicalRenaming kernelId).lookup i.d.name = some l) :
    retarget ((g.mapBlocks (Translation.labels hs).block).canonicalRenaming kernelId)
      (i.renameTarget s) = retarget (g.canonicalRenaming kernelId) i := by
  rw [canonicalRenaming_labels hs hne, retarget_eq, retarget_eq,
    Instruction.renameTarget_renameTarget]
  refine Instruction.renameTarget_congr fun hop => ?_
  obtain ⟨l, hl⟩ := h hop
  rw [Function.comp_apply, lookup_map_injective hs, hl]
  rfl

omit hne in
theorem canonicalBlock_labels {b : Block} (hcomment : b.comment = "") :
    canonicalBlock kernelId ((Translation.labels hs).block b) =
      { canonicalBlock kernelId b with
        comment := renameNonempty s (canonicalBlock kernelId b).comment
        instructions := b.instructions.map (Instruction.renameTarget s) } := by
  unfold canonicalBlock
  rw [show isInner ((Translation.labels hs).block b) = isInner b from rfl]
  cases hinner : isInner b with
  | true =>
    simp only [if_true, Translation.label_block_labels hs hinner]
    rfl
  | false =>
    simp only [Bool.false_eq_true, if_false, Translation.block, hinner, Bool.false_and, hcomment]
    rfl

/-- Canonicalizing forgets under which names the blocks were, but for the comments. -/
theorem canonicalize_labels
    (hbranches : ∀ b ∈ g.blocks, ∀ i ∈ b.instructions, i.opcode = .bra →
      ∃ l, (g.canonicalRenaming kernelId).lookup i.d.name = some l)
    (hcomments : ∀ b ∈ g.blocks, b.comment = "") :
    (g.mapBlocks (Translation.labels hs).block).canonicalize kernelId =
      (g.canonicalize kernelId).mapBlocks (Block.renameComment s) := by
  rw [canonicalize, canonicalize, mapBlocks_mapBlocks, mapBlocks_mapBlocks]
  refine mapBlocks_congr fun b hb => ?_
  have hinstructions : (b.instructions.map (Instruction.renameTarget s)).map
      (retarget ((g.mapBlocks (Translation.labels hs).block).canonicalRenaming kernelId)) =
        b.instructions.map (retarget (g.canonicalRenaming kernelId)) := by
    rw [List.map_map]
    exact List.map_congr_left fun i hi => retarget_labels hs hne g kernelId (hbranches b hb i hi)
  simp only [Function.comp_apply, canonicalBlock_labels hs kernelId (hcomments b hb), retargetBlock,
    Block.renameComment]
  rw [hinstructions, instructions_canonicalBlock]

end canonicalize

theorem Addressed.exists_lookup {target : BlockId × Nat → Option BlockId} {g : FlowGraph}
    (h : g.Addressed target) (kernelId : Nat) {b : Block} (hb : b ∈ g.blocks) {i : Instruction}
    (hi : i ∈ b.instructions) (hop : i.opcode = .bra) :
    ∃ l, (g.canonicalRenaming kernelId).lookup i.d.name = some l := by
  obtain ⟨p, hp⟩ := exists_instruction?_eq_some hb hi
  obtain ⟨id, b', -, hb', hinner, hne, hname⟩ := h.branch p i hp hop
  exact ⟨_, hname ▸ lookup_canonicalRenaming h.id_eq h.distinct hb' hinner hne kernelId⟩

theorem isNumbered_of_bra_graph {ss : List Statement} {o : Outline} (h : outline ss = .ok o)
    (hmodes : ∀ i ∈ Statement.instructions ss, i.opcode = .bra → i.d.mode = .label) :
    ∀ b ∈ o.graph.blocks, ∀ i ∈ b.instructions, i.opcode = .bra → i.d.isNumbered = false := by
  intro b hb i hi hop
  obtain ⟨p, hp⟩ := exists_instruction?_eq_some hb hi
  exact Operand.isNumbered_of_label (mode_of_bra_graph h hmodes hp hop)

theorem comment_graph {o : Outline} {b : Block} (hb : b ∈ o.graph.blocks) : b.comment = "" := by
  rw [o.blocks_graph, List.mem_append] at hb
  rcases hb with hb | hb
  · rcases List.mem_pair.1 hb with rfl | rfl <;> rfl
  · obtain ⟨p, -, rfl⟩ := List.mem_map.1 hb
    rfl

end FlowGraph

end labels

/-! ## The kernel -/

namespace Kernel

open FlowGraph

theorem comment_withBody {k : Kernel} {g : FlowGraph} (h : ∀ b ∈ g.blocks, b.comment = "") :
    ∀ b ∈ (k.withBody g).graph.blocks, b.comment = "" := by
  rw [graph_withBody, blocks_mapBlocks, List.forall_mem_map]
  exact h

/-- Under other names for the labels of some statements the canonical kernel is the same, but for
the old labels in its comments, and where there is none, the error is the same up to the name in
it. -/
theorem canonicalize_renameLabels {s : String → String} {ss : List Statement}
    (hs : Function.Injective s) (hne : ∀ l, l ≠ "" → s l ≠ "")
    (hlabels : ∀ l, .label l ∈ ss → l ≠ "")
    (hmodes : ∀ i ∈ Statement.instructions ss, i.opcode = .bra → i.d.mode = .label) :
    match ofStatements ss with
    | .error e => ofStatements (ss.map (Statement.renameLabels s)) = .error (e.renameLabel s)
    | .ok k => ∃ k', ofStatements (ss.map (Statement.renameLabels s)) = .ok k' ∧
        ∀ kernelId, k'.canonicalize kernelId = { k.canonicalize kernelId with
          graph := (k.canonicalize kernelId).graph.mapBlocks (Block.renameComment s) } := by
  have hgraph := ofStatements_translate (Translation.follows_labels hs (Statement.instructions ss))
    fun hempty => absurd rfl (hlabels "" hempty)
  have hdeclarations := ofDeclarations_translate (.labels hs) ss
  rw [Translation.statement_labels] at hgraph hdeclarations
  cases hg : FlowGraph.ofStatements ss with
  | error e =>
    rw [ofStatements, ofStatements, hgraph, hg]
    rfl
  | ok g =>
    have hk := ofStatements_eq_ok_iff.2 ⟨g, hg, rfl⟩
    have haddressed := addressed_ofStatements hk hlabels hmodes
    obtain ⟨o, hout, -, -, rfl⟩ := FlowGraph.ofStatements_eq_ok_iff.1 hg
    have hnumbered := isNumbered_of_bra_graph hout hmodes
    have hcomments := comment_withBody (k := ofDeclarations ss) fun _ => comment_graph (o := o)
    have hrenamed : ofStatements (ss.map (Statement.renameLabels s)) = .ok
        ((ofDeclarations ss).withBody (o.graph.mapBlocks (Translation.labels hs).block)) := by
      rw [ofStatements, hgraph, hg, hdeclarations]
      rfl
    rw [hk]
    refine ⟨_, hrenamed, fun kernelId => ?_⟩
    -- The labels are gone from the canonical graph, except where a comment recalls them.
    have hcanonical := canonicalize_labels hs hne _ kernelId
      (fun _ hb _ => haddressed.exists_lookup kernelId hb) hcomments
    rw [withBody_labels hs hnumbered, canonicalize, hcanonical]
    rfl

/-- Two labels at one block, one of them the name of the entry block and the other one that a
canonical label may have, with a branch to each of them. -/
def doubled : List Statement :=
  [.label "entry", .label "$BB_0_0003",
    .instruction { opcode := .bra, d := .label "entry", guard := .predicate "p" },
    .instruction { opcode := .bra, d := .label "$BB_0_0003", guard := .predicate "p" },
    .instruction { opcode := .exit }]

def exchangeLabels : Equiv.Perm String := Equiv.swap "entry" "$BB_0_0003"

theorem canonicalize_renameLabels_doubled : ∃ k k', ofStatements doubled = .ok k ∧
    ofStatements (doubled.map (Statement.renameLabels exchangeLabels)) = .ok k' ∧
      (k'.canonicalize 0).graph.edges = (k.canonicalize 0).graph.edges ∧
        (k'.canonicalize 0).graph.blocks.map (·.label) =
          (k.canonicalize 0).graph.blocks.map (·.label) := by
  obtain ⟨g, hg⟩ : ∃ g, FlowGraph.ofStatements doubled = .ok g := ⟨_, rfl⟩
  have hk := ofStatements_eq_ok_iff.2 ⟨g, hg, rfl⟩
  have hempty : exchangeLabels "" = "" := Equiv.swap_apply_of_ne_of_ne (by decide) (by decide)
  have hne : ∀ l, l ≠ "" → exchangeLabels l ≠ "" :=
    fun l hl => hempty ▸ exchangeLabels.injective.ne hl
  have hmodes : ∀ i ∈ Statement.instructions doubled, i.opcode = .bra → i.d.mode = .label := by
    decide
  have hrenamed := canonicalize_renameLabels exchangeLabels.injective hne (by simp [doubled]) hmodes
  rw [hk] at hrenamed
  obtain ⟨k', hk', hcanonical⟩ := hrenamed
  refine ⟨_, k', hk, hk', ?_, ?_⟩
  · rw [hcanonical 0]
    rfl
  · rw [hcanonical 0, blocks_mapBlocks, List.map_map]
    rfl

end Kernel

end KernelListing
