import KernelListing.Kernel.Basic
import KernelListing.Kernel.Canonical
import KernelListing.Proofs.FlowGraph.Places
import KernelListing.Proofs.Kernel.Labels
import KernelListing.Proofs.Register.Numbering

/-!
# Canonical labels redirect no branch

`Addressed` says that each branch of a graph goes by the label of the block it has been resolved
to, and that no two blocks share a label. Building a graph establishes it, and canonicalizing
keeps it although the old labels may look like new ones: the branches are renamed all at once,
by a table in which no old label stands for two blocks.
-/

namespace KernelListing

/-- The block to which the branch at a place is resolved: the one with the instruction that the
branch's label denotes, where the places are those of the instructions among some statements. -/
def Statement.target? (ss : List Statement) (places : List (BlockId × Nat))
    (p : BlockId × Nat) : Option BlockId := do
  let inst ← (instructions ss)[places.idxOf p]?
  let j ← (landings ss).lookup inst.d.name
  let q ← places[j]?
  return q.1

/-- A block without the labels that canonicalizing changes. -/
def Block.unaddressed (b : Block) : Block where
  id := b.id
  label := if FlowGraph.isInner b then "" else b.label
  comment := if FlowGraph.isInner b then "" else b.comment
  instructions := b.instructions.map Instruction.unaddressed

namespace FlowGraph

/-- The branches of a graph go by the labels of their targets, and no two blocks share a label. -/
structure Addressed (target : BlockId × Nat → Option BlockId) (g : FlowGraph) : Prop where
  id_eq : ∀ id b, g.block? id = some b → b.id = id
  distinct : ∀ id id' b b', g.block? id = some b → g.block? id' = some b' →
    isInner b = true → isInner b' = true → b.label = b'.label → b.label ≠ "" → id = id'
  branch : ∀ p i, g.instruction? p = some i → i.opcode = .bra → ∃ id b, target p = some id ∧
    g.block? id = some b ∧ isInner b = true ∧ b.label ≠ "" ∧ i.d.name = b.label

/-! ## Maps over the blocks -/

theorem mapBlocks_mapBlocks (g : FlowGraph) (f f' : Block → Block) :
    (g.mapBlocks f).mapBlocks f' = g.mapBlocks (f' ∘ f) := by
  simp [mapBlocks]

theorem mapBlocks_congr {g : FlowGraph} {f f' : Block → Block}
    (h : ∀ b ∈ g.blocks, f b = f' b) : g.mapBlocks f = g.mapBlocks f' := by
  rw [mapBlocks, mapBlocks]
  congr 1
  refine List.map_congr_left fun slot hslot => Option.map_congr fun b hb => h b ?_
  exact List.mem_filterMap.2 ⟨slot, hslot, hb⟩

theorem blocks_mapBlocks (g : FlowGraph) (f : Block → Block) :
    (g.mapBlocks f).blocks = g.blocks.map f := by
  simp only [blocks, mapBlocks, List.filterMap_map, List.map_filterMap]
  rfl

theorem places_mapBlocks (g : FlowGraph) {f : Block → Block} {f' : Instruction → Instruction}
    (hid : ∀ b, (f b).id = b.id) (h : ∀ b, (f b).instructions = b.instructions.map f') :
    (g.mapBlocks f).places = g.places := by
  simp [places, blocks_mapBlocks, List.flatMap_map, hid, h]

theorem instructions_mapBlocks (g : FlowGraph) {f : Block → Block}
    {f' : Instruction → Instruction} (h : ∀ b, (f b).instructions = b.instructions.map f') :
    (g.mapBlocks f).instructions = g.instructions.map f' := by
  simp [instructions, blocks_mapBlocks, List.flatMap_map, List.map_flatMap, h]

theorem instruction?_mapBlocks (g : FlowGraph) {f : Block → Block}
    {f' : Instruction → Instruction} (h : ∀ b, (f b).instructions = b.instructions.map f')
    (p : BlockId × Nat) : (g.mapBlocks f).instruction? p = (g.instruction? p).map f' := by
  simp only [instruction?, block?_mapBlocks]
  cases g.block? p.1 with
  | none => rfl
  | some b => simp [h]

theorem exists_instruction?_eq_some {g : FlowGraph} {b : Block} (hb : b ∈ g.blocks)
    {i : Instruction} (hi : i ∈ b.instructions) : ∃ p, g.instruction? p = some i := by
  obtain ⟨id, hid⟩ := mem_blocks.1 hb
  obtain ⟨n, hn⟩ := List.mem_iff_getElem?.1 hi
  exact ⟨(id, n), by rw [instruction?, hid]; exact hn⟩

/-! ## One step -/

section canonicalBlock

variable (kernelId : Nat) (b : Block)

@[simp] theorem id_canonicalBlock : (canonicalBlock kernelId b).id = b.id := by
  unfold canonicalBlock
  split <;> rfl

theorem label_canonicalBlock : (canonicalBlock kernelId b).label =
    if isInner b then Label.canonical kernelId b.id else b.label := by
  unfold canonicalBlock
  split <;> rfl

theorem comment_canonicalBlock : (canonicalBlock kernelId b).comment =
    if isInner b then b.label else b.comment := by
  unfold canonicalBlock
  split <;> rfl

@[simp] theorem instructions_canonicalBlock :
    (canonicalBlock kernelId b).instructions = b.instructions := by
  unfold canonicalBlock
  split <;> rfl

end canonicalBlock

theorem isInner_congr {b b' : Block} (h : b.id = b'.id) : isInner b = isInner b' := by
  rw [isInner, isInner, h]

theorem isInner_retargetBlock (renames : List (String × String)) (kernelId : Nat) (b : Block) :
    isInner (retargetBlock renames (canonicalBlock kernelId b)) = isInner b :=
  isInner_congr (id_canonicalBlock kernelId b)

theorem unaddressed_retarget (renames : List (String × String)) (i : Instruction) :
    (retarget renames i).unaddressed = i.unaddressed := by
  by_cases hop : i.opcode = .bra
  · simp [retarget, Instruction.unaddressed, hop, Instruction.renameDestination]
  · simp [retarget, Instruction.unaddressed, hop]

theorem canonicalize_unaddressed (g : FlowGraph) (kernelId : Nat) :
    (g.canonicalize kernelId).mapBlocks Block.unaddressed = g.mapBlocks Block.unaddressed := by
  rw [canonicalize, mapBlocks_mapBlocks]
  refine mapBlocks_congr fun b _ => ?_
  simp only [Function.comp_apply, Block.unaddressed, isInner_retargetBlock]
  simp only [retargetBlock, id_canonicalBlock, label_canonicalBlock, comment_canonicalBlock,
    instructions_canonicalBlock, List.map_map, Function.comp_def, unaddressed_retarget]
  cases isInner b <;> rfl

theorem block?_canonicalize {g : FlowGraph} {kernelId : Nat} {id : BlockId} {b : Block} :
    (g.canonicalize kernelId).block? id = some b ↔ ∃ b₀, g.block? id = some b₀ ∧
      b = retargetBlock (g.canonicalRenaming kernelId) (canonicalBlock kernelId b₀) := by
  rw [canonicalize, block?_mapBlocks, Option.map_eq_some_iff]
  simp only [eq_comm]

theorem instruction?_canonicalize (g : FlowGraph) (kernelId : Nat) (p : BlockId × Nat) :
    (g.canonicalize kernelId).instruction? p =
      (g.instruction? p).map (retarget (g.canonicalRenaming kernelId)) :=
  instruction?_mapBlocks g (fun b => by simp [retargetBlock]) p

/-- The table of new labels has the new label of each block that bears an old one. -/
theorem lookup_canonicalRenaming {g : FlowGraph} (hids : ∀ id b, g.block? id = some b → b.id = id)
    (hdistinct : ∀ id id' b b', g.block? id = some b → g.block? id' = some b' →
      isInner b = true → isInner b' = true → b.label = b'.label → b.label ≠ "" → id = id')
    {id : BlockId} {b : Block} (hb : g.block? id = some b) (hinner : isInner b = true)
    (hne : b.label ≠ "") (kernelId : Nat) :
    (g.canonicalRenaming kernelId).lookup b.label = some (Label.canonical kernelId id) := by
  have hmem : ∀ l l', (l, l') ∈ g.canonicalRenaming kernelId ↔ ∃ id b, g.block? id = some b ∧
      isInner b = true ∧ b.label ≠ "" ∧ l = b.label ∧ l' = Label.canonical kernelId id := by
    intro l l'
    simp only [canonicalRenaming, List.mem_reverse, List.mem_map, List.mem_filter, mem_blocks,
      Prod.mk.injEq, Bool.and_eq_true, Bool.not_eq_true', String.isEmpty_eq_false_iff]
    constructor
    · rintro ⟨b, ⟨⟨id, hb⟩, hinner, hne⟩, rfl, rfl⟩
      exact ⟨id, b, hb, hinner, hne, rfl, by rw [hids id b hb]⟩
    · rintro ⟨id, b, hb, hinner, hne, rfl, rfl⟩
      exact ⟨b, ⟨⟨id, hb⟩, hinner, hne⟩, rfl, by rw [hids id b hb]⟩
  refine lookup_eq_some_of_mem ((hmem _ _).2 ⟨id, b, hb, hinner, hne, rfl, rfl⟩) ?_
  intro l' hl'
  obtain ⟨id', b', hb', hinner', -, hlabel, rfl⟩ := (hmem _ _).1 hl'
  rw [hdistinct id id' b b' hb hb' hinner hinner' hlabel hne]

/-- Canonicalizing keeps each branch at the label of its target. -/
theorem Addressed.canonicalize {target : BlockId × Nat → Option BlockId} {g : FlowGraph}
    (h : g.Addressed target) (kernelId : Nat) : (g.canonicalize kernelId).Addressed target := by
  constructor
  · intro id b hb
    obtain ⟨b₀, hb₀, rfl⟩ := block?_canonicalize.1 hb
    simpa [retargetBlock] using h.id_eq id b₀ hb₀
  · intro id id' b b' hb hb' hinner hinner' hlabel hne
    obtain ⟨b₀, hb₀, rfl⟩ := block?_canonicalize.1 hb
    obtain ⟨b₁, hb₁, rfl⟩ := block?_canonicalize.1 hb'
    rw [isInner_retargetBlock] at hinner hinner'
    simp only [retargetBlock, label_canonicalBlock, hinner, hinner', if_true] at hlabel
    rw [← h.id_eq id b₀ hb₀, ← h.id_eq id' b₁ hb₁]
    exact Label.canonical_injective kernelId hlabel
  · intro p i hi hop
    rw [instruction?_canonicalize, Option.map_eq_some_iff] at hi
    obtain ⟨i₀, hi₀, rfl⟩ := hi
    have hop₀ : i₀.opcode = .bra := by
      unfold retarget at hop
      split at hop
      · assumption
      · exact hop
    obtain ⟨id, b, htarget, hb, hinner, hne, hname⟩ := h.branch p i₀ hi₀ hop₀
    -- A branch goes by the label of its target, and that is what the table is searched for.
    have hlookup := lookup_canonicalRenaming h.id_eq h.distinct hb hinner hne kernelId
    refine ⟨id, _, htarget, block?_canonicalize.2 ⟨b, hb, rfl⟩, ?_, ?_, ?_⟩
    · rw [isInner_retargetBlock, hinner]
    · simp only [retargetBlock, label_canonicalBlock, hinner, if_true]
      exact Label.canonical_ne_empty kernelId b.id
    · simp only [retargetBlock, label_canonicalBlock, hinner, if_true, retarget, hop₀,
        Instruction.renameDestination, hname, hlookup, h.id_eq id b hb, Option.getD_some]

/-! ## The graph of some statements -/

theorem Segment.label_mem {s : Segment} (h : s.labels ≠ []) : s.label ∈ s.labels := by
  rw [Segment.label, List.getLast?_eq_some_getLast h]
  exact List.getLast_mem h

theorem Segment.label_mem_of_ne {s : Segment} (h : s.label ≠ "") : s.label ∈ s.labels := by
  refine label_mem ?_
  rintro hnil
  exact h (by simp [Segment.label, hnil])

theorem label_mem_of_filled {ss : List Statement} {o : Outline} (h : outline ss = .ok o) {k : Nat}
    {s : Segment} (hs : o.filled[k]? = some s) {l : String} (hl : l ∈ s.labels) :
    Statement.label l ∈ ss := by
  rw [← Statement.mem_labels, ← labels_outline h, Outline.labels, List.mem_flatMap]
  refine ⟨s, ?_, hl⟩
  have hmem := List.mem_of_getElem? hs
  unfold Outline.filled at hmem
  split at hmem
  · exact List.mem_append_left _ hmem
  · exact hmem

theorem exists_of_instruction?_graph {o : Outline} {p : BlockId × Nat} {i : Instruction}
    (h : o.graph.instruction? p = some i) : ∃ (k m : Nat) (s : Segment) (i₀ : Instruction),
      p = (k + 2, m) ∧ o.filled[k]? = some s ∧ s.instructions[m]? = some i₀ ∧
        i = redirect o.filled i₀ := by
  obtain ⟨id, m⟩ := p
  match id with
  | 0 => cases h
  | 1 => cases h
  | k + 2 =>
    cases hs : o.filled[k]? with
    | none => simp [instruction?, o.block?_graph, hs] at h
    | some s =>
      rw [Outline.instruction?_graph hs, Option.map_eq_some_iff] at h
      obtain ⟨i₀, hi₀, rfl⟩ := h
      exact ⟨k, m, s, i₀, rfl, hs, hi₀, rfl⟩

theorem exists_of_isInner_graph {o : Outline} {id : BlockId} {b : Block}
    (h : o.graph.block? id = some b) (hinner : isInner b = true) : ∃ (k : Nat) (s : Segment),
      id = k + 2 ∧ o.filled[k]? = some s ∧ b.label = s.label := by
  match id with
  | 0 =>
    cases h
    cases hinner
  | 1 =>
    cases h
    cases hinner
  | k + 2 =>
    rw [o.block?_graph, Option.map_eq_some_iff] at h
    obtain ⟨s, hs, rfl⟩ := h
    exact ⟨k, s, rfl, hs, rfl⟩

theorem mode_of_bra_graph {ss : List Statement} {o : Outline} (h : outline ss = .ok o)
    (hmodes : ∀ i ∈ Statement.instructions ss, i.opcode = .bra → i.d.mode = .label)
    {p : BlockId × Nat} {i : Instruction} (hi : o.graph.instruction? p = some i)
    (hop : i.opcode = .bra) : i.d.mode = .label := by
  obtain ⟨k, m, s, i₀, -, hs, hi₀, rfl⟩ := exists_of_instruction?_graph hi
  have hmem : i₀ ∈ Statement.instructions ss := by
    rw [← instructions_filled h]
    exact List.mem_flatMap.2 ⟨s, List.mem_of_getElem? hs, List.mem_of_getElem? hi₀⟩
  rw [opcode_redirect] at hop
  rw [redirect, if_pos hop]
  exact hmodes i₀ hmem hop

/-- The branches of the graph of some statements go by the labels of their targets. -/
theorem addressed_graph {ss : List Statement} {o : Outline} (h : outline ss = .ok o)
    (hdangling : dangling? o.filled o.filled = none) (hlabels : ∀ l, .label l ∈ ss → l ≠ "") :
    o.graph.Addressed (Statement.target? ss o.graph.places) := by
  have hclosed := (outline_sound h).filled
  have hnodup := nodup_labels_filled h
  constructor
  · intro id b hb
    match id with
    | 0 => cases hb; rfl
    | 1 => cases hb; rfl
    | k + 2 =>
      rw [o.block?_graph, Option.map_eq_some_iff] at hb
      obtain ⟨s, -, rfl⟩ := hb
      rfl
  · intro id id' b b' hb hb' hinner hinner' hlabel hne
    obtain ⟨k, s, rfl, hs, hl⟩ := exists_of_isInner_graph hb hinner
    obtain ⟨k', s', rfl, hs', hl'⟩ := exists_of_isInner_graph hb' hinner'
    have hmem := Segment.label_mem_of_ne (hl ▸ hne)
    have hmem' := Segment.label_mem_of_ne (hl' ▸ hlabel ▸ hne)
    rw [← hl', ← hlabel, hl] at hmem'
    rw [index_unique hnodup hs hs' hmem hmem']
  · intro p i hi hop
    obtain ⟨k, m, s, i₀, rfl, hs, hi₀, rfl⟩ := exists_of_instruction?_graph hi
    have hop₀ : i₀.opcode = .bra := by rwa [opcode_redirect] at hop
    obtain ⟨hm, hi₀'⟩ := List.getElem?_eq_some_iff.1 hi₀
    have hplace : (placesOf o.filled)[sizeOf (o.filled.take k) + m]? = some (k + 2, m) :=
      getElem?_placesOf.2 ⟨k, s, hs, m, hm, rfl, rfl⟩
    -- No place is listed twice, so looking one up finds the number of its instruction.
    have hidx : (placesOf o.filled).idxOf (k + 2, m) = sizeOf (o.filled.take k) + m := by
      obtain ⟨hlt, heq⟩ := List.getElem?_eq_some_iff.1 hplace
      rw [← heq, (nodup_placesOf _).idxOf_getElem]
    obtain ⟨id, hlookup⟩ :=
      exists_lookup_of_bra hclosed hdangling hs (List.mem_of_getElem? hi₀) hop₀
    obtain ⟨k', s', rfl, hs', hl⟩ := exists_of_lookup_namesOf hlookup
    have hland := lookup_landings h hs' hl
    refine ⟨k' + 2, (s'.redirect o.filled).block (k' + 2), ?_, ?_, ?_, ?_, ?_⟩
    · have hstart := place_start hs' (hclosed s' (List.mem_of_getElem? hs')).ne_nil
      rw [Outline.places_graph, Statement.target?, hidx, getElem?_instructions h hs hm, hi₀]
      simp [hland, hstart]
    · rw [o.block?_graph, hs']
      rfl
    · simp [isInner, Segment.block, entry, exit]
    · exact hlabels _ (label_mem_of_filled h hs' (Segment.label_mem (List.ne_nil_of_mem hl)))
    · rw [redirect, if_pos hop₀]
      show landing o.filled i₀.d.name = s'.label
      exact landing_of_lookup hlookup hs'

/-! ## Numbering -/

/-- Numbering the registers leaves a branch at its label. -/
theorem Addressed.numbered {target : BlockId × Nat → Option BlockId} {g : FlowGraph}
    (h : g.Addressed target) (m : Numbering)
    (hmodes : ∀ p i, g.instruction? p = some i → i.opcode = .bra → i.d.mode = .label) :
    (g.mapBlocks m.block).Addressed target := by
  constructor
  · intro id b hb
    rw [block?_mapBlocks, Option.map_eq_some_iff] at hb
    obtain ⟨b₀, hb₀, rfl⟩ := hb
    exact h.id_eq id b₀ hb₀
  · intro id id' b b' hb hb'
    rw [block?_mapBlocks, Option.map_eq_some_iff] at hb hb'
    obtain ⟨b₀, hb₀, rfl⟩ := hb
    obtain ⟨b₁, hb₁, rfl⟩ := hb'
    exact h.distinct id id' b₀ b₁ hb₀ hb₁
  · intro p i hi hop
    rw [instruction?_mapBlocks g (fun b => rfl), Option.map_eq_some_iff] at hi
    obtain ⟨i₀, hi₀, rfl⟩ := hi
    rw [Numbering.opcode_instruction] at hop
    obtain ⟨id, b, htarget, hb, hinner, hne, hname⟩ := h.branch p i₀ hi₀ hop
    have hlabel : m.operand i₀.d = i₀.d :=
      m.operand_of_not_isNumbered (Operand.isNumbered_of_label (hmodes p i₀ hi₀ hop))
    refine ⟨id, m.block b, htarget, ?_, hinner, hne, ?_⟩
    · rw [block?_mapBlocks, hb]
      rfl
    · rw [m.instruction_eq, hlabel]
      exact hname

end FlowGraph

namespace Kernel

open FlowGraph

theorem ofStatements_eq_ok_iff {ss : List Statement} {k : Kernel} :
    ofStatements ss = .ok k ↔
      ∃ g, FlowGraph.ofStatements ss = .ok g ∧ k = (ofDeclarations ss).withBody g := by
  unfold ofStatements
  cases FlowGraph.ofStatements ss with
  | error e => simp [Except.map]
  | ok g => simp [Except.map, eq_comm]

theorem exists_outline_of_ofStatements {ss : List Statement} {k : Kernel}
    (h : ofStatements ss = .ok k) :
    ∃ o, outline ss = .ok o ∧ o.filled.any Segment.exits = true ∧
      dangling? o.filled o.filled = none ∧ k = (ofDeclarations ss).withBody o.graph := by
  obtain ⟨g, hg, rfl⟩ := ofStatements_eq_ok_iff.1 h
  obtain ⟨o, hout, hexit, hdangling, rfl⟩ := FlowGraph.ofStatements_eq_ok_iff.1 hg
  exact ⟨o, hout, hexit, hdangling, rfl⟩

theorem graph_withBody (k : Kernel) (g : FlowGraph) :
    (k.withBody g).graph = g.mapBlocks (Numbering.ofNames g.registerNames).block := by
  rw [withBody, Numbering.ofGraph_eq]

theorem places_withBody (k : Kernel) (g : FlowGraph) :
    (k.withBody g).graph.places = g.places := by
  rw [graph_withBody]
  exact places_mapBlocks g (fun _ => rfl) (fun _ => rfl)

theorem instructions_withBody (k : Kernel) (g : FlowGraph) :
    (k.withBody g).graph.instructions =
      g.instructions.map (k.withBody g).numbering.instruction := by
  rw [withBody, Numbering.ofGraph_eq]
  exact instructions_mapBlocks g fun _ => rfl

theorem addressed_ofStatements {ss : List Statement} {k : Kernel} (h : ofStatements ss = .ok k)
    (hlabels : ∀ l, .label l ∈ ss → l ≠ "")
    (hmodes : ∀ i ∈ Statement.instructions ss, i.opcode = .bra → i.d.mode = .label) :
    k.graph.Addressed (Statement.target? ss k.graph.places) := by
  obtain ⟨o, hout, -, hdangling, rfl⟩ := exists_outline_of_ofStatements h
  rw [places_withBody, graph_withBody]
  exact (addressed_graph hout hdangling hlabels).numbered _ fun _ _ => mode_of_bra_graph hout hmodes

def canonicalizeAll (k : Kernel) (kernelIds : List Nat) : Kernel :=
  kernelIds.foldl canonicalize k

theorem canonicalizeAll_concat (k : Kernel) (kernelIds : List Nat) (kernelId : Nat) :
    k.canonicalizeAll (kernelIds ++ [kernelId]) =
      (k.canonicalizeAll kernelIds).canonicalize kernelId := by
  rw [canonicalizeAll, List.foldl_append]
  rfl

theorem canonicalizeAll_unaddressed (k : Kernel) (kernelIds : List Nat) :
    (k.canonicalizeAll kernelIds).graph.mapBlocks Block.unaddressed =
        k.graph.mapBlocks Block.unaddressed ∧
      { k.canonicalizeAll kernelIds with graph := k.graph } = k := by
  induction kernelIds generalizing k with
  | nil => exact ⟨rfl, rfl⟩
  | cons kernelId kernelIds ih =>
    obtain ⟨hgraph, hrest⟩ := ih (k.canonicalize kernelId)
    refine ⟨hgraph.trans (canonicalize_unaddressed k.graph kernelId), ?_⟩
    exact congrArg (fun k' : Kernel => { k' with graph := k.graph }) hrest

theorem addressed_canonicalizeAll {target : BlockId × Nat → Option BlockId} {k : Kernel}
    (h : k.graph.Addressed target) (kernelIds : List Nat) :
    (k.canonicalizeAll kernelIds).graph.Addressed target := by
  induction kernelIds generalizing k with
  | nil => exact h
  | cons kernelId kernelIds ih => exact ih (h.canonicalize kernelId)

theorem label_comment_canonicalize {k : Kernel} {kernelId : Nat} {id : BlockId} {b : Block}
    (hb : (k.canonicalize kernelId).graph.block? id = some b) (hinner : isInner b = true) :
    ∃ b₀, k.graph.block? id = some b₀ ∧ b.label = Label.canonical kernelId b₀.id ∧
      b.comment = b₀.label := by
  obtain ⟨b₀, hb₀, rfl⟩ := block?_canonicalize.1 hb
  rw [isInner_retargetBlock] at hinner
  refine ⟨b₀, hb₀, ?_, ?_⟩
  · simp only [retargetBlock, label_canonicalBlock, hinner, if_true]
  · simp only [retargetBlock, comment_canonicalBlock, hinner, if_true]

/-- Canonicalizing any number of times, but at least once, redirects no branch. The inner blocks
get labels of their own, each branch goes by the label of the block it was resolved to, the
label that an inner block had last becomes its comment, and nothing else changes. -/
theorem canonicalizeAll_ofStatements {ss : List Statement} {k : Kernel}
    (h : ofStatements ss = .ok k) (hlabels : ∀ l, .label l ∈ ss → l ≠ "")
    (hmodes : ∀ i ∈ Statement.instructions ss, i.opcode = .bra → i.d.mode = .label)
    (kernelIds : List Nat) (kernelId : Nat) :
    (∀ id id' b b', (k.canonicalizeAll (kernelIds ++ [kernelId])).graph.block? id = some b →
      (k.canonicalizeAll (kernelIds ++ [kernelId])).graph.block? id' = some b' →
      isInner b = true → isInner b' = true → b.label = b'.label → id = id') ∧
    (∀ p i, (k.canonicalizeAll (kernelIds ++ [kernelId])).graph.instruction? p = some i →
      i.opcode = .bra → ∃ id b, Statement.target? ss k.graph.places p = some id ∧
        (k.canonicalizeAll (kernelIds ++ [kernelId])).graph.block? id = some b ∧
        i.d.name = b.label) ∧
    (∀ id b, (k.canonicalizeAll (kernelIds ++ [kernelId])).graph.block? id = some b →
      isInner b = true → ∃ b₀, (k.canonicalizeAll kernelIds).graph.block? id = some b₀ ∧
        b.comment = b₀.label) ∧
    (k.canonicalizeAll (kernelIds ++ [kernelId])).graph.mapBlocks Block.unaddressed =
      k.graph.mapBlocks Block.unaddressed ∧
    { k.canonicalizeAll (kernelIds ++ [kernelId]) with graph := k.graph } = k := by
  have haddressed := addressed_canonicalizeAll (addressed_ofStatements h hlabels hmodes)
    (kernelIds ++ [kernelId])
  refine ⟨fun id id' b b' hb hb' hinner hinner' hlabel => ?_, fun p i hi hop => ?_,
    fun id b hb hinner => ?_, k.canonicalizeAll_unaddressed (kernelIds ++ [kernelId])⟩
  · refine haddressed.distinct id id' b b' hb hb' hinner hinner' hlabel ?_
    rw [canonicalizeAll_concat] at hb
    obtain ⟨b₀, -, hcanonical, -⟩ := label_comment_canonicalize hb hinner
    rw [hcanonical]
    exact Label.canonical_ne_empty kernelId b₀.id
  · obtain ⟨id, b, htarget, hb, -, -, hname⟩ := haddressed.branch p i hi hop
    exact ⟨id, b, htarget, hb, hname⟩
  · rw [canonicalizeAll_concat] at hb
    obtain ⟨b₀, hb₀, -, hcomment⟩ := label_comment_canonicalize hb hinner
    exact ⟨b₀, hb₀, hcomment⟩

/-- Two blocks whose labels are each other's canonical ones, with a branch to each of them. -/
def crossed : List Statement :=
  [.label "$BB_0_0003", .instruction { opcode := .bra, d := .label "$BB_0_0002" },
    .label "$BB_0_0002",
    .instruction { opcode := .bra, d := .label "$BB_0_0003", guard := .predicate "p" },
    .instruction { opcode := .exit }]

theorem canonicalizeAll_ofStatements_crossed : ∃ k, ofStatements crossed = .ok k ∧
    ∀ i, (k.canonicalizeAll [0]).graph.instruction? (2, 0) = some i → i.opcode = .bra →
      ∃ b, (k.canonicalizeAll [0]).graph.block? 3 = some b ∧ i.d.name = b.label := by
  obtain ⟨g, hg, hplaces⟩ : ∃ g, FlowGraph.ofStatements crossed = .ok g ∧
      g.places = [(2, 0), (3, 0), (4, 0)] := ⟨_, rfl, rfl⟩
  have hok := ofStatements_eq_ok_iff.2 ⟨g, hg, rfl⟩
  refine ⟨_, hok, fun i hi hop => ?_⟩
  have hbranch := (canonicalizeAll_ofStatements hok (by simp [crossed]) (by decide) [] 0).2.1
  obtain ⟨id, b, htarget, hb, hname⟩ := hbranch (2, 0) i hi hop
  rw [places_withBody, hplaces] at htarget
  obtain rfl : 3 = id := Option.some.inj htarget
  exact ⟨b, hb, hname⟩

end Kernel

end KernelListing
