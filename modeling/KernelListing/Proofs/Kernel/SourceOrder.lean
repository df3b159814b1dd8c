import KernelListing.Proofs.FlowGraph.ControlFlow
import KernelListing.Proofs.FlowGraph.Layout
import KernelListing.Proofs.FlowGraph.Partition
import KernelListing.Proofs.Kernel.Listing
import KernelListing.Proofs.Kernel.Requests

/-!
# A listing keeps the order of the source

The lines of a listing that look like those of instructions are those of the instructions in its
blocks, for any kernel (`filter_listingLines`): header, declarations and labels are indented less or
end otherwise. The blocks of a kernel that has been built stand in the order of their ids, whatever
has been asked of it since (`Arranged.congr`), and so the instructions stand in the order of the
source. The order by the table of placed blocks is the same (`sequence?_afterRequests`), since all
ids were handed out while the graph was built (`inRange_graph`).
-/

namespace KernelListing

namespace FlowGraph

/-! ## The order of the blocks -/

/-- The blocks of a graph are those that some segments make, whatever is in them: the entry and the
exit, which have no instructions, and one block for each segment. Control passes between them as
between the segments. -/
structure Arranged (g : FlowGraph) (ss : List Segment) : Prop where
  edges : g.edges = edgesOf ss ++ branchEdgesOf ss ss
  ids : g.blocks.map (·.id) = entry :: exit :: List.range' 2 ss.length
  id_eq : ∀ id b, g.block? id = some b → b.id = id
  bare : ∀ b ∈ g.blocks, isInner b = false → b.instructions = []

theorem flatMap_filter_isInner {bs : List Block}
    (h : ∀ b ∈ bs, isInner b = false → b.instructions = []) :
    (bs.filter isInner).flatMap (·.instructions) = bs.flatMap (·.instructions) := by
  induction bs with
  | nil => rfl
  | cons b bs ih =>
    obtain ⟨hb, hbs⟩ := List.forall_mem_cons.1 h
    cases hinner : isInner b with
    | false =>
      rw [List.filter_cons_of_neg (Bool.eq_false_iff.1 hinner), ih hbs, List.flatMap_cons,
        hb hinner, List.nil_append]
    | true => rw [List.filter_cons_of_pos hinner, List.flatMap_cons, ih hbs, List.flatMap_cons]

variable {g g' : FlowGraph} {ss : List Segment} {x : Labelling} {m : Numbering}

theorem Shows.arranged (h : g.Shows ss x m) : g.Arranged ss where
  edges := h.edges
  ids := h.ids
  id_eq _ _ := h.id_eq
  bare b hb hinner := by
    have hempty : ∀ b ∈ FlowGraph.empty.blocks, b.instructions = [] := by decide
    rw [h.blocks] at hb
    rcases List.mem_append.1 hb with hb | hb
    · exact hempty b hb
    · rw [forall_isInner b hb] at hinner
      cases hinner

theorem exists_block?_of_unaddressed
    (hsame : g'.mapBlocks Block.unaddressed = g.mapBlocks Block.unaddressed) {id : BlockId}
    {b : Block} (hb : g'.block? id = some b) :
    ∃ b₀, g.block? id = some b₀ ∧ b₀.unaddressed = b.unaddressed := by
  have hslot : (g'.mapBlocks Block.unaddressed).block? id =
      (g.mapBlocks Block.unaddressed).block? id := by rw [hsame]
  rw [block?_mapBlocks, block?_mapBlocks, hb] at hslot
  exact Option.map_eq_some_iff.1 hslot.symm

namespace Arranged

theorem congr (h : g.Arranged ss)
    (hsame : g'.mapBlocks Block.unaddressed = g.mapBlocks Block.unaddressed) :
    g'.Arranged ss where
  edges := by
    have hedges : (g'.mapBlocks Block.unaddressed).edges =
        (g.mapBlocks Block.unaddressed).edges := by rw [hsame]
    exact hedges.trans h.edges
  ids := by
    have hids : (g'.mapBlocks Block.unaddressed).blocks.map (·.id) =
        (g.mapBlocks Block.unaddressed).blocks.map (·.id) := by rw [hsame]
    rw [blocks_mapBlocks, blocks_mapBlocks, List.map_map, List.map_map] at hids
    exact hids.trans h.ids
  id_eq id b hb := by
    obtain ⟨b₀, hb₀, heq⟩ := exists_block?_of_unaddressed hsame hb
    have hid : b₀.unaddressed.id = b.unaddressed.id := by rw [heq]
    exact hid.symm.trans (h.id_eq id b₀ hb₀)
  bare b hb hinner := by
    obtain ⟨id, hslot⟩ := mem_blocks.1 hb
    obtain ⟨b₀, hb₀, heq⟩ := exists_block?_of_unaddressed hsame hslot
    have hid : b₀.unaddressed.id = b.unaddressed.id := by rw [heq]
    have hinstructions : b₀.unaddressed.instructions = b.unaddressed.instructions := by rw [heq]
    have hinner₀ : isInner b₀ = false := by
      rw [isInner, show b₀.id = b.id from hid]
      exact hinner
    rw [Block.unaddressed, h.bare b₀ (mem_blocks.2 ⟨id, hb₀⟩) hinner₀] at hinstructions
    exact List.map_eq_nil_iff.1 hinstructions.symm

variable (h : g.Arranged ss)

include h

theorem ids_inner : (g.blocks.filter isInner).map (·.id) = List.range' 2 ss.length := by
  have hfilter : (g.blocks.filter isInner).map (·.id) =
      (g.blocks.map (·.id)).filter fun id => id != entry && id != exit := by
    rw [List.filter_map]
    rfl
  rw [hfilter, h.ids, List.filter_cons_of_neg (by decide), List.filter_cons_of_neg (by decide),
    List.filter_eq_self]
  intro id hid
  obtain ⟨hle, -⟩ := List.mem_range'_1.1 hid
  rw [Bool.and_eq_true, bne_iff_ne, bne_iff_ne]
  exact ⟨Nat.ne_of_gt (Nat.lt_of_succ_lt hle), Nat.ne_of_gt hle⟩

theorem sequence_eq (hlinked : Linked ss) :
    g.sequence = entry :: (g.blocks.filter isInner).map (·.id) ++ [exit] := by
  rw [h.ids_inner, FlowGraph.sequence_eq h.edges hlinked h.ids]
  rfl

/-- The instructions stand in the blocks in the same order as in the sequence. -/
theorem flatMap_sequence (hlinked : Linked ss) :
    (g.sequence.filterMap g.block?).flatMap (·.instructions) = g.instructions := by
  have hbare : ∀ id, id = entry ∨ id = exit →
      ([id].filterMap g.block?).flatMap (·.instructions) = [] := by
    intro id hid
    rw [List.flatMap_eq_nil_iff]
    intro b hb
    obtain ⟨id', hid', hslot⟩ := List.mem_filterMap.1 hb
    obtain rfl := List.mem_singleton.1 hid'
    refine h.bare b (mem_blocks.2 ⟨_, hslot⟩) ?_
    rcases hid with rfl | rfl <;> simp [isInner, h.id_eq _ b hslot]
  -- Each inner block is found again under its own id.
  have hinner : ((g.blocks.filter isInner).map (·.id)).filterMap g.block? =
      g.blocks.filter isInner := by
    have hfound : ∀ b ∈ g.blocks.filter isInner, g.block? b.id = some b := by
      intro b hb
      obtain ⟨id, hid⟩ := mem_blocks.1 (List.mem_of_mem_filter hb)
      rw [h.id_eq id b hid, hid]
    rw [List.filterMap_map]
    exact (List.filterMap_congr hfound).trans List.filterMap_some
  rw [h.sequence_eq hlinked, ← List.singleton_append, List.filterMap_append, List.filterMap_append,
    List.flatMap_append, List.flatMap_append, hbare entry (.inl rfl), hbare exit (.inr rfl),
    List.nil_append, List.append_nil, hinner]
  exact flatMap_filter_isInner h.bare

end Arranged

/-! ## The order by the table -/

/-- The ids of a graph that has been built were handed out while it was. -/
theorem Outline.inRange_graph (o : Outline) : o.graph.InRange := by
  have hissued : o.filled.length + 2 ≤ o.graph.issued := by
    show o.filled.length + 2 ≤ o.closed.length + 3
    unfold Outline.filled
    split
    · exact Nat.le_succ _
    · rw [Outline.length_segments]
  constructor
  · intro b hb
    have hid : b.id ∈ o.graph.blocks.map (·.id) := List.mem_map_of_mem hb
    rw [ids_graph, List.mem_range] at hid
    exact hid.trans_le hissued
  · intro e he
    have hends : e.head < o.filled.length + 2 ∧ e.tail < o.filled.length + 2 := by
      rw [edges_graph, List.mem_append] at he
      rcases he with he | he
      · exact lt_of_mem_edgesOf he
      · obtain ⟨k, s, hs, i, -, -, -, id, hlookup, rfl⟩ := mem_branchEdgesOf.1 he
        obtain ⟨k', s', rfl, hs', -⟩ := exists_of_lookup_namesOf hlookup
        exact ⟨Nat.add_lt_add_right (List.getElem?_eq_some_iff.1 hs).1 2,
          Nat.add_lt_add_right (List.getElem?_eq_some_iff.1 hs').1 2⟩
    exact hends.imp (·.trans_le hissued) (·.trans_le hissued)

/-- Changing blocks under their ids keeps all ids as they were handed out. -/
theorem inRange_mapBlocks {f : Block → Block} (hid : ∀ b, (f b).id = b.id) :
    (g.mapBlocks f).InRange ↔ g.InRange := by
  have hblocks : (∀ b ∈ (g.mapBlocks f).blocks, b.id < g.issued) ↔
      ∀ b ∈ g.blocks, b.id < g.issued := by
    rw [blocks_mapBlocks, List.forall_mem_map]
    simp only [hid]
  exact ⟨fun h => ⟨hblocks.1 h.block, h.edge⟩, fun h => ⟨hblocks.2 h.block, h.edge⟩⟩

theorem readdress?_numbered (g : FlowGraph) (m : Numbering) (ss : List Statement)
    (i : Instruction) : (g.mapBlocks m.block).readdress? ss i = g.readdress? ss i := by
  have hplaces : (g.mapBlocks m.block).places = g.places :=
    places_mapBlocks g (fun _ => rfl) (fun _ => rfl)
  unfold readdress?
  rw [hplaces]
  simp only [block?_mapBlocks]
  split
  · cases Statement.resolve? ss g.places i.d.name with
    | none => rfl
    | some id =>
      show ((g.block? id).map m.block).bind _ = (g.block? id).bind _
      cases g.block? id <;> rfl
  · rfl

end FlowGraph

namespace Kernel

open FlowGraph

/-! ## The lines of the instructions -/

def instructionLine (i : Instruction) : String := "        " ++ i.text ++ ";"

/-- A line looks like that of an instruction: it is indented below a label and ends with a
semicolon. -/
def isInstructionLine (line : String) : Bool :=
  decide ("        ".toList <+: line.toList ∧ line.toList.getLast? = some ';')

theorem isInstructionLine_instructionLine (i : Instruction) :
    isInstructionLine (instructionLine i) = true := by
  refine decide_eq_true ⟨?_, ?_⟩
  · rw [instructionLine, String.toList_append, String.toList_append, List.append_assoc]
    exact List.prefix_append ..
  · rw [instructionLine, String.toList_append]
    exact List.getLast?_concat ..

theorem isInstructionLine_append {front : String} (h : (front.toList.take 8).any (· != ' ') = true)
    (rest : String) : isInstructionLine (front ++ rest) = false := by
  refine decide_eq_false fun hline => ?_
  obtain ⟨c, hc, hne⟩ := List.any_eq_true.1 h
  have hspaces : "        ".toList = List.replicate 8 ' ' := rfl
  have htake := List.prefix_iff_eq_take.1 hline.1
  have hmem : c ∈ (front ++ rest).toList.take 8 := by
    rw [String.toList_append, List.take_append]
    exact List.mem_append_left _ hc
  rw [hspaces] at htake
  rw [show 8 = (List.replicate 8 ' ').length from rfl, ← htake] at hmem
  exact bne_iff_ne.1 hne (List.eq_of_mem_replicate hmem)

theorem isInstructionLine_labelLine (name : String) (b : Block) :
    isInstructionLine ("    " ++ name ++ ":" ++ b.commentText) = false := by
  refine decide_eq_false fun hline => ?_
  have hlast := hline.2
  rw [String.toList_append, toList_commentText] at hlast
  split at hlast
  · rw [List.append_nil, String.toList_append] at hlast
    exact absurd ((List.getLast?_concat ..).symm.trans hlast) (by decide)
  · rw [← List.append_assoc, List.getLast?_append] at hlast
    cases hlast

theorem filter_blockLines (used : List String) (b : Block) (position : Nat) :
    (blockLines used b position).filter isInstructionLine =
      b.instructions.map instructionLine := by
  have hlabel : (if needsLabelLine b then
      ["    " ++ lineLabel used b position ++ ":" ++ b.commentText] else []).filter
        isInstructionLine = [] := by
    split
    · exact List.filter_cons_of_neg (Bool.eq_false_iff.1 (isInstructionLine_labelLine ..))
    · rfl
  have hinstructions : (b.instructions.map instructionLine).filter isInstructionLine =
      b.instructions.map instructionLine := by
    rw [List.filter_eq_self]
    intro line hline
    obtain ⟨i, -, rfl⟩ := List.mem_map.1 hline
    exact isInstructionLine_instructionLine i
  rw [blockLines, List.filter_append, hlabel, List.nil_append]
  exact hinstructions

theorem filter_graphLines (g : FlowGraph) : (graphLines g).filter isInstructionLine =
    ((g.sequence.filterMap g.block?).flatMap (·.instructions)).map instructionLine := by
  simp only [graphLines, List.filter_flatMap, filter_blockLines]
  rw [← List.flatMap_map Prod.fst fun b : Block => b.instructions.map instructionLine,
    List.zipIdx_map_fst, List.map_flatMap]

theorem filter_declarationLines (k : Kernel) :
    k.declarationLines.filter isInstructionLine = [] := by
  rw [List.filter_eq_nil_iff]
  intro line hline
  rw [declarationLines, List.mem_append, List.mem_map, List.mem_map] at hline
  rw [Bool.not_eq_true]
  rcases hline with ⟨⟨_, v⟩, -, rfl⟩ | ⟨r, -, rfl⟩
  · have hspace : ∃ rest, "    " ++ v.text = "    " ++ v.space.directive ++ rest := by
      simp only [Variable.text, String.append_assoc]
      exact ⟨_, rfl⟩
    obtain ⟨rest, hrest⟩ := hspace
    show isInstructionLine ("    " ++ v.text) = false
    rw [hrest]
    exact isInstructionLine_append (by cases v.space <;> rfl) rest
  · simp only [Register.text, String.append_assoc]
    rw [← String.append_assoc]
    exact isInstructionLine_append rfl _

/-- The lines of a listing that look like those of instructions are those of the instructions in its
blocks. -/
theorem filter_listingLines (k : Kernel) (banner : Option String) :
    (k.listingLines banner).filter isInstructionLine =
      ((k.graph.sequence.filterMap k.graph.block?).flatMap (·.instructions)).map
        instructionLine := by
  -- The lines of instructions are indented twice, and no other line is.
  have hbanner : (banner.map fun text => "/* " ++ text ++ " */").toList.filter isInstructionLine =
      [] := by
    rw [List.filter_eq_nil_iff]
    intro line hline
    obtain ⟨text, -, rfl⟩ := Option.map_eq_some_iff.1 (Option.mem_toList.1 hline)
    rw [Bool.not_eq_true, String.append_assoc]
    exact isInstructionLine_append rfl _
  have hheader : [k.header, "\x7b"].filter isInstructionLine = [] := by
    have hname : isInstructionLine k.header = false := by
      simp only [header, String.append_assoc]
      exact isInstructionLine_append rfl _
    rw [List.filter_cons_of_neg (Bool.eq_false_iff.1 hname)]
    rfl
  have hend : ["\x7d"].filter isInstructionLine = [] := by decide
  rw [listingLines, List.filter_append, List.filter_append, List.filter_append, List.filter_append,
    hbanner, hheader, filter_declarationLines, hend, filter_graphLines, List.append_nil]
  rfl

/-! ## The order of the instructions -/

section built

variable {ss : List Statement} {k : Kernel} (h : ofStatements ss = .ok k)

include h

/-- The instructions of a kernel are those of the statements in their order, each branch with the
label of its target and all registers with their numbers. -/
theorem instructions_ofStatements : k.graph.instructions.map some =
    (Statement.instructions ss).map fun i =>
      (k.graph.readdress? ss i).map k.numbering.instruction := by
  obtain ⟨o, hout, -, hdangling, rfl⟩ := exists_outline_of_ofStatements h
  rw [instructions_withBody, instructions_graph, instructions_filled hout, List.map_map,
    List.map_map]
  refine List.map_congr_left fun i hi => ?_
  rw [graph_withBody, readdress?_numbered, readdress?_graph hout hdangling hi]
  rfl

theorem exists_arranged_afterRequests (rs : List Request) :
    ∃ segments, Linked segments ∧ (k.afterRequests rs).graph.Arranged segments ∧
      (k.afterRequests rs).graph.mapBlocks Block.unaddressed =
        k.graph.mapBlocks Block.unaddressed := by
  obtain ⟨o, hout, -, -, rfl⟩ := exists_outline_of_ofStatements h
  have hresembles := resembles_afterRequests (k := (ofDeclarations ss).withBody o.graph)
    (dataflow?_ofDeclarations ss) rs
  have harranged := (shows_withBody (ofDeclarations ss) o).arranged
  exact ⟨o.filled, (outline_sound hout).linked_filled, harranged.congr hresembles.graph,
    hresembles.graph⟩

/-- The order that a listing follows is the one by the table of placed blocks. -/
theorem sequence?_afterRequests (rs : List Request) :
    (k.afterRequests rs).graph.sequence? = some (k.afterRequests rs).graph.sequence := by
  obtain ⟨o, -, -, -, rfl⟩ := exists_outline_of_ofStatements h
  have hsame := (resembles_afterRequests (k := (ofDeclarations ss).withBody o.graph)
    (dataflow?_ofDeclarations ss) rs).graph
  have hbuilt : ((ofDeclarations ss).withBody o.graph).graph.InRange := by
    rw [graph_withBody]
    exact (inRange_mapBlocks (f := Numbering.block _) fun _ => rfl).2 o.inRange_graph
  -- The graph may have other labels by now, but has the ids of the one that was built.
  have hbare := (inRange_mapBlocks (f := Block.unaddressed) fun _ => rfl).2 hbuilt
  rw [← hsame] at hbare
  exact sequence?_eq ((inRange_mapBlocks (f := Block.unaddressed) fun _ => rfl).1 hbare)

/-- A kernel is written in the order of its source. Its blocks stand in the order of their ids,
between the entry and the exit. The lines of its instructions are those of the instructions in the
source, in their order and each once, with numbers for the names of the registers and with the
labels of their targets for branches. This remains so whatever is asked of the kernel, but for the
labels that branches go by. -/
theorem sourceOrder_ofStatements :
    k.graph.instructions.map some = (Statement.instructions ss).map (fun i =>
      (k.graph.readdress? ss i).map k.numbering.instruction) ∧
    ∀ rs,
      (k.afterRequests rs).graph.sequence =
        entry :: ((k.afterRequests rs).graph.blocks.filter isInner).map (·.id) ++ [exit] ∧
      (((k.afterRequests rs).graph.blocks.filter isInner).map (·.id)).Pairwise (· < ·) ∧
      (∀ banner, ((k.afterRequests rs).listingLines banner).filter isInstructionLine =
        (k.afterRequests rs).graph.instructions.map instructionLine) ∧
      (k.afterRequests rs).graph.instructions.map Instruction.unaddressed =
        k.graph.instructions.map Instruction.unaddressed := by
  refine ⟨instructions_ofStatements h, fun rs => ?_⟩
  obtain ⟨segments, hlinked, harranged, hsame⟩ := exists_arranged_afterRequests h rs
  refine ⟨harranged.sequence_eq hlinked, ?_, fun banner => ?_, ?_⟩
  · rw [harranged.ids_inner]
    exact List.pairwise_lt_range'
  · rw [filter_listingLines, harranged.flatMap_sequence hlinked]
  · have hinstructions : ((k.afterRequests rs).graph.mapBlocks Block.unaddressed).instructions =
        (k.graph.mapBlocks Block.unaddressed).instructions := by rw [hsame]
    rwa [instructions_mapBlocks _ fun _ => rfl, instructions_mapBlocks _ fun _ => rfl]
      at hinstructions

end built

/-- A jump over a loop, to a block that the loop does not fall into. -/
def skipping : List Statement :=
  [.instruction { opcode := .bra, d := .label "end", guard := .predicate "q" }, .label "top",
    .instruction { opcode := .neg, d := .register "x" .s32, a := .register "x" .s32 },
    .instruction { opcode := .bra, d := .label "top", guard := .predicate "p" },
    .instruction { opcode := .exit }, .label "end", .instruction { opcode := .ret }]

theorem sourceOrder_ofStatements_skipping : ∃ k, ofStatements skipping = .ok k ∧
    k.graph.instructions.map some = (Statement.instructions skipping).map (fun i =>
      (k.graph.readdress? skipping i).map k.numbering.instruction) ∧
    (k.listingLines none).filter isInstructionLine = k.graph.instructions.map instructionLine := by
  obtain ⟨k, hk⟩ : ∃ k, ofStatements skipping = .ok k := ⟨_, rfl⟩
  obtain ⟨hinstructions, hrequests⟩ := sourceOrder_ofStatements hk
  obtain ⟨-, -, hlines, -⟩ := hrequests []
  exact ⟨k, hk, hinstructions, hlines none⟩

end Kernel

end KernelListing
