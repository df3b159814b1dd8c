import KernelListing.Proofs.Kernel.Listing

/-!
# Branches land on label lines

In a listing each block but the entry and the exit stands behind a label line of its own, and each
branch is written with the name on the label line of the block that it was resolved to. This
remains so after any number of changes to canonical labels, whatever the labels in the source look
like: the labels of a graph under a proper labelling tell its blocks apart, a synthetic name is none
of them, and a block that a branch goes to has a label.
-/

namespace KernelListing

open Text

theorem Instruction.head?_argumentTexts_of_label {i : Instruction} (h : i.d.mode = .label) :
    i.argumentTexts.head? =
      some (i.d.name ++ if i.q.isValid then "|" ++ i.q.text else "") := by
  have hvalid : (i.operand .d).isValid = true := by
    show (i.d.mode != .invalid) = true
    rw [h]
    rfl
  have htext : (i.operand .d).text = i.d.name := Operand.text_label h
  rw [argumentTexts, Slot.arguments, List.filter_cons_of_pos (by exact hvalid), List.map_cons,
    List.head?_cons, argumentText, htext]
  simp

namespace Kernel

open FlowGraph

/-- The name on the label line of an inner block, whose position in the listing is its id. -/
def lineName (g : FlowGraph) (b : Block) : String := lineLabel (g.blocks.map (·.label)) b b.id

theorem lineName_of_ne_empty (g : FlowGraph) {b : Block} (h : b.label ≠ "") :
    lineName g b = b.label :=
  if_neg (by simpa using h)

/-- The lines of an inner block: its label line and its instructions. -/
def labelledLines (g : FlowGraph) (b : Block) : List String :=
  ("    " ++ lineName g b ++ ":" ++ b.commentText) ::
    b.instructions.map fun i => "        " ++ i.text ++ ";"

/-- The lines of a listing in front of the blocks. -/
def frontLines (k : Kernel) (banner : Option String) : List String :=
  (banner.map fun text => "/* " ++ text ++ " */").toList ++ [k.header, "\x7b"] ++
    k.declarationLines

section shows

variable {g : FlowGraph} {ss : List Segment} {x : Labelling} {m : Numbering}

theorem innerBlocks_eq (h : g.Shows ss x m) :
    g.blocks.filter isInner = (numbered ss).map fun (s, id) => m.block (x.block ss id s) := by
  rw [h.blocks, List.filter_append, List.filter_eq_self.2 forall_isInner]
  rfl

/-- The lines of a graph are those of its inner blocks. -/
theorem graphLines_eq_labelledLines (h : g.Shows ss x m) (hlinked : Linked ss)
    (hclosed : ∀ s ∈ ss, s.Closed) :
    graphLines g = (g.blocks.filter isInner).flatMap (labelledLines g) := by
  rw [graphLines_eq h hlinked, innerBlocks_eq h, List.flatMap_map]
  refine List.flatMap_congr fun p hp => ?_
  obtain ⟨s, id⟩ := p
  have hne : (m.block (x.block ss id s)).isEmpty = false := by
    have hs := mem_of_mem_numbered hp
    simpa [Block.isEmpty, Numbering.block, Labelling.block] using (hclosed s hs).ne_nil
  rw [blockLines, needsLabelLine, hne, Bool.not_false, Bool.true_or, if_pos rfl]
  rfl

theorem nodup_lineName (h : g.Shows ss x m) (hx : x.Proper ss) :
    ((g.blocks.filter isInner).map (lineName g)).Nodup := by
  have hids : (numbered ss).map Prod.snd = List.range' 2 ss.length := List.zipIdx_map_snd ..
  have hnames : (g.blocks.filter isInner).map (lineName g) =
      ((numbered ss).map Prod.snd).map (x.line (g.blocks.map (·.label))) := by
    rw [innerBlocks_eq h, List.map_map, List.map_map]
    rfl
  rw [hnames, hids]
  exact nodup_line hx fun k hk => mem_labels_of_shows h hk

theorem exists_of_instruction?_shows (h : g.Shows ss x m) {p : BlockId × Nat} {i : Instruction}
    (hi : g.instruction? p = some i) :
    ∃ s ∈ ss, ∃ i₀ ∈ s.instructions, i = m.instruction (x.retarget ss i₀) := by
  obtain ⟨b, hb, hi⟩ := Option.bind_eq_some_iff.1 hi
  have hmem := mem_blocks.2 ⟨_, hb⟩
  have hi := List.mem_of_getElem? hi
  rw [h.blocks] at hmem
  rcases List.mem_append.1 hmem with hempty | hblock
  · -- The entry and the exit have no instructions.
    have hnone : ∀ b ∈ FlowGraph.empty.blocks, b.instructions = [] := by decide
    rw [hnone b hempty] at hi
    cases hi
  · obtain ⟨⟨s, id⟩, hs, rfl⟩ := List.mem_map.1 hblock
    obtain ⟨i₁, hi₁, rfl⟩ := List.mem_map.1 hi
    obtain ⟨i₀, hi₀, rfl⟩ := List.mem_map.1 hi₁
    exact ⟨s, mem_of_mem_numbered hs, i₀, hi₀, rfl⟩

theorem mode_of_bra_shows (h : g.Shows ss x m)
    (hmodes : ∀ s ∈ ss, ∀ i ∈ s.instructions, i.opcode = .bra → i.d.mode = .label)
    {p : BlockId × Nat} {i : Instruction} (hi : g.instruction? p = some i)
    (hop : i.opcode = .bra) : i.d.mode = .label := by
  obtain ⟨s, hs, i₀, hi₀, rfl⟩ := exists_of_instruction?_shows h hi
  rw [m.opcode_instruction, opcode_retarget] at hop
  have hmode : (x.retarget ss i₀).d.mode = .label := by
    rw [Labelling.retarget, if_pos hop]
    exact hmodes s hs i₀ hi₀ hop
  rw [m.instruction_eq]
  show (m.operand (x.retarget ss i₀).d).mode = .label
  rw [m.operand_of_not_isNumbered (Operand.isNumbered_of_label hmode), hmode]

end shows

theorem shows_canonicalizeAll {k : Kernel} {ss : List Segment} {x : Labelling} {m : Numbering}
    (h : k.graph.Shows ss x m) (hx : x.Proper ss) (haim : Aimed ss) (kernelIds : List Nat) :
    ∃ x' : Labelling, (k.canonicalizeAll kernelIds).graph.Shows ss x' m ∧ x'.Proper ss := by
  induction kernelIds generalizing k x with
  | nil => exact ⟨x, h, hx⟩
  | cons kernelId kernelIds ih =>
    exact ih (k := k.canonicalize kernelId) (h.canonicalize hx haim kernelId)
      (hx.canonicalize kernelId)

/-- In a listing each block but the entry and the exit has one label line, right in front of its
instructions, and the entry and the exit have none. No two label lines have the same name, and the
first argument of each branch is the name on the label line of the block that it was resolved to. -/
theorem labelLines_canonicalizeAll {ss : List Statement} {k : Kernel} (h : ofStatements ss = .ok k)
    (hlabels : ∀ l, .label l ∈ ss → isLabelName l.toList = true)
    (hmodes : ∀ i ∈ Statement.instructions ss, i.opcode = .bra → i.d.mode = .label)
    (kernelIds : List Nat) (banner : Option String) :
    (k.canonicalizeAll kernelIds).listing banner =
      ofLines ((k.canonicalizeAll kernelIds).frontLines banner ++
        ((k.canonicalizeAll kernelIds).graph.blocks.filter isInner).flatMap
          (labelledLines (k.canonicalizeAll kernelIds).graph) ++ ["\x7d"]) ∧
    (((k.canonicalizeAll kernelIds).graph.blocks.filter isInner).map
      (lineName (k.canonicalizeAll kernelIds).graph)).Nodup ∧
    (∀ p i, (k.canonicalizeAll kernelIds).graph.instruction? p = some i → i.opcode = .bra →
      ∃ id b, Statement.target? ss k.graph.places p = some id ∧
        (k.canonicalizeAll kernelIds).graph.block? id = some b ∧ isInner b = true ∧
        i.argumentTexts.head? = some (lineName (k.canonicalizeAll kernelIds).graph b ++
          if i.q.isValid then "|" ++ i.q.text else "")) := by
  obtain ⟨o, hout, -, hdangling, rfl⟩ := exists_outline_of_ofStatements h
  have hsound := outline_sound hout
  have haim := aimed_filled hout hdangling fun i hi hop =>
    Operand.isNumbered_of_label (hmodes i hi hop)
  obtain ⟨x, hshows, hx⟩ := shows_canonicalizeAll (shows_withBody (ofDeclarations ss) o)
    (proper_ofSegments hout hlabels) haim kernelIds
  have hne : ∀ l, .label l ∈ ss → l ≠ "" := by
    rintro l hl rfl
    cases hlabels "" hl
  have haddressed := addressed_canonicalizeAll (addressed_ofStatements h hne hmodes) kernelIds
  refine ⟨?_, nodup_lineName hshows hx, fun p i hi hop => ?_⟩
  · rw [listing, listingLines,
      graphLines_eq_labelledLines hshows hsound.linked_filled hsound.filled]
    rfl
  · obtain ⟨id, b, htarget, hb, hinner, hlabel, hname⟩ := haddressed.branch p i hi hop
    refine ⟨id, b, htarget, hb, hinner, ?_⟩
    -- Only a destination that is a label is written by its name alone.
    have hmode : i.d.mode = .label := by
      refine mode_of_bra_shows hshows (fun s hs i hi => hmodes i ?_) hi hop
      rw [← instructions_filled hout]
      exact List.mem_flatMap.2 ⟨s, hs, hi⟩
    rw [Instruction.head?_argumentTexts_of_label hmode, hname, lineName_of_ne_empty _ hlabel]

/-- A label that looks like the synthetic name of the block behind it, and one that is the label of
the entry. -/
def imitating : List Statement :=
  [.label "$__Block_3",
    .instruction { opcode := .bra, d := .label "entry", guard := .predicate "p" },
    .instruction { opcode := .bra, d := .label "$__Block_3" },
    .label "entry", .instruction { opcode := .exit }]

theorem labelLines_canonicalizeAll_imitating : ∃ k, ofStatements imitating = .ok k ∧
    k.listing none = ofLines (k.frontLines none ++
      (k.graph.blocks.filter isInner).flatMap (labelledLines k.graph) ++ ["\x7d"]) ∧
    ((k.graph.blocks.filter isInner).map (lineName k.graph)).Nodup := by
  obtain ⟨k, hk⟩ : ∃ k, ofStatements imitating = .ok k := ⟨_, rfl⟩
  have hlabels : ∀ l, .label l ∈ imitating → isLabelName l.toList = true := by
    simp only [imitating, List.mem_cons, Statement.label.injEq, reduceCtorEq, false_or]
    rintro l (rfl | rfl | h)
    · decide
    · decide
    · cases h
  obtain ⟨hlines, hnames, -⟩ := labelLines_canonicalizeAll hk hlabels (by decide) [] none
  exact ⟨k, hk, hlines, hnames⟩

end Kernel

end KernelListing
