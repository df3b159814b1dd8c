import KernelListing.Proofs.FlowGraph.Relabel
import KernelListing.Proofs.Kernel.Canonical
import KernelListing.Proofs.Register.Names
import KernelListing.Proofs.Text.Token

/-!
# A graph under its labels

What the graph of a kernel is like after any number of changes to its labels: its blocks are those
of the segments it was built from, each under the label and comment that a `Labelling` has for it,
and each branch goes by the label of its target (`Shows`). Building a graph gives a first labelling,
and canonicalizing replaces it as a whole.
-/

namespace KernelListing

open Text

namespace FlowGraph

/-- The labels and comments of blocks. -/
structure Labelling where
  label : BlockId → String
  comment : BlockId → String

namespace Labelling

/-- The instruction that goes by the label of its target, if it is a branch. -/
def retarget (x : Labelling) (ss : List Segment) (i : Instruction) : Instruction :=
  if i.opcode = .bra then
    i.renameDestination ((((namesOf ss).lookup i.d.name).map x.label).getD "")
  else i

def block (x : Labelling) (ss : List Segment) (id : BlockId) (s : Segment) : Block :=
  { id, label := x.label id, comment := x.comment id,
    instructions := s.instructions.map (x.retarget ss) }

/-- The labelling that comes from the labels in front of the segments. -/
def ofSegments (ss : List Segment) : Labelling where
  label id := (ss[id - 2]?.map (·.label)).getD ""
  comment _ := ""

def canonicalize (x : Labelling) (kernelId : Nat) : Labelling where
  label := Label.canonical kernelId
  comment := x.label

/-- The labels of a labelling are labels, and tell apart the blocks that have any. -/
structure Proper (x : Labelling) (ss : List Segment) : Prop where
  label : ∀ id, x.label id = "" ∨ isLabelName (x.label id).toList = true
  comment : ∀ id, IsToken (x.comment id).toList
  distinct : ∀ k < ss.length, ∀ k' < ss.length, x.label (k + 2) = x.label (k' + 2) →
    x.label (k + 2) ≠ "" → k = k'
  named : ∀ k s, ss[k]? = some s → s.labels ≠ [] → x.label (k + 2) ≠ ""

end Labelling

/-- A graph consists of the blocks of some segments under their labels, with numbers for the names
of the registers. -/
structure Shows (g : FlowGraph) (ss : List Segment) (x : Labelling) (m : Numbering) : Prop where
  edges : g.edges = edgesOf ss ++ branchEdgesOf ss ss
  blocks : g.blocks = FlowGraph.empty.blocks ++
    (numbered ss).map fun (s, id) => m.block (x.block ss id s)
  entry : g.block? 0 = FlowGraph.empty.block? 0
  exit : g.block? 1 = FlowGraph.empty.block? 1
  block : ∀ k, g.block? (k + 2) = ss[k]?.map fun s => m.block (x.block ss (k + 2) s)

section shows

variable {g : FlowGraph} {ss : List Segment} {x : Labelling} {m : Numbering}

theorem isInner_block (k : Nat) (s : Segment) :
    isInner (m.block (x.block ss (k + 2) s)) = true := by
  simp [isInner, Numbering.block, Labelling.block, FlowGraph.entry, FlowGraph.exit]

theorem forall_isInner :
    ∀ b ∈ (numbered ss).map fun (s, id) => m.block (x.block ss id s), isInner b = true :=
  List.forall_mem_map.2 (forall_mem_numbered.2 fun k s _ => isInner_block k s)

theorem mem_labels_of_shows (h : g.Shows ss x m) {k : Nat} (hk : k < ss.length) :
    x.label (k + 2) ∈ g.blocks.map (·.label) := by
  rw [h.blocks, List.map_append, List.map_map]
  refine List.mem_append_right _ (List.mem_map.2 ⟨(ss[k], k + 2), ?_, rfl⟩)
  exact mem_numbered.2 ⟨Nat.le_add_left 2 k, List.getElem?_eq_getElem hk⟩

theorem exists_of_isInner (h : g.Shows ss x m) {id : BlockId} {b : Block} (hb : g.block? id = some b)
    (hinner : isInner b = true) : ∃ k s, id = k + 2 ∧ ss[k]? = some s ∧
      b = m.block (x.block ss (k + 2) s) := by
  match id with
  | 0 =>
    rw [h.entry] at hb
    cases hb
    cases hinner
  | 1 =>
    rw [h.exit] at hb
    cases hb
    cases hinner
  | k + 2 =>
    rw [h.block, Option.map_eq_some_iff] at hb
    obtain ⟨s, hs, rfl⟩ := hb
    exact ⟨k, s, rfl, hs, rfl⟩

theorem Shows.ids (h : g.Shows ss x m) : g.blocks.map (·.id) =
    FlowGraph.entry :: FlowGraph.exit :: List.range' 2 ss.length := by
  have hnumbers : (numbered ss).map Prod.snd = List.range' 2 ss.length := List.zipIdx_map_snd ..
  rw [h.blocks, List.map_append, List.map_map, ← hnumbers]
  rfl

theorem Shows.id_eq (h : g.Shows ss x m) {id : BlockId} {b : Block} (hb : g.block? id = some b) :
    b.id = id := by
  match id with
  | 0 =>
    rw [h.entry] at hb
    cases hb
    rfl
  | 1 =>
    rw [h.exit] at hb
    cases hb
    rfl
  | k + 2 =>
    rw [h.block, Option.map_eq_some_iff] at hb
    obtain ⟨s, -, rfl⟩ := hb
    rfl

theorem Shows.lookup_canonicalRenaming (h : g.Shows ss x m) (hx : x.Proper ss) {k : Nat}
    {s : Segment} (hs : ss[k]? = some s) (hne : x.label (k + 2) ≠ "") (kernelId : Nat) :
    (g.canonicalRenaming kernelId).lookup (x.label (k + 2)) =
      some (Label.canonical kernelId (k + 2)) := by
  have hb : g.block? (k + 2) = some (m.block (x.block ss (k + 2) s)) := by
    rw [h.block, hs]
    rfl
  refine FlowGraph.lookup_canonicalRenaming (fun _ _ => h.id_eq) ?_ hb (isInner_block k s) hne
    kernelId
  intro id id' b b' hb hb' hinner hinner' hlabel hne
  obtain ⟨k, s, rfl, hs, rfl⟩ := exists_of_isInner h hb hinner
  obtain ⟨k', s', rfl, hs', rfl⟩ := exists_of_isInner h hb' hinner'
  rw [hx.distinct k (List.getElem?_eq_some_iff.1 hs).1 k' (List.getElem?_eq_some_iff.1 hs').1
    hlabel hne]

/-- What is asked of the branches of some segments: each has a target, and no register. -/
def Aimed (ss : List Segment) : Prop :=
  ∀ s ∈ ss, ∀ i ∈ s.instructions, i.opcode = .bra →
    i.d.isNumbered = false ∧ ∃ id, (namesOf ss).lookup i.d.name = some id

@[simp] theorem opcode_retarget (x : Labelling) (ss : List Segment) (i : Instruction) :
    (x.retarget ss i).opcode = i.opcode := by
  unfold Labelling.retarget
  split <;> rfl

theorem retarget_of_ne_bra {i : Instruction} (h : i.opcode ≠ .bra) : x.retarget ss i = i :=
  if_neg h

theorem retarget_of_lookup {i : Instruction} (h : i.opcode = .bra) {id : BlockId}
    (hlookup : (namesOf ss).lookup i.d.name = some id) :
    x.retarget ss i = i.renameDestination (x.label id) := by
  rw [Labelling.retarget, if_pos h, hlookup]
  rfl

theorem retarget_renameDestination {renames : List (String × String)} {i : Instruction}
    (h : i.opcode = .bra) {l l' : String} (hlookup : renames.lookup l = some l') :
    FlowGraph.retarget renames (i.renameDestination l) = i.renameDestination l' := by
  have hop : (i.renameDestination l).opcode = .bra := h
  have hname : (i.renameDestination l).d.name = l := rfl
  rw [FlowGraph.retarget, if_pos hop, hname, hlookup]
  rfl

theorem retargetBlock_canonicalBlock (h : g.Shows ss x m) (hx : x.Proper ss) (haim : Aimed ss)
    {k : Nat} {s : Segment} (hs : ss[k]? = some s) (kernelId : Nat) :
    retargetBlock (g.canonicalRenaming kernelId)
        (canonicalBlock kernelId (m.block (x.block ss (k + 2) s))) =
      m.block ((x.canonicalize kernelId).block ss (k + 2) s) := by
  rw [canonicalBlock, if_pos (isInner_block k s)]
  simp only [retargetBlock, Numbering.block, Labelling.block, List.map_map]
  congr 1
  refine List.map_congr_left fun i hi => ?_
  simp only [Function.comp_apply]
  by_cases hop : i.opcode = .bra
  · obtain ⟨hnumbered, id, hlookup⟩ := haim s (List.mem_of_getElem? hs) i hi hop
    obtain ⟨k', s', rfl, hs', hl⟩ := exists_of_lookup_namesOf hlookup
    have htable := h.lookup_canonicalRenaming hx hs'
      (hx.named k' s' hs' (List.ne_nil_of_mem hl)) kernelId
    rw [retarget_of_lookup hop hlookup, retarget_of_lookup hop hlookup,
      m.instruction_renameDestination hnumbered, m.instruction_renameDestination hnumbered,
      retarget_renameDestination ((m.opcode_instruction i).trans hop) htable]
    rfl
  · rw [retarget_of_ne_bra hop, retarget_of_ne_bra hop, retarget,
      if_neg (by rwa [m.opcode_instruction])]

/-- Canonicalizing a graph replaces its labelling. -/
theorem Shows.canonicalize (h : g.Shows ss x m) (hx : x.Proper ss) (haim : Aimed ss)
    (kernelId : Nat) : (g.canonicalize kernelId).Shows ss (x.canonicalize kernelId) m := by
  constructor
  · exact h.edges
  · rw [FlowGraph.canonicalize, blocks_mapBlocks, h.blocks, List.map_append, List.map_map]
    congr 1
    exact List.map_congr_left (forall_mem_numbered.2 fun k s hs =>
      retargetBlock_canonicalBlock h hx haim hs kernelId)
  · rw [FlowGraph.canonicalize, block?_mapBlocks, h.entry]
    rfl
  · rw [FlowGraph.canonicalize, block?_mapBlocks, h.exit]
    rfl
  · intro k
    rw [FlowGraph.canonicalize, block?_mapBlocks, h.block]
    cases hs : ss[k]? with
    | none => rfl
    | some s => exact congrArg some (retargetBlock_canonicalBlock h hx haim hs kernelId)

theorem Labelling.Proper.canonicalize (h : x.Proper ss) (kernelId : Nat) :
    (x.canonicalize kernelId).Proper ss := by
  constructor
  · exact fun id => .inr (Label.isLabelName_canonical kernelId id)
  · intro id
    rcases h.label id with hempty | hname
    · show IsToken (x.label id).toList
      rw [hempty]
      exact fun c hc => by cases hc
    · exact isToken_of_isLabelName hname
  · intro k _ k' _ hlabel _
    exact Nat.add_right_cancel (Label.canonical_injective kernelId hlabel)
  · exact fun k s _ _ => Label.canonical_ne_empty kernelId (k + 2)

end shows

/-! ## The first labelling -/

section outline

variable {ss : List Statement} {o : Outline} (h : outline ss = .ok o)

theorem retarget_ofSegments (ss : List Segment) (i : Instruction) :
    (Labelling.ofSegments ss).retarget ss i = redirect ss i := by
  unfold Labelling.retarget redirect landing
  cases (namesOf ss).lookup i.d.name <;> rfl

/-- The graph of an outline under the labels in front of its segments. -/
theorem shows_graph (o : Outline) (m : Numbering) :
    (o.graph.mapBlocks m.block).Shows o.filled (.ofSegments o.filled) m := by
  have hblock : ∀ k s, o.filled[k]? = some s → (s.redirect o.filled).block (k + 2) =
      (Labelling.ofSegments o.filled).block o.filled (k + 2) s := by
    intro k s hs
    have hlabel : (Labelling.ofSegments o.filled).label (k + 2) = s.label := by
      simp [Labelling.ofSegments, hs]
    simp only [Segment.block, Segment.redirect, Labelling.block, hlabel,
      funext (retarget_ofSegments o.filled)]
    rfl
  constructor
  · rfl
  · rw [blocks_mapBlocks, o.blocks_graph, List.map_append, List.map_map]
    congr 1
    exact List.map_congr_left (forall_mem_numbered.2 fun k s hs =>
      congrArg m.block (hblock k s hs))
  · rfl
  · rfl
  · intro k
    rw [block?_mapBlocks, o.block?_graph]
    cases hs : o.filled[k]? with
    | none => rfl
    | some s => exact congrArg (fun b => some (m.block b)) (hblock k s hs)

include h

theorem proper_ofSegments (hlabels : ∀ l, .label l ∈ ss → isLabelName l.toList = true) :
    (Labelling.ofSegments o.filled).Proper o.filled := by
  have hlabel : ∀ k s, o.filled[k]? = some s →
      (Labelling.ofSegments o.filled).label (k + 2) = s.label := by
    intro k s hs
    simp [Labelling.ofSegments, hs]
  -- A label on a block is one of the source, and those are names.
  have hname : ∀ (k : Nat) (s : Segment), o.filled[k]? = some s → s.labels ≠ [] →
      isLabelName s.label.toList = true :=
    fun k s hs hne => hlabels _ (label_mem_of_filled h hs (Segment.label_mem hne))
  constructor
  · intro id
    cases hs : o.filled[id - 2]? with
    | none => exact .inl (by simp [Labelling.ofSegments, hs])
    | some s =>
      by_cases hne : s.labels = []
      · exact .inl (by simp [Labelling.ofSegments, hs, Segment.label, hne])
      · refine .inr ?_
        simpa [Labelling.ofSegments, hs] using hname (id - 2) s hs hne
  · exact fun id c hc => by cases hc
  · intro k hk k' hk' heq hne
    have hs := List.getElem?_eq_getElem hk
    have hs' := List.getElem?_eq_getElem hk'
    rw [hlabel k _ hs] at heq hne
    rw [hlabel k' _ hs'] at heq
    have hmem := Segment.label_mem_of_ne hne
    have hmem' := Segment.label_mem_of_ne (heq ▸ hne)
    rw [← heq] at hmem'
    exact index_unique (nodup_labels_filled h) hs hs' hmem hmem'
  · intro k s hs hne hempty
    rw [hlabel k s hs] at hempty
    have hl := hname k s hs hne
    rw [hempty] at hl
    cases hl

theorem aimed_filled (hnone : dangling? o.filled o.filled = none)
    (hnumbered : ∀ i ∈ Statement.instructions ss, i.opcode = .bra → i.d.isNumbered = false) :
    Aimed o.filled := by
  intro s hs i hi hop
  obtain ⟨k, hk⟩ := List.mem_iff_getElem?.1 hs
  have hmem : i ∈ Statement.instructions ss := by
    rw [← instructions_filled h]
    exact List.mem_flatMap.2 ⟨s, hs, hi⟩
  exact ⟨hnumbered i hmem hop, exists_lookup_of_bra (outline_sound h).filled hnone hk hi hop⟩

end outline

end FlowGraph

theorem Kernel.shows_withBody (k : Kernel) (o : FlowGraph.Outline) :
    (k.withBody o.graph).graph.Shows o.filled (.ofSegments o.filled)
      (.ofNames o.graph.registerNames) := by
  rw [graph_withBody]
  exact FlowGraph.shows_graph o _

end KernelListing
