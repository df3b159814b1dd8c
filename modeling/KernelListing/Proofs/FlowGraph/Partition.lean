import KernelListing.Proofs.FlowGraph.Places

/-!
# The partition into blocks

Building a graph cuts the instructions among the statements into blocks, in their order and
without losing any. `Statement.Leader` says where a block begins, in terms of the statements
alone: at the first instruction, behind one that transfers control, and behind a label.

An outline is cut at its leaders because each of its segments but the first has a label or
stands behind a transfer (`Separated`), while no instruction inside a segment has either.
-/

namespace KernelListing

namespace Statement

/-- The labels that stand right in front of an instruction, which has `j` others in front of it. -/
def labelsBefore (ss : List Statement) (j : Nat) : List String :=
  ((labelsAt 0 ss).filter (·.2 = j)).map Prod.fst

/-- A block begins with this instruction. -/
inductive Leader (ss : List Statement) : Nat → Prop where
  /-- The first instruction. -/
  | first : Leader ss 0
  /-- An instruction behind one that transfers control. -/
  | behind {j : Nat} {i : Instruction} (hi : (instructions ss)[j]? = some i)
    (hop : i.opcode ∈ [.bra, .exit, .ret]) : Leader ss (j + 1)
  /-- An instruction behind a label. -/
  | labelled {j : Nat} (hlabels : labelsBefore ss j ≠ []) : Leader ss j

/-- The block that a label is resolved to: the one with the instruction that it denotes, where
the places are those of the instructions among some statements. -/
def resolve? (ss : List Statement) (places : List (BlockId × Nat)) (name : String) :
    Option BlockId := do
  let j ← (landings ss).lookup name
  let q ← places[j]?
  return q.1

end Statement

namespace FlowGraph

/-- The instruction as it stands in a graph: a branch goes by the label of the block that its own
label is resolved to. -/
def readdress? (g : FlowGraph) (ss : List Statement) (i : Instruction) : Option Instruction :=
  if i.opcode = .bra then do
    let id ← Statement.resolve? ss g.places i.d.name
    let b ← g.block? id
    return i.renameDestination b.label
  else some i

/-! ## Where segments begin -/

/-- Each segment but the first has a label or stands behind an instruction that transfers
control. -/
def Separated (ss : List Segment) : Prop :=
  ∀ k s, ss[k]? = some s →
    k = 0 ∨ s.labels ≠ [] ∨ ∃ i, lastBehind (ss.take k) = some i ∧ i.opcode.isControlFlow = true

theorem separated_concat {ss : List Segment} {s : Segment} :
    Separated (ss ++ [s]) ↔ Separated ss ∧ (ss.length = 0 ∨ s.labels ≠ [] ∨
      ∃ i, lastBehind ss = some i ∧ i.opcode.isControlFlow = true) :=
  forall_concat (motive := fun k front s' => k = 0 ∨ s'.labels ≠ [] ∨
    ∃ i, lastBehind front = some i ∧ i.opcode.isControlFlow = true)

theorem separated_segments {ss : List Statement} {o : Outline} (h : outline ss = .ok o) :
    Separated o.segments := by
  refine outline_induction (motive := fun _ o => Separated o.segments)
    (separated_concat.2 ⟨nofun, .inl rfl⟩) (fun ss s o o' _ ih ht => ?_) h
  obtain ⟨hclosed, hlast⟩ := separated_concat.1 ih
  cases ht with
  | labelHere => exact separated_concat.2 ⟨hclosed, .inr (.inl (by simp [Outline.name]))⟩
  | labelNext => exact separated_concat.2 ⟨ih, .inr (.inl (by simp))⟩
  | plain => exact separated_concat.2 ⟨hclosed, hlast⟩
  | @transfer i htransfer =>
    refine separated_concat.2
      ⟨separated_concat.2 ⟨hclosed, hlast⟩, .inr (.inr ⟨i, ?_, htransfer⟩)⟩
    simp [Outline.segments, Outline.lastBehind_concat, Outline.push]
  | declaration => exact ih

theorem filled_prefix_segments (o : Outline) : o.filled <+: o.segments := by
  unfold Outline.filled
  split
  · exact List.prefix_append ..
  · exact List.prefix_rfl

theorem getElem?_segments {o : Outline} {k : Nat} {s : Segment} (hs : o.filled[k]? = some s) :
    o.segments[k]? = some s ∧ o.segments.take k = o.filled.take k := by
  have hk := (List.getElem?_eq_some_iff.1 hs).1
  obtain ⟨rest, hrest⟩ := filled_prefix_segments o
  rw [← hrest, List.getElem?_append_left hk, List.take_append_of_le_length (Nat.le_of_lt hk)]
  exact ⟨hs, rfl⟩

/-! ## The labels in front of an instruction -/

theorem le_of_mem_labelsOf {n : Nat} {ss : List Segment} {l : String} {j : Nat}
    (h : (l, j) ∈ labelsOf n ss) : n ≤ j := by
  induction ss generalizing n with
  | nil => cases h
  | cons s ss ih =>
    rcases List.mem_append.1 h with h | h
    · obtain ⟨l', -, heq⟩ := List.mem_map.1 h
      exact Nat.le_of_eq (Prod.mk.inj heq).2
    · exact Nat.le_of_add_right_le (ih h)

theorem lt_of_mem_labelsOf {ss : List Segment} (hfilled : ∀ s ∈ ss, s.instructions ≠ [])
    {l : String} {j : Nat} (h : (l, j) ∈ labelsOf 0 ss) : j < sizeOf ss := by
  obtain ⟨k, s, hs, -, rfl⟩ := mem_labelsOf.1 h
  exact sizeOf_take_lt hs (hfilled s (List.mem_of_getElem? hs))

/-- The labels right in front of an instruction are those of the segment that begins there. -/
theorem labelsBefore_eq {ss : List Statement} {o : Outline} (h : outline ss = .ok o) {k m : Nat}
    {s : Segment} (hs : o.filled[k]? = some s) (hm : m < s.instructions.length) :
    Statement.labelsBefore ss (sizeOf (o.filled.take k) + m) =
      if m = 0 then s.labels else [] := by
  obtain ⟨hs', htake⟩ := getElem?_segments hs
  have hfilled : ∀ s' ∈ o.filled.take k, s'.instructions ≠ [] := fun s' hs' =>
    ((outline_sound h).filled s' (List.mem_of_mem_take hs')).ne_nil
  -- Each segment in front has an instruction behind its labels, so they stand further to the front.
  have hfront : (labelsOf 0 (o.filled.take k)).filter
      (·.2 = sizeOf (o.filled.take k) + m) = [] := by
    refine List.filter_eq_nil_iff.2 fun p hp => ?_
    have hlt := lt_of_mem_labelsOf hfilled (show (p.1, p.2) ∈ _ from hp)
    simp only [decide_eq_true_eq]
    omega
  have hrest : (labelsOf (sizeOf (o.filled.take k) + s.instructions.length)
      (o.segments.drop (k + 1))).filter (·.2 = sizeOf (o.filled.take k) + m) = [] := by
    refine List.filter_eq_nil_iff.2 fun p hp => ?_
    have hle := le_of_mem_labelsOf (show (p.1, p.2) ∈ _ from hp)
    simp only [decide_eq_true_eq]
    omega
  rw [Statement.labelsBefore, labelsAt_outline h, split_at hs', htake, labelsOf_append,
    List.filter_append, Nat.zero_add, labelsOf, List.filter_append, hfront, hrest, List.nil_append,
    List.append_nil, List.filter_map, List.map_map]
  split
  · next hzero => simp [hzero, Function.comp_def]
  · next hne => simp [hne]

theorem labelsBefore_start {ss : List Statement} {o : Outline} (h : outline ss = .ok o) {k : Nat}
    {s : Segment} (hs : o.filled[k]? = some s) :
    Statement.labelsBefore ss (sizeOf (o.filled.take k)) = s.labels := by
  have hne := ((outline_sound h).closed_of_getElem? hs).ne_nil
  simpa using labelsBefore_eq h hs (List.length_pos_iff.2 hne)

/-! ## Leaders -/

theorem transfers_iff {op : Opcode} :
    op ∈ [.bra, .exit, .ret] ↔ op.isControlFlow = true ∧ op ≠ .call := by
  cases op <;> decide

theorem leader_start {ss : List Statement} {o : Outline} (h : outline ss = .ok o) {k : Nat}
    {s : Segment} (hs : o.filled[k]? = some s) :
    Statement.Leader ss (sizeOf (o.filled.take k)) := by
  obtain ⟨hs', htake⟩ := getElem?_segments hs
  rcases separated_segments h k s hs' with rfl | hlabels | ⟨i, hi, htransfer⟩
  · exact .first
  · exact .labelled (by rwa [labelsBefore_start h hs])
  · cases k with
    | zero => exact .first
    | succ k =>
      obtain ⟨s₀, hs₀⟩ : ∃ s₀, o.filled[k]? = some s₀ := by
        have hk := (List.getElem?_eq_some_iff.1 hs).1
        exact ⟨_, List.getElem?_eq_getElem (Nat.lt_of_succ_lt hk)⟩
      have hclosed := (outline_sound h).closed_of_getElem? hs₀
      have hpos := List.length_pos_iff.2 hclosed.ne_nil
      rw [htake, Outline.lastBehind_take hs₀, List.getLast?_eq_getElem?] at hi
      have hat := (getElem?_instructions h hs₀ (Nat.sub_lt hpos Nat.one_pos)).trans hi
      have hcall := hclosed.no_call i (List.mem_of_getElem? hi)
      have hsize : sizeOf (o.filled.take (k + 1)) =
          sizeOf (o.filled.take k) + (s₀.instructions.length - 1) + 1 := by
        rw [sizeOf_take_succ hs₀, Nat.add_assoc, Nat.sub_add_cancel hpos]
      rw [hsize]
      exact .behind hat (transfers_iff.2 ⟨htransfer, hcall⟩)

theorem eq_zero_of_leader {ss : List Statement} {o : Outline} (h : outline ss = .ok o) {k m : Nat}
    {s : Segment} (hs : o.filled[k]? = some s) (hm : m < s.instructions.length)
    (hleader : Statement.Leader ss (sizeOf (o.filled.take k) + m)) : m = 0 := by
  generalize hj : sizeOf (o.filled.take k) + m = j at hleader
  cases hleader with
  | first => exact Nat.eq_zero_of_add_eq_zero_left hj
  | @behind j i hi hop =>
    -- The transfer would stand in the same segment, and not at its end.
    cases m with
    | zero => rfl
    | succ m =>
      obtain rfl : sizeOf (o.filled.take k) + m = j := Nat.succ.inj hj
      have hat := getElem?_instructions h hs (Nat.lt_of_succ_lt hm)
      rw [hi] at hat
      have hplain := ((outline_sound h).closed_of_getElem? hs).plain_of_lt hat.symm hm
      rw [(transfers_iff.1 hop).1] at hplain
      cases hplain
  | labelled hlabels =>
    rw [← hj, labelsBefore_eq h hs hm] at hlabels
    by_contra hne
    exact hlabels (if_neg hne)

/-! ## The graph -/

theorem mem_blocks_graph {o : Outline} {b : Block} (hb : b ∈ o.graph.blocks) :
    b = { id := entry, label := entryLabel } ∨ b = { id := exit, label := exitLabel } ∨
      ∃ (k : Nat) (s : Segment), o.filled[k]? = some s ∧
        b = (s.redirect o.filled).block (k + 2) := by
  obtain ⟨id, hid⟩ := mem_blocks.1 hb
  match id with
  | 0 => exact .inl (Option.some.inj hid).symm
  | 1 => exact .inr (.inl (Option.some.inj hid).symm)
  | k + 2 =>
    rw [o.block?_graph, Option.map_eq_some_iff] at hid
    obtain ⟨s, hs, rfl⟩ := hid
    exact .inr (.inr ⟨k, s, hs, rfl⟩)

theorem ids_graph (o : Outline) :
    o.graph.blocks.map (·.id) = List.range (o.filled.length + 2) := by
  have hids : (numbered o.filled).map Prod.snd = List.range' 2 o.filled.length :=
    List.zipIdx_map_snd ..
  rw [o.blocks_graph, List.map_append, List.map_map, List.range_eq_range', List.range'_succ,
    List.range'_succ, ← hids]
  rfl

/-- A branch stands in the graph as it is redirected in the outline. -/
theorem readdress?_graph {ss : List Statement} {o : Outline} (h : outline ss = .ok o)
    (hdangling : dangling? o.filled o.filled = none) {i : Instruction}
    (hi : i ∈ Statement.instructions ss) :
    o.graph.readdress? ss i = some (redirect o.filled i) := by
  unfold readdress? redirect
  split
  · next hop =>
    rw [← instructions_filled h, List.mem_flatMap] at hi
    obtain ⟨s, hs, hi⟩ := hi
    obtain ⟨k, hs⟩ := List.mem_iff_getElem?.1 hs
    have hclosed := (outline_sound h).filled
    obtain ⟨id, hlookup⟩ := exists_lookup_of_bra hclosed hdangling hs hi hop
    obtain ⟨k', s', rfl, hs', hl⟩ := exists_of_lookup_namesOf hlookup
    have hstart := place_start hs' (hclosed s' (List.mem_of_getElem? hs')).ne_nil
    have hresolve : Statement.resolve? ss o.graph.places i.d.name = some (k' + 2) := by
      simp [Statement.resolve?, o.places_graph, lookup_landings h hs' hl, hstart]
    simp [hresolve, o.block?_graph, hs', landing_of_lookup hlookup hs', Segment.block,
      label_redirect]
  · rfl

/-- Building a graph partitions the instructions into blocks. The ids of the blocks have no gap,
and all blocks but the entry and the exit have instructions. These are the instructions of the
statements in their order, where only the branches have been changed, to go by the labels of their
targets. No block goes on behind a transfer. The blocks begin at the leaders, and the label of a
block is the last one right in front of it. -/
theorem partition_ofStatements {ss : List Statement} {g : FlowGraph}
    (h : ofStatements ss = .ok g) :
    (∃ n, g.blocks.map (·.id) = List.range (n + 2)) ∧
    (∀ b ∈ g.blocks, b.instructions = [] ↔ b.id = entry ∨ b.id = exit) ∧
    g.instructions.map some = (Statement.instructions ss).map (g.readdress? ss) ∧
    (∀ b ∈ g.blocks, ∀ i ∈ b.instructions.dropLast, i.opcode ∉ [.bra, .exit, .ret]) ∧
    (∀ j id m, g.places[j]? = some (id, m) → (m = 0 ↔ Statement.Leader ss j)) ∧
    (∀ b ∈ g.blocks, b.instructions ≠ [] → ∃ j, g.places[j]? = some (b.id, 0) ∧
      b.label = (Statement.labelsBefore ss j).getLast?.getD "") := by
  obtain ⟨o, hout, -, hdangling, rfl⟩ := ofStatements_eq_ok_iff.1 h
  have hclosed := (outline_sound hout).filled
  refine ⟨⟨_, ids_graph o⟩, fun b hb => ?_, ?_, fun b hb i hi => ?_, fun j id m hplace => ?_,
    fun b hb hne => ?_⟩
  · rcases mem_blocks_graph hb with rfl | rfl | ⟨k, s, hs, rfl⟩
    · exact iff_of_true rfl (.inl rfl)
    · exact iff_of_true rfl (.inr rfl)
    · have hne := (hclosed s (List.mem_of_getElem? hs)).ne_nil
      simp [Segment.block, Segment.redirect, hne, entry, exit]
  · rw [instructions_graph, instructions_filled hout, List.map_map]
    exact List.map_congr_left fun i hi => (readdress?_graph hout hdangling hi).symm
  · rcases mem_blocks_graph hb with rfl | rfl | ⟨k, s, hs, rfl⟩
    · cases hi
    · cases hi
    · have hi : i ∈ (s.instructions.map (redirect o.filled)).dropLast := hi
      rw [← List.map_dropLast, List.mem_map] at hi
      obtain ⟨i₀, hi₀, rfl⟩ := hi
      have hplain := (hclosed s (List.mem_of_getElem? hs)).plain i₀ hi₀
      rw [opcode_redirect, transfers_iff, hplain]
      exact fun htransfer => Bool.false_ne_true htransfer.1
  · rw [o.places_graph, getElem?_placesOf] at hplace
    obtain ⟨k, s, hs, m, hm, rfl, heq⟩ := hplace
    cases heq
    constructor
    · rintro rfl
      exact leader_start hout hs
    · exact eq_zero_of_leader hout hs hm
  · rcases mem_blocks_graph hb with rfl | rfl | ⟨k, s, hs, rfl⟩
    · exact absurd rfl hne
    · exact absurd rfl hne
    · have hne := (hclosed s (List.mem_of_getElem? hs)).ne_nil
      refine ⟨_, by rw [o.places_graph]; exact place_start hs hne, ?_⟩
      rw [labelsBefore_start hout hs]
      rfl

/-- Two labels in front of a loop, one behind it, and one with no instruction behind it. -/
def stacked : List Statement :=
  [.label "a", .label "b", .instruction { opcode := .bra, d := .label "a", guard := .predicate "p" },
    .label "c", .instruction { opcode := .exit }, .label "d"]

theorem partition_ofStatements_stacked : ∃ g, ofStatements stacked = .ok g ∧
    (∀ b ∈ g.blocks, b.instructions = [] ↔ b.id = entry ∨ b.id = exit) ∧
    g.instructions.map some = (Statement.instructions stacked).map (g.readdress? stacked) := by
  obtain ⟨g, hg⟩ : ∃ g, ofStatements stacked = .ok g := ⟨_, rfl⟩
  obtain ⟨-, hfilled, hinstructions, -⟩ := partition_ofStatements hg
  exact ⟨g, hg, hfilled, hinstructions⟩

end FlowGraph

end KernelListing
