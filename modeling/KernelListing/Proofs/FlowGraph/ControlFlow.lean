import KernelListing.Proofs.FlowGraph.Places

/-!
# Control flow

`Statement.Flows` is where control can go from an instruction of a flat list, and
`FlowGraph.Flows` where it can go from one in a graph. `flows_of_ofStatements` says that building
the graph keeps the one as the other, the kind of each step included. It is proved on segments:
the edges that leave the block of a segment are read off its last instruction (`mem_edges_graph`),
and the instruction behind it is the first one of the next segment.
-/

namespace KernelListing

/-- Where control can go from the `i`-th of the instructions among some statements: to another
one or out of the kernel. -/
inductive Statement.Flows (ss : List Statement) (i : Nat) : Option Nat → EdgeKind → Prop where
  /-- A branch jumps to the instruction its label denotes. -/
  | jump {inst : Instruction} {j : Nat} (hi : (instructions ss)[i]? = some inst)
    (hop : inst.opcode = .bra) (htaken : inst.guard.isAlwaysFalse = false)
    (hland : (inst.d.name, j) ∈ landings ss) : Flows ss i (some j) .branch
  /-- Unless it always jumps or leaves, control goes on to the next instruction. -/
  | next {inst : Instruction} (hi : (instructions ss)[i]? = some inst) (hgo : inst.goesOn = true)
    (hlt : i + 1 < (instructions ss).length) : Flows ss i (some (i + 1)) .fallThrough
  | exit {inst : Instruction} (hi : (instructions ss)[i]? = some inst)
    (hop : inst.opcode = .exit) : Flows ss i none .fallThrough
  | ret {inst : Instruction} (hi : (instructions ss)[i]? = some inst)
    (hop : inst.opcode = .ret) : Flows ss i none .branch

theorem Statement.flows_iff {ss : List Statement} {i : Nat} {inst : Instruction}
    (hi : (instructions ss)[i]? = some inst) {t : Option Nat} {kind : EdgeKind} :
    Flows ss i t kind ↔
      (inst.goesOn = true ∧ i + 1 < (instructions ss).length ∧ t = some (i + 1) ∧
        kind = .fallThrough) ∨
      (inst.opcode = .exit ∧ t = none ∧ kind = .fallThrough) ∨
      (inst.opcode = .ret ∧ t = none ∧ kind = .branch) ∨
      (inst.opcode = .bra ∧ inst.guard.isAlwaysFalse = false ∧
        (∃ j, (inst.d.name, j) ∈ landings ss ∧ t = some j) ∧ kind = .branch) := by
  have hinst : ∀ {inst'}, (instructions ss)[i]? = some inst' → inst = inst' := fun hi' =>
    Option.some.inj (hi.symm.trans hi')
  constructor
  · intro hflows
    cases hflows with
    | next hi' hgo hlt => exact .inl ⟨hinst hi' ▸ hgo, hlt, rfl, rfl⟩
    | exit hi' hop => exact .inr (.inl ⟨hinst hi' ▸ hop, rfl, rfl⟩)
    | ret hi' hop => exact .inr (.inr (.inl ⟨hinst hi' ▸ hop, rfl, rfl⟩))
    | @jump inst' j hi' hop htaken hland =>
      obtain rfl := hinst hi'
      exact .inr (.inr (.inr ⟨hop, htaken, ⟨j, hland, rfl⟩, rfl⟩))
  · rintro (⟨hgo, hlt, rfl, rfl⟩ | ⟨hop, rfl, rfl⟩ | ⟨hop, rfl, rfl⟩ |
      ⟨hop, htaken, ⟨j, hland, rfl⟩, rfl⟩)
    · exact .next hi hgo hlt
    · exact .exit hi hop
    · exact .ret hi hop
    · exact .jump hi hop htaken hland

namespace FlowGraph

/-- Where control can go from the instruction at a place: to another place or out of the
kernel. -/
inductive Flows (g : FlowGraph) : BlockId × Nat → Option (BlockId × Nat) → EdgeKind → Prop where
  /-- To the next instruction of the block. -/
  | within {id : BlockId} {m : Nat} {b : Block} (hb : g.block? id = some b)
    (hm : m + 1 < b.instructions.length) : Flows g (id, m) (some (id, m + 1)) .fallThrough
  /-- From the last instruction of a block along an edge to another one. -/
  | across {id id' : BlockId} {m : Nat} {b : Block} {kind : EdgeKind}
    (hb : g.block? id = some b) (hm : m + 1 = b.instructions.length)
    (he : ⟨id, id', kind⟩ ∈ g.edges) (hne : id' ≠ exit) : Flows g (id, m) (some (id', 0)) kind
  /-- From the last instruction of a block along an edge to the exit block. -/
  | leave {id : BlockId} {m : Nat} {b : Block} {kind : EdgeKind}
    (hb : g.block? id = some b) (hm : m + 1 = b.instructions.length)
    (he : ⟨id, exit, kind⟩ ∈ g.edges) : Flows g (id, m) none kind

/-! ## Edges -/

theorem mem_branchEdgesOf {ss ss' : List Segment} {e : Edge} :
    e ∈ branchEdgesOf ss ss' ↔ ∃ (k : Nat) (s : Segment), ss'[k]? = some s ∧
      ∃ i, s.instructions.getLast? = some i ∧ i.opcode = .bra ∧ i.guard.isAlwaysFalse = false ∧
        ∃ id, (namesOf ss).lookup i.d.name = some id ∧ e = ⟨k + 2, id, .branch⟩ := by
  simp only [branchEdgesOf, branchesOf, List.mem_filterMap, Prod.exists, mem_numbered]
  constructor
  · rintro ⟨b, ⟨s, id, ⟨hid, hs⟩, hb⟩, he⟩
    obtain ⟨i, hi, rfl⟩ := Option.map_eq_some_iff.1 hb
    obtain ⟨hlast, hop⟩ := Option.filter_eq_some_iff.1 hi
    unfold branchEdge? at he
    split at he
    · cases he
    · next htaken =>
      obtain ⟨id', hlookup, rfl⟩ := Option.map_eq_some_iff.1 he
      refine ⟨id - 2, s, hs, i, hlast, by simpa using hop, by simpa using htaken, id', hlookup, ?_⟩
      rw [Nat.sub_add_cancel hid]
  · rintro ⟨k, s, hs, i, hlast, hop, htaken, id, hlookup, rfl⟩
    refine ⟨_, ⟨s, k + 2, ⟨Nat.le_add_left 2 k, hs⟩, Segment.openBranch?_of_bra hlast hop _⟩, ?_⟩
    simp [branchEdge?, htaken, hlookup]

theorem edgesOf_nodup (ss : List Segment) : (edgesOf ss).Nodup := by
  induction ss using List.reverseRecOn with
  | nil => exact List.nodup_nil
  | append_singleton ss s ih =>
    -- The block of the last segment is the tail of what enters it and the head of what leaves it,
    -- and the edges in front do not reach as far.
    have hentering : ∀ e ∈ s.entering (ss.length + 2), e.tail = ss.length + 2 := by
      intro e he
      obtain ⟨-, rfl⟩ := Segment.mem_entering.1 he
      rfl
    have hleaving : ∀ e ∈ s.leaving (ss.length + 2),
        e.head = ss.length + 2 ∧ e.tail = FlowGraph.exit := by
      intro e he
      obtain ⟨i, -, ⟨-, rfl⟩ | ⟨-, rfl⟩⟩ := Segment.mem_leaving.1 he
      · exact ⟨rfl, rfl⟩
      · exact ⟨rfl, rfl⟩
    have hnodup : (s.entering (ss.length + 2)).Nodup ∧ (s.leaving (ss.length + 2)).Nodup := by
      constructor
      · unfold Segment.entering Segment.pending
        split <;> simp
      · unfold Segment.leaving
        split
        · exact List.nodup_nil
        · split <;> simp
    rw [edgesOf_concat, Segment.edges]
    refine List.nodup_append.2 ⟨ih, List.nodup_append.2 ⟨hnodup.1, hnodup.2, ?_⟩, ?_⟩
    · rintro e he _ he' rfl
      have htail := (hentering e he).symm.trans (hleaving e he').2
      simp [FlowGraph.exit] at htail
    · rintro e he _ he' rfl
      obtain ⟨hhead, htail⟩ := lt_of_mem_edgesOf he
      rcases List.mem_append.1 he' with he' | he'
      · exact absurd (hentering e he') (Nat.ne_of_lt htail)
      · exact absurd (hleaving e he').1 (Nat.ne_of_lt hhead)

theorem branchEdgesOf_nodup (ss ss' : List Segment) : (branchEdgesOf ss ss').Nodup := by
  induction ss' using List.reverseRecOn with
  | nil => exact List.nodup_nil
  | append_singleton ss' s ih =>
    rw [branchEdgesOf, branchesOf_concat, List.filterMap_append]
    refine List.nodup_append.2 ⟨ih, ?_, ?_⟩
    · cases s.openBranch? (ss'.length + 2) with
      | none => exact List.nodup_nil
      | some b =>
        cases h : branchEdge? (namesOf ss) b <;> simp [h]
    · rintro e he _ he' rfl
      obtain ⟨k, s', hs', i, -, -, -, id, -, rfl⟩ := mem_branchEdgesOf.1 he
      obtain ⟨b, hb, hedge⟩ := List.mem_filterMap.1 he'
      obtain ⟨i', -, rfl⟩ := Option.map_eq_some_iff.1 (Option.mem_toList.1 hb)
      unfold branchEdge? at hedge
      split at hedge
      · cases hedge
      · obtain ⟨id', -, heq⟩ := Option.map_eq_some_iff.1 hedge
        -- A branch in front starts at the block of its own segment, which is another one.
        have hk := (List.getElem?_eq_some_iff.1 hs').1
        have hhead : ss'.length + 2 = k + 2 := congrArg Edge.head heq
        omega

theorem edges_graph (o : Outline) :
    o.graph.edges = edgesOf o.filled ++ branchEdgesOf o.filled o.filled := rfl

theorem edges_graph_nodup (o : Outline) : o.graph.edges.Nodup := by
  rw [edges_graph]
  refine List.nodup_append.2 ⟨edgesOf_nodup _, branchEdgesOf_nodup _ _, ?_⟩
  rintro e he _ he' rfl
  obtain ⟨k, s, -, he⟩ := mem_edgesOf.1 he
  obtain ⟨k', s', -, i, -, -, -, id, hlookup, rfl⟩ := mem_branchEdgesOf.1 he'
  obtain ⟨j, t, rfl, -, -⟩ := exists_of_lookup_namesOf hlookup
  -- A branch goes to a segment, while these edges fall through or go to the exit block.
  rcases he with he | he
  · cases congrArg Edge.kind (Segment.mem_entering.1 he).2
  · obtain ⟨i', -, ⟨-, heq⟩ | ⟨-, heq⟩⟩ := Segment.mem_leaving.1 he
    · cases heq
    · cases congrArg Edge.tail heq

/-- The edges that leave the block of a segment are those of its last instruction. -/
theorem mem_edges_graph {o : Outline} (h : o.Sound) {k : Nat} {s : Segment} {i : Instruction}
    (hs : o.filled[k]? = some s) (hlast : s.instructions.getLast? = some i) {id : BlockId}
    {kind : EdgeKind} :
    ⟨k + 2, id, kind⟩ ∈ o.graph.edges ↔
      (i.goesOn = true ∧ k + 1 < o.filled.length ∧ id = k + 3 ∧ kind = .fallThrough) ∨
      (i.opcode = .exit ∧ id = FlowGraph.exit ∧ kind = .fallThrough) ∨
      (i.opcode = .ret ∧ id = FlowGraph.exit ∧ kind = .branch) ∨
      (i.opcode = .bra ∧ i.guard.isAlwaysFalse = false ∧
        (namesOf o.filled).lookup i.d.name = some id ∧ kind = .branch) := by
  -- Whether control falls out of a segment is recorded with the segment behind it.
  have hentered : ∀ s', o.filled[k + 1]? = some s' → s'.entered = i.goesOn := by
    intro s' hs'
    rw [h.linked_filled (k + 1) s' hs', Outline.lastBehind_take hs, hlast]
    rfl
  rw [edges_graph, List.mem_append, mem_edgesOf, mem_branchEdgesOf]
  constructor
  · rintro (⟨k', s', hs', he | he⟩ | ⟨k', s', hs', i', hlast', hop, htaken, id', hlookup, heq⟩)
    · obtain ⟨hgo, heq⟩ := Segment.mem_entering.1 he
      simp only [Edge.mk.injEq] at heq
      obtain ⟨hhead, rfl, rfl⟩ := heq
      obtain rfl := Segment.before_eq_iff.1 hhead.symm
      rw [hentered s' hs'] at hgo
      exact .inl ⟨hgo, (List.getElem?_eq_some_iff.1 hs').1, rfl, rfl⟩
    · obtain ⟨i', hlast', hleave⟩ := Segment.mem_leaving.1 he
      simp only [Edge.mk.injEq, Nat.add_right_cancel_iff] at hleave
      obtain rfl : k' = k := by
        rcases hleave with ⟨-, rfl, -⟩ | ⟨-, rfl, -⟩
        · rfl
        · rfl
      obtain rfl : s = s' := Option.some.inj (hs.symm.trans hs')
      obtain rfl : i = i' := Option.some.inj (hlast.symm.trans hlast')
      rcases hleave with ⟨hop, -, hid, hkind⟩ | ⟨hop, -, hid, hkind⟩
      · exact .inr (.inl ⟨hop, hid, hkind⟩)
      · exact .inr (.inr (.inl ⟨hop, hid, hkind⟩))
    · simp only [Edge.mk.injEq, Nat.add_right_cancel_iff] at heq
      obtain ⟨rfl, rfl, rfl⟩ := heq
      obtain rfl : s = s' := Option.some.inj (hs.symm.trans hs')
      obtain rfl : i = i' := Option.some.inj (hlast.symm.trans hlast')
      exact .inr (.inr (.inr ⟨hop, htaken, hlookup, rfl⟩))
  · rintro (⟨hgo, hlt, rfl, rfl⟩ | ⟨hop, rfl, rfl⟩ | ⟨hop, rfl, rfl⟩ | ⟨hop, htaken, hlookup, rfl⟩)
    · have hs' := List.getElem?_eq_getElem hlt
      refine .inl ⟨k + 1, _, hs', .inl (Segment.mem_entering.2 ⟨?_, ?_⟩)⟩
      · rw [hentered _ hs', hgo]
      · rw [Segment.before_eq_iff.2 rfl]
    · exact .inl ⟨k, s, hs, .inr (Segment.mem_leaving.2 ⟨i, hlast, .inl ⟨hop, rfl⟩⟩)⟩
    · exact .inl ⟨k, s, hs, .inr (Segment.mem_leaving.2 ⟨i, hlast, .inr ⟨hop, rfl⟩⟩)⟩
    · exact .inr ⟨k, s, hs, i, hlast, hop, htaken, id, hlookup, rfl⟩

/-! ## Steps -/

theorem flows_graph_iff {o : Outline} {k m : Nat} {s : Segment} (hs : o.filled[k]? = some s)
    {q : Option (BlockId × Nat)} {kind : EdgeKind} :
    o.graph.Flows (k + 2, m) q kind ↔
      (m + 1 < s.instructions.length ∧ q = some (k + 2, m + 1) ∧ kind = .fallThrough) ∨
      (m + 1 = s.instructions.length ∧ ∃ id, ⟨k + 2, id, kind⟩ ∈ o.graph.edges ∧
        q = if id = FlowGraph.exit then none else some (id, 0)) := by
  have hblock : o.graph.block? (k + 2) = some ((s.redirect o.filled).block (k + 2)) := by
    rw [o.block?_graph, hs]
    rfl
  have hlength : ∀ {b}, o.graph.block? (k + 2) = some b →
      b.instructions.length = s.instructions.length := by
    intro b hb
    rw [← Option.some.inj (hblock.symm.trans hb)]
    exact List.length_map ..
  constructor
  · intro hflows
    cases hflows with
    | within hb hm =>
      exact .inl ⟨hlength hb ▸ hm, rfl, rfl⟩
    | @across _ id' _ _ _ hb hm he hne =>
      exact .inr ⟨hlength hb ▸ hm, id', he, (if_neg hne).symm⟩
    | leave hb hm he =>
      exact .inr ⟨hlength hb ▸ hm, FlowGraph.exit, he, (if_pos rfl).symm⟩
  · rintro (⟨hm, rfl, rfl⟩ | ⟨hm, id, he, rfl⟩)
    · exact .within hblock (by rwa [hlength hblock])
    · split
      · next hid =>
        subst hid
        exact .leave hblock (by rwa [hlength hblock]) he
      · next hid => exact .across hblock (by rwa [hlength hblock]) he hid

theorem lt_sizeOf_iff {ss : List Segment} (hclosed : ∀ s ∈ ss, s.Closed) {k : Nat} :
    sizeOf (ss.take k) < sizeOf ss ↔ k < ss.length := by
  constructor
  · intro hlt
    by_contra hle
    rw [List.take_of_length_le (Nat.le_of_not_lt hle)] at hlt
    exact Nat.lt_irrefl _ hlt
  · intro hk
    have hs := List.getElem?_eq_getElem hk
    exact sizeOf_take_lt hs (hclosed _ (List.mem_of_getElem? hs)).ne_nil

/-- Behind an instruction that is not the last of its segment control goes to the next one. -/
theorem flows_of_inner {ss : List Statement} {o : Outline} (h : outline ss = .ok o) {k m : Nat}
    {s : Segment} (hs : o.filled[k]? = some s) (hm : m + 1 < s.instructions.length)
    (q : Option (BlockId × Nat)) (kind : EdgeKind) :
    o.graph.Flows (k + 2, m) q kind ↔
      ∃ t, Statement.Flows ss (sizeOf (o.filled.take k) + m) t kind ∧
        Option.Rel (fun j p => (placesOf o.filled)[j]? = some p) t q := by
  have hm' := Nat.lt_of_succ_lt hm
  have hi : (Statement.instructions ss)[sizeOf (o.filled.take k) + m]? =
      some s.instructions[m] := by
    rw [getElem?_instructions h hs hm', List.getElem?_eq_getElem hm']
  have hplain : s.instructions[m].opcode.isControlFlow = false :=
    ((outline_sound h).closed_of_getElem? hs).plain_of_lt (List.getElem?_eq_getElem hm') hm
  have hnext : sizeOf (o.filled.take k) + m + 1 < (Statement.instructions ss).length := by
    have hlt := sizeOf_take_succ hs
    have hle : sizeOf (o.filled.take (k + 1)) ≤ sizeOf o.filled := by
      conv_rhs => rw [← List.take_append_drop (k + 1) o.filled, sizeOf_append]
      exact Nat.le_add_right ..
    rw [← instructions_filled h]
    exact Nat.lt_of_lt_of_le (by omega) hle
  have hplace : (placesOf o.filled)[sizeOf (o.filled.take k) + m + 1]? = some (k + 2, m + 1) :=
    getElem?_placesOf.2 ⟨k, s, hs, m + 1, hm, rfl, rfl⟩
  rw [flows_graph_iff hs]
  constructor
  · rintro (⟨-, rfl, rfl⟩ | ⟨heq, -⟩)
    · exact ⟨_, .next hi (goesOn_of_plain hplain) hnext, .some hplace⟩
    · exact absurd heq (Nat.ne_of_lt hm)
  · rintro ⟨t, hflows, hrel⟩
    rcases (Statement.flows_iff hi).1 hflows with
      ⟨-, -, rfl, rfl⟩ | ⟨hop, -⟩ | ⟨hop, -⟩ | ⟨hop, -⟩
    · cases hrel with
      | some hq =>
        obtain rfl := Option.some.inj (hplace.symm.trans hq)
        exact .inl ⟨hm, rfl, rfl⟩
    · exact absurd hop (Segment.ne_of_plain hplain .exit rfl)
    · exact absurd hop (Segment.ne_of_plain hplain .ret rfl)
    · exact absurd hop (Segment.ne_of_plain hplain .bra rfl)

/-- Behind the last instruction of a segment control goes along the edges of its block. -/
theorem flows_of_last {ss : List Statement} {o : Outline} (h : outline ss = .ok o) {k m : Nat}
    {s : Segment} (hs : o.filled[k]? = some s) (hm : m + 1 = s.instructions.length)
    (q : Option (BlockId × Nat)) (kind : EdgeKind) :
    o.graph.Flows (k + 2, m) q kind ↔
      ∃ t, Statement.Flows ss (sizeOf (o.filled.take k) + m) t kind ∧
        Option.Rel (fun j p => (placesOf o.filled)[j]? = some p) t q := by
  have hsound := outline_sound h
  have hstart : ∀ {k' s'}, o.filled[k']? = some s' →
      (placesOf o.filled)[sizeOf (o.filled.take k')]? = some (k' + 2, 0) := fun hs' =>
    place_start hs' (hsound.closed_of_getElem? hs').ne_nil
  obtain ⟨i, hlast⟩ := (hsound.closed_of_getElem? hs).exists_last
  have hi : (Statement.instructions ss)[sizeOf (o.filled.take k) + m]? = some i := by
    rw [getElem?_instructions h hs (by omega), ← hlast, List.getLast?_eq_getElem?, ← hm,
      Nat.add_sub_cancel]
  -- The next instruction, if there is one, begins the next segment.
  have hsucc : sizeOf (o.filled.take k) + m + 1 = sizeOf (o.filled.take (k + 1)) := by
    rw [sizeOf_take_succ hs, ← hm, Nat.add_assoc]
  have hnext : sizeOf (o.filled.take (k + 1)) < (Statement.instructions ss).length ↔
      k + 1 < o.filled.length := by
    rw [← instructions_filled h]
    exact lt_sizeOf_iff hsound.filled
  rw [flows_graph_iff hs]
  -- Both sides now list the four ways to leave an instruction, which are matched one by one.
  simp only [hm, Nat.lt_irrefl, false_and, true_and, false_or, mem_edges_graph hsound hs hlast,
    Statement.flows_iff hi, hsucc, hnext]
  constructor
  · rintro ⟨id, ⟨hgo, hlt, rfl, rfl⟩ | ⟨hop, rfl, rfl⟩ | ⟨hop, rfl, rfl⟩ |
      ⟨hop, htaken, hlookup, rfl⟩, rfl⟩
    · refine ⟨_, .inl ⟨hgo, hlt, rfl, rfl⟩, ?_⟩
      rw [if_neg (by simp [FlowGraph.exit])]
      exact .some (hstart (List.getElem?_eq_getElem hlt))
    · exact ⟨none, .inr (.inl ⟨hop, rfl, rfl⟩), .none⟩
    · exact ⟨none, .inr (.inr (.inl ⟨hop, rfl, rfl⟩)), .none⟩
    · obtain ⟨k', s', rfl, hs', hl⟩ := exists_of_lookup_namesOf hlookup
      refine ⟨_, .inr (.inr (.inr ⟨hop, htaken,
        ⟨_, (mem_landings_iff h).2 ⟨k', s', hs', hl, rfl⟩, rfl⟩, rfl⟩)), ?_⟩
      rw [if_neg (by simp [FlowGraph.exit])]
      exact .some (hstart hs')
  · rintro ⟨t, ⟨hgo, hlt, rfl, rfl⟩ | ⟨hop, rfl, rfl⟩ | ⟨hop, rfl, rfl⟩ |
      ⟨hop, htaken, ⟨j, hland, rfl⟩, rfl⟩, hrel⟩
    · cases hrel with
      | some hq =>
        obtain rfl := Option.some.inj ((hstart (List.getElem?_eq_getElem hlt)).symm.trans hq)
        exact ⟨k + 3, .inl ⟨hgo, hlt, rfl, rfl⟩, (if_neg (by simp [FlowGraph.exit])).symm⟩
    · cases hrel
      exact ⟨_, .inr (.inl ⟨hop, rfl, rfl⟩), rfl⟩
    · cases hrel
      exact ⟨_, .inr (.inr (.inl ⟨hop, rfl, rfl⟩)), rfl⟩
    · obtain ⟨k', s', hs', hl, rfl⟩ := (mem_landings_iff h).1 hland
      cases hrel with
      | some hq =>
        obtain rfl := Option.some.inj ((hstart hs').symm.trans hq)
        have hlookup := (lookup_namesOf_iff (nodup_labels_filled h)).2 ⟨s', hs', hl⟩
        exact ⟨k' + 2, .inr (.inr (.inr ⟨hop, htaken, hlookup, rfl⟩)),
          (if_neg (by simp [FlowGraph.exit])).symm⟩

theorem map_instruction?_places {ss : List Statement} {o : Outline} (h : outline ss = .ok o) :
    o.graph.places.map (fun p => (o.graph.instruction? p).map Instruction.unaddressed) =
      (Statement.instructions ss).map fun i => some i.unaddressed := by
  rw [← instructions_filled h, Outline.places_graph]
  refine List.ext_getElem? fun i => ?_
  rw [List.getElem?_map, List.getElem?_map]
  cases hp : (placesOf o.filled)[i]? with
  | none =>
    have hle := List.getElem?_eq_none_iff.1 hp
    rw [length_placesOf] at hle
    rw [List.getElem?_eq_none hle]
    rfl
  | some p =>
    obtain ⟨k, s, hs, m, hm, rfl, rfl⟩ := getElem?_placesOf.1 hp
    rw [getElem?_flatMap_instructions hs hm, Option.map_some, Outline.instruction?_graph hs,
      List.getElem?_eq_getElem hm]
    simp [Instruction.unaddressed_redirect]

theorem successors_entry {o : Outline} (h : o.Sound) (hne : o.filled ≠ []) :
    o.graph.successors entry = [⟨entry, 2, .fallThrough⟩] := by
  have hmem : ∀ e, e ∈ o.graph.successors entry ↔ e ∈ [⟨entry, 2, .fallThrough⟩] := by
    intro e
    rw [mem_successors, edges_graph, List.mem_append, mem_edgesOf, mem_branchEdgesOf,
      List.mem_singleton]
    constructor
    · rintro ⟨⟨k, s, -, he | he⟩ | ⟨k, s, -, i, -, -, -, id, -, rfl⟩, hhead⟩
      · obtain ⟨-, rfl⟩ := Segment.mem_entering.1 he
        cases k with
        | zero => rfl
        | succ k => simp [Segment.before, entry] at hhead
      · obtain ⟨i, -, ⟨-, rfl⟩ | ⟨-, rfl⟩⟩ := Segment.mem_leaving.1 he
        · simp [entry] at hhead
        · simp [entry] at hhead
      · simp [entry] at hhead
    · rintro rfl
      have hs := List.getElem?_eq_getElem (List.length_pos_iff.2 hne)
      refine ⟨.inl ⟨0, _, hs, .inl (Segment.mem_entering.2 ⟨?_, rfl⟩)⟩, rfl⟩
      rw [h.linked_filled 0 _ hs]
      rfl
  -- That the members agree is not enough for lists, which may have a member twice.
  have hnodup : (o.graph.successors entry).Nodup := (edges_graph_nodup o).filter _
  exact List.perm_singleton.1
    ((List.perm_ext_iff_of_nodup hnodup (List.nodup_singleton _)).2 hmem)

/-- Building a graph keeps the instructions and where control can go from each of them. Control
enters at the first one, and no edge is there twice. -/
theorem flows_ofStatements {ss : List Statement} {g : FlowGraph} (h : ofStatements ss = .ok g) :
    (g.places.map fun p => (g.instruction? p).map Instruction.unaddressed) =
        (Statement.instructions ss).map (fun i => some i.unaddressed) ∧
      (∀ (i : Nat) (p : BlockId × Nat), g.places[i]? = some p →
        ∀ (q : Option (BlockId × Nat)) (kind : EdgeKind), g.Flows p q kind ↔
          ∃ t, Statement.Flows ss i t kind ∧ Option.Rel (fun j p' => g.places[j]? = some p') t q) ∧
      (∃ id, g.places[0]? = some (id, 0) ∧ g.successors entry = [⟨entry, id, .fallThrough⟩]) ∧
      g.edges.Nodup := by
  obtain ⟨o, hout, hexits, -, rfl⟩ := ofStatements_eq_ok_iff.1 h
  have hsound := outline_sound hout
  have hne : o.filled ≠ [] := by
    rintro hnil
    simp [hnil] at hexits
  refine ⟨map_instruction?_places hout, ?_, ⟨2, ?_, successors_entry hsound hne⟩,
    edges_graph_nodup o⟩
  · rw [Outline.places_graph]
    intro i p hp q kind
    obtain ⟨k, s, hs, m, hm, rfl, rfl⟩ := getElem?_placesOf.1 hp
    rcases Nat.lt_or_eq_of_le hm with hlt | heq
    · exact flows_of_inner hout hs hlt q kind
    · exact flows_of_last hout hs heq q kind
  · have hs := List.getElem?_eq_getElem (List.length_pos_iff.2 hne)
    rw [Outline.places_graph]
    exact place_start hs (hsound.closed_of_getElem? hs).ne_nil

/-- A loop whose branch goes back to its start while a predicate holds. -/
def loop : List Statement :=
  [.label "L", .instruction { opcode := .add },
    .instruction { opcode := .bra, d := .label "L", guard := .predicate "p" },
    .instruction { opcode := .exit }]

theorem flows_ofStatements_loop : ∃ g, ofStatements loop = .ok g ∧
    g.places = [(2, 0), (2, 1), (3, 0)] ∧ g.Flows (2, 1) (some (2, 0)) .branch := by
  refine ⟨_, rfl, rfl, ?_⟩
  have hok : ofStatements loop = .ok _ := rfl
  have hflows := (flows_ofStatements hok).2.1 1 (2, 1) rfl
  exact (hflows _ _).2 ⟨some 0, .jump rfl rfl rfl (by decide), .some rfl⟩

end FlowGraph

end KernelListing
