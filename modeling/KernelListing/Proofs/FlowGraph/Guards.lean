import KernelListing.Proofs.FlowGraph.ControlFlow
import KernelListing.Proofs.FlowGraph.Partition

/-!
# Guards of the instructions that transfer control

Where the guard of a branch does not hold, control goes on to the next instruction, and the graph
has an edge for it. An `exit` or `ret` may have a guard as well, but the graph does not look at it:
every edge from its block leaves the kernel (`fallsPast_iff`). So a graph has all the edges along
which control goes on exactly if no `exit` or `ret` in front of another instruction has a guard
that can fail.
-/

namespace KernelListing.FlowGraph

/-- Control falls from the block of the `i`-th instruction into that of the next one. -/
def FallsPast (g : FlowGraph) (i : Nat) : Prop :=
  ∃ p p', g.places[i]? = some p ∧ g.places[i + 1]? = some p' ∧
    ⟨p.1, p'.1, .fallThrough⟩ ∈ g.edges

/-- Control falls past every `exit` and `ret` whose guard can fail, to the instruction behind. -/
def PassesGuards (ss : List Statement) (g : FlowGraph) : Prop :=
  ∀ (i : Nat) (inst : Instruction), (Statement.instructions ss)[i]? = some inst →
    inst.opcode = .exit ∨ inst.opcode = .ret → inst.guard.isAlwaysTrue = false →
      i + 1 < (Statement.instructions ss).length → g.FallsPast i

theorem goesOn_iff_of_transfer {i : Instruction} (hop : i.opcode ∈ [.bra, .exit, .ret]) :
    i.goesOn = true ↔ i.opcode = .bra ∧ i.guard.isAlwaysTrue = false := by
  simp only [List.mem_cons, List.not_mem_nil, or_false] at hop
  rcases hop with hop | hop | hop
  · simp [Instruction.goesOn, hop]
  · simp [Instruction.goesOn, hop]
  · simp [Instruction.goesOn, hop]

theorem mem_transfers_of_leave {op : Opcode} (h : op = .exit ∨ op = .ret) :
    op ∈ [.bra, .exit, .ret] ∧ op ≠ .bra := by
  rcases h with rfl | rfl
  · decide
  · decide

/-- An instruction that transfers control is the last of its segment. -/
theorem exists_segment_of_transfer {ss : List Statement} {o : Outline} (h : outline ss = .ok o)
    {i : Nat} {inst : Instruction} (hi : (Statement.instructions ss)[i]? = some inst)
    (hop : inst.opcode ∈ [.bra, .exit, .ret]) :
    ∃ (k m : Nat) (s : Segment), o.filled[k]? = some s ∧ o.graph.places[i]? = some (k + 2, m) ∧
      s.instructions[m]? = some inst ∧ s.instructions.getLast? = some inst ∧
        sizeOf (o.filled.take (k + 1)) = i + 1 := by
  have hlt : i < (placesOf o.filled).length := by
    rw [length_placesOf, sizeOf, instructions_filled h]
    exact (List.getElem?_eq_some_iff.1 hi).1
  have hplace := List.getElem?_eq_getElem hlt
  obtain ⟨k, s, hs, m, hm, rfl, hp⟩ := getElem?_placesOf.1 hplace
  rw [getElem?_instructions h hs hm] at hi
  have hend : m + 1 = s.instructions.length := by
    by_contra hne
    have hclosed := (outline_sound h).closed_of_getElem? hs
    have hplain := hclosed.plain_of_lt hi (Nat.lt_of_le_of_ne hm hne)
    rw [(transfers_iff.1 hop).1] at hplain
    cases hplain
  rw [o.places_graph]
  refine ⟨k, m, s, hs, hp ▸ hplace, hi, ?_, ?_⟩
  · rw [List.getLast?_eq_getElem?, ← hend, Nat.add_sub_cancel, hi]
  · rw [sizeOf_take_succ hs, ← hend, Nat.add_assoc]

theorem fallsPast_graph_iff {ss : List Statement} {o : Outline} (h : outline ss = .ok o) {i : Nat}
    {inst : Instruction} (hi : (Statement.instructions ss)[i]? = some inst)
    (hop : inst.opcode ∈ [.bra, .exit, .ret]) (hlt : i + 1 < (Statement.instructions ss).length) :
    o.graph.FallsPast i ↔ inst.opcode = .bra ∧ inst.guard.isAlwaysTrue = false := by
  have hsound := outline_sound h
  obtain ⟨k, m, s, hs, hplace, -, hlast, hsize⟩ := exists_segment_of_transfer h hi hop
  have hk : k + 1 < o.filled.length := by
    rw [← lt_sizeOf_iff hsound.filled, hsize, sizeOf, instructions_filled h]
    exact hlt
  have hnext := List.getElem?_eq_getElem hk
  -- The next instruction is the first one of the next segment.
  have hplace' : o.graph.places[i + 1]? = some (k + 3, 0) := by
    rw [o.places_graph, ← hsize]
    exact place_start hnext (hsound.closed_of_getElem? hnext).ne_nil
  have hedge : ⟨k + 2, k + 3, .fallThrough⟩ ∈ o.graph.edges ↔ inst.goesOn = true := by
    rw [mem_edges_graph hsound hs hlast]
    simp [hk, FlowGraph.exit]
  rw [FallsPast, hplace, hplace', ← goesOn_iff_of_transfer hop, ← hedge]
  simp

/-- An `exit` or `ret` is in the graph with its guard, and every edge from it leaves the kernel. -/
theorem exists_place_of_leave {ss : List Statement} {o : Outline} (h : outline ss = .ok o)
    {i : Nat} {inst : Instruction} (hi : (Statement.instructions ss)[i]? = some inst)
    (hop : inst.opcode = .exit ∨ inst.opcode = .ret) :
    ∃ p, o.graph.places[i]? = some p ∧ o.graph.instruction? p = some inst ∧
      ∀ e ∈ o.graph.successors p.1, e.tail = exit := by
  obtain ⟨hmem, hne⟩ := mem_transfers_of_leave hop
  obtain ⟨k, m, s, hs, hplace, hinst, hlast, -⟩ := exists_segment_of_transfer h hi hmem
  have hredirect : redirect o.filled inst = inst := if_neg hne
  refine ⟨(k + 2, m), hplace, ?_, fun e he => ?_⟩
  · rw [Outline.instruction?_graph hs, hinst, Option.map_some, hredirect]
  obtain ⟨hedge, hhead⟩ := mem_successors.1 he
  obtain ⟨head, tail, kind⟩ := e
  subst hhead
  rcases (mem_edges_graph (outline_sound h) hs hlast).1 hedge with
    ⟨hgo, -⟩ | ⟨-, htail, -⟩ | ⟨-, htail, -⟩ | ⟨hbra, -⟩
  · exact absurd ((goesOn_iff_of_transfer hmem).1 hgo).1 hne
  · exact htail
  · exact htail
  · exact absurd hbra hne

/-- Behind a branch control falls through if its guard can fail. Behind an `exit` or `ret` it never
does, and all edges leave the kernel; so a graph passes its guards exactly if no `exit` or `ret` in
front of another instruction has one that can fail. -/
theorem fallsPast_iff {ss : List Statement} {g : FlowGraph} (h : ofStatements ss = .ok g) :
    (∀ (i : Nat) (inst : Instruction), (Statement.instructions ss)[i]? = some inst →
      inst.opcode ∈ [.bra, .exit, .ret] → i + 1 < (Statement.instructions ss).length →
        (g.FallsPast i ↔ inst.opcode = .bra ∧ inst.guard.isAlwaysTrue = false)) ∧
    (∀ (i : Nat) (inst : Instruction), (Statement.instructions ss)[i]? = some inst →
      inst.opcode = .exit ∨ inst.opcode = .ret → ∃ p, g.places[i]? = some p ∧
        g.instruction? p = some inst ∧ ∀ e ∈ g.successors p.1, e.tail = exit) ∧
    (g.PassesGuards ss ↔ ∀ (i : Nat) (inst : Instruction),
      (Statement.instructions ss)[i]? = some inst → inst.opcode = .exit ∨ inst.opcode = .ret →
        i + 1 < (Statement.instructions ss).length → inst.guard.isAlwaysTrue = true) := by
  obtain ⟨o, hout, -, -, rfl⟩ := ofStatements_eq_ok_iff.1 h
  refine ⟨fun i inst hi hop hlt => fallsPast_graph_iff hout hi hop hlt,
    fun i inst hi hop => exists_place_of_leave hout hi hop, ?_⟩
  have hnever : ∀ (i : Nat) (inst : Instruction), (Statement.instructions ss)[i]? = some inst →
      inst.opcode = .exit ∨ inst.opcode = .ret → i + 1 < (Statement.instructions ss).length →
        ¬ o.graph.FallsPast i := by
    intro i inst hi hop hlt hfalls
    obtain ⟨hmem, hne⟩ := mem_transfers_of_leave hop
    exact hne ((fallsPast_graph_iff hout hi hmem hlt).1 hfalls).1
  constructor
  · intro hpasses i inst hi hop hlt
    by_contra hguard
    exact hnever i inst hi hop hlt (hpasses i inst hi hop (by simpa using hguard) hlt)
  · intro htrue i inst hi hop hguard hlt
    rw [htrue i inst hi hop hlt] at hguard
    cases hguard

/-- A guarded branch, a guarded return and the exit behind them. -/
def predicated : List Statement :=
  [.instruction { opcode := .bra, d := .label "L", guard := .predicate "p" },
    .instruction { opcode := .ret, guard := .predicate "p" },
    .label "L", .instruction { opcode := .exit }]

theorem fallsPast_iff_predicated : ∃ g, ofStatements predicated = .ok g ∧
    g.FallsPast 0 ∧ ¬ g.FallsPast 1 := by
  have hok : ofStatements predicated = .ok _ := rfl
  have hfalls := (fallsPast_iff hok).1
  refine ⟨_, rfl, ?_, fun h => ?_⟩
  · exact (hfalls 0 _ rfl (by decide) (by decide)).2 ⟨rfl, rfl⟩
  · cases ((hfalls 1 _ rfl (by decide) (by decide)).1 h).1

/-- The return of `predicated` has no edge to the exit behind it. -/
theorem not_passesGuards_predicated : ∃ g, ofStatements predicated = .ok g ∧
    ¬ g.PassesGuards predicated := by
  refine ⟨_, rfl, fun h => ?_⟩
  obtain ⟨p, p', hp, hp', he⟩ := h 1 _ rfl (.inr rfl) rfl (by decide)
  cases hp
  cases hp'
  exact absurd he (by decide)

end KernelListing.FlowGraph
