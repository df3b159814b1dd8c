import KernelListing.Proofs.Register.Occurrences

/-!
# The two ways to collect declarations

The declarations of a graph take a register from any argument, and those of its summary from a few
slots only. Where a register has one type wherever it is mentioned (`Uniform`), that is the whole
difference: what the summary declares the graph declares alike, and what is missing from the
summary's declarations is what no instruction shows in these slots (`declarationsInOrder_agree`).
-/

namespace KernelListing.Register

/-- The registers that an instruction names in its arguments and as a second destination. -/
def mentioned (i : Instruction) : List Register := [i.d, i.a, i.b, i.c, i.q].flatMap named

/-- In a graph, a register has the same type wherever it is mentioned, vectors do not consist of
predicates, and only comparisons have a second destination. -/
structure Uniform (g : FlowGraph) : Prop where
  type_eq : ∀ r ∈ g.instructions.flatMap mentioned, ∀ r' ∈ g.instructions.flatMap mentioned,
    r.number = r'.number → r.type = r'.type
  scalar : ∀ i ∈ g.instructions, ∀ s, (i.operand s).mode = .register →
    (i.operand s).isVector = true → (i.operand s).isPredicate = false
  comparison : ∀ i ∈ g.instructions, i.q.mode = .register → i.opcode = .setp

section mentioned

variable {i : Instruction} {r : Register}

theorem named_of_register {op : Operand} (h : op.mode = .register) : named op = ofOperand op := by
  simp [named, Operand.isRegisterLike, h]

theorem definedBy_subset_mentioned (i : Instruction) : definedBy i ⊆ mentioned i := by
  intro r hr
  rw [mentioned, List.mem_flatMap]
  rcases List.mem_append.1 hr with hr | hr
  · split at hr
    · cases hr
    · exact ⟨i.d, by simp, hr⟩
  · split at hr
    · next hq => exact ⟨i.q, by simp, named_of_register hq.2 ▸ hr⟩
    · cases hr

theorem readBy_subset_mentioned (i : Instruction) : readBy i ⊆ mentioned i := by
  intro r hr
  rw [mentioned, List.mem_flatMap]
  rcases List.mem_append.1 hr with hr | hr
  · split at hr
    · exact ⟨i.d, by simp, hr⟩
    · cases hr
  · obtain ⟨op, hop, hr⟩ := List.mem_flatMap.1 hr
    have hslots : [i.a, i.b, i.c] ⊆ [i.d, i.a, i.b, i.c, i.q] := by simp
    exact ⟨op, hslots hop, hr⟩

theorem visitedSlots_subset (opcode : Opcode) : visitedSlots opcode ⊆ [.q, .d, .a] := by
  unfold visitedSlots
  split
  · exact List.nil_subset _
  · split <;> simp

theorem exists_of_mem_shown (h : r ∈ shown i) :
    ∃ op ∈ [i.q, i.d, i.a], op.mode = .register ∧ r ∈ ofOperand op := by
  obtain ⟨op, hop, hr⟩ := List.mem_flatMap.1 h
  obtain ⟨s, hs, rfl, hmode⟩ := mem_visited.1 hop
  exact ⟨_, List.mem_map_of_mem (visitedSlots_subset _ hs), hmode, hr⟩

theorem shown_subset_mentioned (i : Instruction) : shown i ⊆ mentioned i := by
  intro r hr
  obtain ⟨op, hop, hmode, hr⟩ := exists_of_mem_shown hr
  have hslots : [i.q, i.d, i.a] ⊆ [i.d, i.a, i.b, i.c, i.q] := by simp
  exact List.mem_flatMap.2 ⟨op, hslots hop, named_of_register hmode ▸ hr⟩

end mentioned

variable {g : FlowGraph}

theorem declarations_subset_mentioned : declarations g ⊆ g.instructions.flatMap mentioned := by
  intro r hr
  have hcollected : r ∈ g.instructions.flatMap definedBy ∨ r ∈ g.instructions.flatMap readBy := by
    rcases Option.or_eq_some_iff.1 (mem_declarations.1 hr) with h | ⟨-, h⟩
    · exact .inl (List.mem_of_mem_filter (List.mem_of_getLast? h))
    · exact .inr (List.mem_of_find?_eq_some h)
  rcases hcollected with hr | hr
  · obtain ⟨i, hi, hr⟩ := List.mem_flatMap.1 hr
    exact List.mem_flatMap.2 ⟨i, hi, definedBy_subset_mentioned i hr⟩
  · obtain ⟨i, hi, hr⟩ := List.mem_flatMap.1 hr
    exact List.mem_flatMap.2 ⟨i, hi, readBy_subset_mentioned i hr⟩

/-- What an instruction shows is declared, if only comparisons have a second destination. -/
theorem mem_numbers_of_mem_shown {i : Instruction} (hi : i ∈ g.instructions)
    (hcomparison : i.q.mode = .register → i.opcode = .setp) {r : Register} (hr : r ∈ shown i) :
    r.number ∈ (declarations g).map (·.number) := by
  obtain ⟨op, hop, hmode, hr⟩ := exists_of_mem_shown hr
  have hscalar : ∃ s ∈ op.scalars, s.number = r.number := exists_mem_ofOperand.1 ⟨r, hr, rfl⟩
  rw [mem_numbers_declarations]
  rcases List.mem_cons.1 hop with rfl | hop
  · exact ⟨i, hi, .inr ⟨hcomparison hmode, hmode, hscalar⟩⟩
  · have hlike : op.isRegisterLike = true := by simp [Operand.isRegisterLike, hmode]
    have hslots : [i.d, i.a] ⊆ [i.d, i.a, i.b, i.c] := by simp
    exact ⟨i, hi, .inl ⟨op, hslots hop, hlike, hscalar⟩⟩

namespace Uniform

variable (h : Uniform g)

include h

theorem firstOccurrences : FirstOccurrences (declarationsInOrder (.ofGraph g))
    (g.instructions.flatMap shown) := by
  have hscalar : ∀ i ∈ (Dataflow.ofGraph g).blocks.flatMap (·.instructions),
      ScalarPredicates i := by
    rw [Dataflow.instructions_ofGraph]
    intro i hi op hop
    obtain ⟨s, -, rfl, hmode⟩ := mem_visited.1 hop
    exact h.scalar i hi s hmode
  have hfirst := firstOccurrences_shown hscalar
  rwa [Dataflow.instructions_ofGraph] at hfirst

theorem declarationsInOrder_subset : declarationsInOrder (.ofGraph g) ⊆ declarations g := by
  intro r hr
  obtain ⟨i, hi, hshown⟩ := List.mem_flatMap.1 (h.firstOccurrences.subset hr)
  have hnumber := mem_numbers_of_mem_shown hi (h.comparison i hi) hshown
  obtain ⟨r', hr', hn⟩ := List.mem_map.1 hnumber
  have htype : r'.type = r.type := h.type_eq r' (declarations_subset_mentioned hr') r
    (List.mem_flatMap.2 ⟨i, hi, shown_subset_mentioned i hshown⟩) hn
  have heq : r' = r := by
    cases r
    cases r'
    simp only [mk.injEq]
    exact ⟨hn, htype⟩
  exact heq ▸ hr'

end Uniform

/-- Where each register has one type, every register that is declared for the summary of a graph is
declared for the graph, with the same type. Neither list has a register twice, and the registers
that are declared for the graph alone are those that no instruction shows. -/
theorem declarationsInOrder_agree (h : Uniform g) :
    declarationsInOrder (.ofGraph g) ⊆ declarations g ∧
      ((declarationsInOrder (.ofGraph g)).map (·.number)).Nodup ∧
      ((declarations g).map (·.number)).Nodup ∧
      ∀ n ∈ (declarations g).map (·.number),
        n ∉ (declarationsInOrder (.ofGraph g)).map (·.number) ↔
          ∀ i ∈ g.instructions, ∀ r ∈ shown i, r.number ≠ n := by
  refine ⟨h.declarationsInOrder_subset, h.firstOccurrences.nodup, ?_, fun n _ => ?_⟩
  · exact (ascending_declarations g).imp Nat.ne_of_lt
  · have hmem := h.firstOccurrences.exists_mem (n := n)
    rw [exists_mem_flatMap] at hmem
    rw [List.mem_map, hmem]
    push Not
    rfl

def numbered (number : Nat) (type : DataType) : Operand := { mode := .register, number, type }

/-- A block with registers that a store, a third source and a vector name. -/
def storing : FlowGraph where
  slots := FlowGraph.empty.slots ++ [some { id := 2, instructions := [
    { opcode := .setp, modifiers := ".lt", type := some .s32, d := numbered 0 .pred,
      q := numbered 1 .pred, a := numbered 2 .s32, b := numbered 3 .s32 },
    { opcode := .mov, d := { numbered 2 .s32 with elements := [numbered 2 .s32, numbered 4 .s32] },
      a := .immediate 0 .s32 },
    { opcode := .st, d := numbered 5 .s32, a := numbered 2 .s32, guard := numbered 0 .pred }] }]
  edges := []
  issued := 3

theorem declarationsInOrder_agree_storing : Uniform storing ∧
    declarationsInOrder (.ofGraph storing) ⊆ declarations storing ∧
    3 ∈ (declarations storing).map (·.number) ∧
    3 ∉ (declarationsInOrder (.ofGraph storing)).map (·.number) := by
  have huniform : Uniform storing := by
    refine ⟨by decide, fun i hi s => ?_, by decide⟩
    revert i
    cases s <;> decide
  have hdeclared : 3 ∈ (declarations storing).map (·.number) := by decide
  obtain ⟨hsubset, -, -, hmissing⟩ := declarationsInOrder_agree huniform
  exact ⟨huniform, hsubset, hdeclared, (hmissing 3 hdeclared).2 (by decide)⟩

end KernelListing.Register
