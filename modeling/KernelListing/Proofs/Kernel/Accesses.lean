import KernelListing.Proofs.Kernel.Summary

/-!
# Accesses and declarations

A summary says which registers a block writes and reads, and the declarations of a graph say which
registers it has. They are made apart from each other and look at different slots, but where the
operands are such as are read from a source (`Regular`), a register is accessed if and only if it is
declared or a guard tests it (`accesses_ofStatements`).
-/

namespace KernelListing

/-- A register is accessed if it is a scalar of an operand that names registers, a constant guard
apart. -/
theorem Operand.mem_accessed {op : Operand} {n : Nat} : n ∈ op.accessed ↔
    op.isRegisterLike = true ∧ op.isAlwaysTrue = false ∧ op.isAlwaysFalse = false ∧
      ∃ x ∈ op.scalars, x.number = n := by
  unfold accessed
  cases op.isRegisterLike <;> cases op.isAlwaysTrue <;> cases op.isAlwaysFalse <;> simp

namespace Instruction

theorem mem_definitions_or_uses {i : Instruction} {n : Nat} :
    n ∈ i.definitions ∨ n ∈ i.uses ↔ ∃ s, n ∈ (i.operand s).accessed := by
  have haccessed : ∀ p : Slot → Bool, n ∈ i.accessedIn p ↔
      ∃ s, p s = true ∧ n ∈ (i.operand s).accessed := by
    intro p
    simp [accessedIn, Slot.mem_all]
  rw [definitions, uses, haccessed, haccessed, ← exists_or]
  refine exists_congr fun s => ?_
  cases i.writes s <;> simp

/-- What an instruction that has been read tells of its operands: only its guard can be constant,
its guard is one register, and its second destination is one of a comparison. -/
structure Regular (i : Instruction) : Prop where
  condition : ∀ s, s ≠ .guard → (i.operand s).condition = .ifTrue
  guard : i.guard.mode = .register ∧ i.guard.isVector = false
  second : i.q.isRegisterLike = true → i.opcode = .setp ∧ i.q.mode = .register

theorem IsGuard.isScalar {op : Operand} (h : IsGuard op) :
    op.mode = .register ∧ op.isVector = false := by
  cases h <;> exact ⟨rfl, rfl⟩

theorem IsRead.regular {i : Instruction} (h : IsRead i) : Regular i where
  condition s hs := (h.fits s).condition_eq hs
  guard := h.isGuard.isScalar
  second hlike := by
    rcases h.second with hq | ⟨hop, name, hq⟩
    · rw [hq] at hlike
      cases hlike
    · exact ⟨hop, by rw [hq]; rfl⟩

namespace Regular

variable {i j : Instruction}

theorem congr (hj : Regular j) (h : i.shape = j.shape) : Regular i := by
  obtain ⟨hopcode, hoperand⟩ := shape_eq_iff.1 h
  simp only [Operand.shape, Prod.mk.injEq] at hoperand
  obtain ⟨hmode, -, -, hvector⟩ := hoperand .guard
  obtain ⟨hmode', -⟩ := hoperand .q
  constructor
  · exact fun s hs => (hoperand s).2.2.1.trans (hj.condition s hs)
  · exact ⟨hmode.trans hj.guard.1, hvector.trans hj.guard.2⟩
  · intro hlike
    have hlike' : j.q.isRegisterLike = true := by
      rw [Operand.isRegisterLike] at hlike ⊢
      rwa [show j.q.mode = i.q.mode from hmode'.symm]
    obtain ⟨hop, hq⟩ := hj.second hlike'
    exact ⟨hopcode.trans hop, hmode'.trans hq⟩

variable (h : Regular i) {n : Nat}

include h

theorem mem_accessed {s : Slot} (hs : s ≠ .guard) : n ∈ (i.operand s).accessed ↔
    (i.operand s).isRegisterLike = true ∧ ∃ x ∈ (i.operand s).scalars, x.number = n := by
  have hcondition := h.condition s hs
  rw [Operand.mem_accessed]
  simp [Operand.isAlwaysTrue, Operand.isAlwaysFalse, hcondition]

theorem mem_accessed_guard : n ∈ i.guard.accessed ↔
    (i.guard.isAlwaysTrue = false ∧ i.guard.isAlwaysFalse = false) ∧ i.guard.number = n := by
  obtain ⟨hmode, hvector⟩ := h.guard
  have hscalar : i.guard.scalars = [i.guard] := by
    rw [Operand.scalars, if_pos (by simpa [Operand.isVector] using hvector)]
  rw [Operand.mem_accessed, hscalar]
  simp [Operand.isRegisterLike, hmode, and_assoc]

theorem mem_accessed_second : n ∈ i.q.accessed ↔
    i.opcode = .setp ∧ i.q.mode = .register ∧ ∃ x ∈ i.q.scalars, x.number = n := by
  have haccessed := h.mem_accessed (n := n) (s := .q) (by decide)
  rw [show i.operand .q = i.q from rfl] at haccessed
  rw [haccessed, ← and_assoc]
  refine and_congr_left fun _ => ⟨h.second, fun hq => ?_⟩
  simp [Operand.isRegisterLike, hq.2]

/-- What an instruction accesses are its registers that are declared and the predicate that it is
guarded by. -/
theorem accesses_iff : n ∈ i.definitions ∨ n ∈ i.uses ↔
    ((∃ op ∈ [i.d, i.a, i.b, i.c], op.isRegisterLike ∧ ∃ x ∈ op.scalars, x.number = n) ∨
      i.opcode = .setp ∧ i.q.mode = .register ∧ ∃ x ∈ i.q.scalars, x.number = n) ∨
    (i.guard.isAlwaysTrue = false ∧ i.guard.isAlwaysFalse = false) ∧ i.guard.number = n := by
  have harguments : (∃ op ∈ [i.d, i.a, i.b, i.c],
      op.isRegisterLike ∧ ∃ x ∈ op.scalars, x.number = n) ↔
        ∃ s ∈ Slot.arguments, n ∈ (i.operand s).accessed := by
    rw [show [i.d, i.a, i.b, i.c] = Slot.arguments.map i.operand from rfl]
    simp only [List.mem_map, exists_exists_and_eq_and]
    refine exists_congr fun s => and_congr_right fun hs => ?_
    rw [h.mem_accessed fun hguard => absurd (hguard ▸ hs) (by decide)]
  rw [mem_definitions_or_uses, harguments, ← h.mem_accessed_second, ← h.mem_accessed_guard]
  constructor
  · rintro ⟨s, hs⟩
    cases s with
    | guard => exact .inr hs
    | q => exact .inl (.inr hs)
    | d => exact .inl (.inl ⟨.d, by decide, hs⟩)
    | a => exact .inl (.inl ⟨.a, by decide, hs⟩)
    | b => exact .inl (.inl ⟨.b, by decide, hs⟩)
    | c => exact .inl (.inl ⟨.c, by decide, hs⟩)
  · rintro ((⟨s, -, hs⟩ | hs) | hs)
    · exact ⟨s, hs⟩
    · exact ⟨.q, hs⟩
    · exact ⟨.guard, hs⟩

end Regular

end Instruction

/-! ## Summaries -/

theorem nodup_eraseDups (l : List Nat) : l.eraseDups.Nodup := by
  match l with
  | [] => exact List.nodup_nil
  | n :: l =>
    rw [List.eraseDups_cons, List.nodup_cons, List.mem_eraseDups]
    exact ⟨by simp, nodup_eraseDups _⟩
termination_by l.length
decreasing_by exact Nat.lt_succ_of_le (List.length_filter_le ..)

namespace Dataflow

variable (g : FlowGraph)

theorem exists_accesses_ofGraph {n : Nat} :
    (∃ b ∈ (ofGraph g).blocks, n ∈ b.definitions ∨ n ∈ b.uses) ↔
      ∃ i ∈ g.instructions, n ∈ i.definitions ∨ n ∈ i.uses := by
  simp only [ofGraph, List.mem_map, exists_exists_and_eq_and, ofBlock, List.mem_eraseDups,
    List.mem_flatMap, FlowGraph.instructions]
  constructor
  · rintro ⟨b, hb, ⟨i, hi, hn⟩ | ⟨i, hi, hn⟩⟩
    · exact ⟨i, ⟨b, hb, hi⟩, .inl hn⟩
    · exact ⟨i, ⟨b, hb, hi⟩, .inr hn⟩
  · rintro ⟨i, ⟨b, hb, hi⟩, hn | hn⟩
    · exact ⟨b, hb, .inl ⟨i, hi, hn⟩⟩
    · exact ⟨b, hb, .inr ⟨i, hi, hn⟩⟩

theorem nodup_ofGraph {b : DataflowBlock} (hb : b ∈ (ofGraph g).blocks) :
    b.definitions.Nodup ∧ b.uses.Nodup := by
  obtain ⟨b, -, rfl⟩ := List.mem_map.1 hb
  exact ⟨nodup_eraseDups _, nodup_eraseDups _⟩

/-- An edge is counted at its head and at its tail. -/
theorem count_successors (h t : Block) :
    (ofBlock g h).successors.count t.id = (ofBlock g t).predecessors.count h.id := by
  simp only [ofBlock, FlowGraph.successors, FlowGraph.predecessors, List.count_eq_countP,
    List.countP_map, List.countP_filter]
  refine List.countP_congr fun e _ => ?_
  simp [and_comm]

end Dataflow

theorem Instruction.guard_unaddressed (i : Instruction) : i.unaddressed.guard = i.guard := by
  unfold unaddressed
  split <;> rfl

theorem FlowGraph.exists_accesses_iff {g : FlowGraph}
    (h : ∀ i ∈ g.instructions, i.Regular) {n : Nat} :
    (∃ i ∈ g.instructions, n ∈ i.definitions ∨ n ∈ i.uses) ↔
      n ∈ (Register.declarations g).map (·.number) ∨ ∃ i ∈ g.instructions,
        (i.guard.isAlwaysTrue = false ∧ i.guard.isAlwaysFalse = false) ∧ i.guard.number = n := by
  rw [Register.mem_numbers_declarations, ← exists_or]
  refine exists_congr fun i => ?_
  rw [← and_or_left]
  exact and_congr_right fun hi => (h i hi).accesses_iff

namespace Kernel

/-- Whatever has been asked of a kernel, a register is accessed in its summary if and only if its
graph declares it or a guard that is not constant tests it. No block lists a register twice, and two
blocks name each other as successor and predecessor equally often. -/
theorem accesses_ofStatements {text : String} {k : Kernel}
    (h : ofStatements (Source.read text).statements = .ok k) (rs : List Request) :
    (∀ n, (∃ b ∈ (k.afterRequests rs).dataflow.blocks, n ∈ b.definitions ∨ n ∈ b.uses) ↔
      n ∈ (Register.declarations (k.afterRequests rs).graph).map (·.number) ∨
        ∃ i ∈ (k.afterRequests rs).graph.instructions,
          (i.guard.isAlwaysTrue = false ∧ i.guard.isAlwaysFalse = false) ∧ i.guard.number = n) ∧
    (∀ b ∈ (k.afterRequests rs).dataflow.blocks, b.definitions.Nodup ∧ b.uses.Nodup) ∧
    ∀ b ∈ (k.afterRequests rs).dataflow.blocks, ∀ b' ∈ (k.afterRequests rs).dataflow.blocks,
      b.successors.count b'.id = b'.predecessors.count b.id := by
  have hregular : ∀ i ∈ (k.afterRequests rs).dataflow.blocks.flatMap (·.instructions),
      i.Regular := by
    intro i hi
    obtain ⟨j, hj, heq⟩ := exists_shape_eq_dataflow h hi
    have hread := Statement.isRead_of_mem_instructions (fun s hs => Source.isRead_of_mem_read hs) hj
    exact hread.regular.congr heq
  -- The summary is that of a graph that differs from the present one in labels alone.
  have hresembles := resembles_afterRequests (dataflow?_ofStatements h) rs
  obtain ⟨g, hg, hlike⟩ := hresembles.exists_dataflow
  have hsame := hlike.trans hresembles.graph.symm
  rw [hg] at hregular ⊢
  rw [Dataflow.instructions_ofGraph] at hregular
  refine ⟨fun n => ?_, fun b hb => Dataflow.nodup_ofGraph g hb, fun b hb b' hb' => ?_⟩
  · -- The guard is not touched by giving a branch another label.
    have hguard : ∀ p : Operand → Prop, (∃ i ∈ g.instructions, p i.guard) ↔
        ∃ i ∈ (k.afterRequests rs).graph.instructions, p i.guard := by
      intro p
      have hguards := FlowGraph.map_instructions_congr Instruction.guard_unaddressed hsame
      have hmap : ∀ is : List Instruction, (∃ i ∈ is, p i.guard) ↔ ∃ op ∈ is.map (·.guard), p op :=
        fun is => by simp only [List.mem_map, exists_exists_and_eq_and]
      rw [hmap, hmap]
      exact hguards ▸ Iff.rfl
    rw [Dataflow.exists_accesses_ofGraph, FlowGraph.exists_accesses_iff hregular,
      Register.declarations_congr hsame]
    exact or_congr_right (hguard fun op =>
      (op.isAlwaysTrue = false ∧ op.isAlwaysFalse = false) ∧ op.number = n)
  · obtain ⟨c, -, rfl⟩ := List.mem_map.1 hb
    obtain ⟨c', -, rfl⟩ := List.mem_map.1 hb'
    exact Dataflow.count_successors g c c'

/-- A comparison with two destinations, and a store that one of them guards. -/
def guarding : String := "setp.lt.s32 %p|%q, %a, 1;\n@!%p st.s32 [%b], %c;\nexit;\n"

def guardingInstructions : List Instruction := [
  { opcode := .setp, modifiers := ".lt", type := some .s32, d := .predicate "%p",
    q := .predicate "%q", a := .register "%a" .s32, b := .immediate 1 .s32 },
  { opcode := .st, type := some .s32, d := .indirect "%b" 0 .s32, a := .register "%c" .s32,
    guard := (Operand.predicate "%p").negate },
  { opcode := .exit }]

theorem read_guarding : Source.read guarding =
    { statements := guardingInstructions.map .instruction } := by
  decide +kernel

theorem accesses_ofStatements_guarding :
    ∃ k, ofStatements (Source.read guarding).statements = .ok k ∧
      ∀ n, (∃ b ∈ k.dataflow.blocks, n ∈ b.definitions ∨ n ∈ b.uses) ↔
        n ∈ (Register.declarations k.graph).map (·.number) ∨ ∃ i ∈ k.graph.instructions,
          (i.guard.isAlwaysTrue = false ∧ i.guard.isAlwaysFalse = false) ∧ i.guard.number = n := by
  obtain ⟨k, hk⟩ : ∃ k, ofStatements (Source.read guarding).statements = .ok k := by
    rw [read_guarding]
    exact ⟨_, rfl⟩
  exact ⟨k, hk, (accesses_ofStatements hk []).1⟩

end Kernel

end KernelListing
