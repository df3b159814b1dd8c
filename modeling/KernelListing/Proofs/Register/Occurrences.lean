import KernelListing.Proofs.Register.Declarations

/-!
# Declarations in the order of the occurrences

A walk that meets some registers keeps the first occurrence of each, in order
(`FirstOccurrences`). It remembers predicates apart from other registers, and `Met.Of` says that it
still knows exactly which registers it has met. So the declarations of a summary are the first
occurrences among the registers that it shows, where no predicates stand in a vector
(`firstOccurrences_shown`); a vector of predicates would be met as a register of its own.
-/

namespace KernelListing

theorem Dataflow.instructions_ofGraph (g : FlowGraph) :
    (ofGraph g).blocks.flatMap (·.instructions) = g.blocks.flatMap (·.instructions) := by
  rw [ofGraph, List.flatMap_map]
  rfl

namespace Register

/-! ## First occurrences -/

/-- How many registers stand in front of the first one with a number. -/
def position (n : Nat) (rs : List Register) : Nat := rs.findIdx (·.number = n)

/-- Some registers are the first occurrences of all registers in a list, in their order. -/
structure FirstOccurrences (rs occurring : List Register) : Prop where
  mem_iff : ∀ r, r ∈ rs ↔ first? r.number occurring = some r
  ordered : rs.Pairwise fun r r' => position r.number occurring < position r'.number occurring

section position

variable {r : Register} {n : Nat} {rs : List Register}

theorem position_lt_length (h : ∃ x ∈ rs, x.number = n) : position n rs < rs.length :=
  List.findIdx_lt_length.2 (by simpa using h)

theorem position_concat_of_mem (h : ∃ x ∈ rs, x.number = n) :
    position n (rs ++ [r]) = position n rs := by
  rw [position, List.findIdx_append, ← position, if_pos (position_lt_length h)]

theorem position_concat_of_not_mem (h : ¬ ∃ x ∈ rs, x.number = r.number) :
    position r.number (rs ++ [r]) = rs.length := by
  have hlength : position r.number rs = rs.length :=
    List.findIdx_eq_length.2 (by simpa using h)
  rw [position, List.findIdx_append, ← position, hlength, if_neg (Nat.lt_irrefl _)]
  simp [List.findIdx_cons]

end position

namespace FirstOccurrences

variable {rs occurring : List Register} {r : Register}

theorem nil : FirstOccurrences [] [] := ⟨by simp [first?], .nil⟩

theorem subset (h : FirstOccurrences rs occurring) : rs ⊆ occurring := fun r hr =>
  List.mem_of_find?_eq_some ((h.mem_iff r).1 hr)

theorem exists_mem (h : FirstOccurrences rs occurring) {n : Nat} :
    (∃ r ∈ rs, r.number = n) ↔ ∃ r ∈ occurring, r.number = n := by
  constructor
  · rintro ⟨r, hr, hn⟩
    exact ⟨r, h.subset hr, hn⟩
  · intro hn
    obtain ⟨r, hr⟩ := Option.isSome_iff_exists.1 (isSome_first?.2 hn)
    obtain rfl : r.number = n := by simpa using List.find?_some hr
    exact ⟨r, (h.mem_iff r).2 hr, rfl⟩

/-- No register stands there twice, since no position comes before itself. -/
theorem nodup (h : FirstOccurrences rs occurring) : (rs.map (·.number)).Nodup :=
  List.pairwise_map.2 (h.ordered.imp fun hlt heq => Nat.ne_of_lt hlt (congrArg (position · occurring) heq))

theorem concat_of_mem (h : FirstOccurrences rs occurring)
    (hr : ∃ x ∈ occurring, x.number = r.number) : FirstOccurrences rs (occurring ++ [r]) where
  mem_iff x := by
    rw [h.mem_iff, first?_append]
    by_cases hx : x.number = r.number
    · rw [hx, Option.or_of_isSome (isSome_first?.2 hr)]
    · simp [first?, Ne.symm hx]
  ordered := by
    refine h.ordered.imp_of_mem fun {x y} hx hy hlt => ?_
    rwa [position_concat_of_mem (h.exists_mem.1 ⟨x, hx, rfl⟩),
      position_concat_of_mem (h.exists_mem.1 ⟨y, hy, rfl⟩)]

theorem concat_of_not_mem (h : FirstOccurrences rs occurring)
    (hr : ¬ ∃ x ∈ occurring, x.number = r.number) :
    FirstOccurrences (rs ++ [r]) (occurring ++ [r]) where
  mem_iff x := by
    have hnone : first? r.number occurring = none := by
      rwa [← Option.not_isSome_iff_eq_none, isSome_first?]
    rw [List.mem_append, h.mem_iff, first?_append, List.mem_singleton]
    by_cases hx : x.number = r.number
    · rw [hx, hnone]
      simp [first?, eq_comm]
    · have hne : x ≠ r := fun heq => hx (by rw [heq])
      simp [first?, Ne.symm hx, hne]
  ordered := by
    -- Everything listed occurs in front of the new one, at the place where it was.
    have hmem : ∀ x ∈ rs, ∃ y ∈ occurring, y.number = x.number := fun x hx =>
      h.exists_mem.1 ⟨x, hx, rfl⟩
    refine List.pairwise_append.2 ⟨?_, List.pairwise_singleton .., fun x hx y hy => ?_⟩
    · refine h.ordered.imp_of_mem fun {x y} hx hy hlt => ?_
      rwa [position_concat_of_mem (hmem x hx), position_concat_of_mem (hmem y hy)]
    · rw [List.mem_singleton.1 hy, position_concat_of_not_mem hr,
        position_concat_of_mem (hmem x hx)]
      exact position_lt_length (hmem x hx)

end FirstOccurrences

/-! ## The walk -/

namespace Met

variable {m : Met} {rs : List Register}

/-- What has been met is what a list says: the walk knows which registers those are, and it has kept
their first occurrences. -/
structure Of (m : Met) (rs : List Register) : Prop where
  has_iff : ∀ n, m.has n = true ↔ ∃ r ∈ rs, r.number = n
  first : FirstOccurrences m.registers rs

/-- Whichever of the two sets a register goes to, it has been met from then on. -/
theorem has_add (m : Met) (r : Register) (n : Nat) :
    (m.add r).has n = true ↔ m.has n = true ∨ r.number = n := by
  unfold add has
  split <;> simp [List.mem_insert_iff, eq_comm (a := n)] <;> tauto

theorem Of.add (h : m.Of rs) (r : Register) : (m.add r).Of (rs ++ [r]) where
  has_iff n := by
    rw [has_add, h.has_iff]
    simp [or_and_right, exists_or]
  first := by
    unfold Met.add
    cases hhas : m.has r.number with
    | true => exact h.first.concat_of_mem ((h.has_iff _).1 hhas)
    | false => exact h.first.concat_of_not_mem (mt (h.has_iff _).2 (by simp [hhas]))

theorem of_foldl (rs : List Register) : (rs.foldl Met.add {}).Of rs := by
  induction rs using List.reverseRecOn with
  | nil => exact ⟨by simp [has], .nil⟩
  | append_singleton rs r ih =>
    rw [List.foldl_append]
    exact ih.add r

end Met

/-! ## What a summary shows -/

/-- The slots that are looked at for declarations in order. Of a bit field insertion that is the
destination alone, and a store is passed over. -/
def visitedSlots (opcode : Opcode) : List Slot :=
  if opcode = .st then [] else if opcode = .bfi then [.d] else [.q, .d, .a]

/-- The operands that are registers, or vectors of registers, in the slots that are looked at. -/
def visited (i : Instruction) : List Operand :=
  ((visitedSlots i.opcode).map i.operand).filter (·.mode = .register)

theorem mem_visited {i : Instruction} {op : Operand} :
    op ∈ visited i ↔ ∃ s ∈ visitedSlots i.opcode, i.operand s = op ∧ op.mode = .register := by
  simp only [visited, List.mem_filter, List.mem_map, decide_eq_true_eq]
  exact ⟨fun ⟨⟨s, hs, hop⟩, hmode⟩ => ⟨s, hs, hop, hmode⟩,
    fun ⟨s, hs, hop, hmode⟩ => ⟨⟨s, hs, hop⟩, hmode⟩⟩

/-- The registers that an instruction shows, those in vectors one by one. -/
def shown (i : Instruction) : List Register := (visited i).flatMap ofOperand

/-- A predicate that is looked at is not a vector. -/
def ScalarPredicates (i : Instruction) : Prop :=
  ∀ op ∈ visited i, op.isVector = true → op.isPredicate = false

instance : DecidablePred ScalarPredicates := fun i =>
  inferInstanceAs (Decidable (∀ op ∈ visited i, op.isVector = true → op.isPredicate = false))

theorem inspected_eq (i : Instruction) : inspected i = (visitedSlots i.opcode).map i.operand := by
  unfold inspected visitedSlots
  split
  · rfl
  · split <;> rfl

/-- A predicate that is no vector has itself for its only register. -/
theorem occurrences_eq_ofOperand {op : Operand} (hmode : op.mode = .register)
    (h : op.isVector = true → op.isPredicate = false) : occurrences op = ofOperand op := by
  unfold occurrences ofOperand
  cases hpredicate : op.isPredicate with
  | false => simp [hmode]
  | true =>
    have hscalar : op.elements.isEmpty = true := by
      simpa [Operand.isVector, hpredicate] using h
    simp [hmode, Operand.scalars, hscalar]

theorem occurrences_eq_shown {i : Instruction} (h : ScalarPredicates i) :
    (inspected i).flatMap occurrences = shown i := by
  have hvisited : ∀ ops : List Operand,
      (∀ op ∈ ops.filter (·.mode = .register), op.isVector = true → op.isPredicate = false) →
        ops.flatMap occurrences = (ops.filter (·.mode = .register)).flatMap ofOperand := by
    intro ops hops
    induction ops with
    | nil => rfl
    | cons op ops ih =>
      by_cases hmode : op.mode = .register
      · rw [List.filter_cons_of_pos (by simpa using hmode)] at hops ⊢
        obtain ⟨hop, hops⟩ := List.forall_mem_cons.1 hops
        rw [List.flatMap_cons, List.flatMap_cons, ih hops, occurrences_eq_ofOperand hmode hop]
      · rw [List.filter_cons_of_neg (by simpa using hmode)] at hops ⊢
        rw [List.flatMap_cons, ih hops, occurrences, if_pos hmode, List.nil_append]
  rw [inspected_eq]
  exact hvisited _ h

/-- The declarations of a summary are the first occurrences of the registers that it shows. -/
theorem firstOccurrences_shown {s : Dataflow}
    (h : ∀ i ∈ s.blocks.flatMap (·.instructions), ScalarPredicates i) :
    FirstOccurrences (declarationsInOrder s)
      ((s.blocks.flatMap (·.instructions)).flatMap shown) := by
  rw [declarationsInOrder, List.flatMap_assoc,
    List.flatMap_congr fun i hi => occurrences_eq_shown (h i hi)]
  exact (Met.of_foldl _).first

end Register

end KernelListing
