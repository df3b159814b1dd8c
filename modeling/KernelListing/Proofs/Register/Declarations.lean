import Mathlib.Data.List.Induction
import KernelListing.Proofs.FlowGraph.Places
import KernelListing.Register.Declarations

/-!
# Declarations in closed form

The declarations of a graph are made by one table that definitions overwrite and reads only fill. So
the type of a register is that of its last definition in the graph, and that of its first read if it
is never defined (`declarations_closed`), however the two are mixed.

What a table says of a register is `register?`. That a table has `Recorded` some definitions and
some reads is kept by a definition, which goes in front of all others, and by a read, which goes
behind all others (`Recorded.define`, `Recorded.read`). A walk therefore does not have to know which
registers it has seen defined.
-/

namespace KernelListing

namespace SortedTable

variable {α : Type} {t : SortedTable Nat α} {key k : Nat}

theorem lookup_cons (k' : Nat) (v : α) : List.lookup k ((k', v) :: t) =
    if k = k' then some v else t.lookup k := by
  rw [List.lookup_cons]
  by_cases h : k = k'
  · rw [if_pos h, beq_iff_eq.2 h]
  · rw [if_neg h, beq_eq_false_iff_ne.2 h]

theorem lookup_eq_none_of_lt (h : ∀ k ∈ keys t, key < k) : t.lookup key = none := by
  rw [List.lookup_eq_none_iff]
  intro p hp
  exact bne_iff_ne.2 (Nat.ne_of_lt (h p.1 (List.mem_map_of_mem hp)))

theorem lookup_upsert (h : (keys t).Pairwise (· < ·)) (f : Option α → α) :
    (upsert key f t).lookup k = if k = key then some (f (t.lookup key)) else t.lookup k := by
  induction t with
  | nil => exact lookup_cons key _
  | cons entry rest ih =>
    obtain ⟨k', v⟩ := entry
    obtain ⟨hk', hrest⟩ := List.pairwise_cons.1 h
    rw [upsert]
    split
    · next hlt =>
      -- The keys ascend, so a key below the first one is not in the table.
      have hnone : List.lookup key ((k', v) :: rest) = none := by
        refine lookup_eq_none_of_lt fun k hk => ?_
        rcases List.mem_cons.1 hk with rfl | hk
        · exact hlt
        · exact Nat.lt_trans hlt (hk' k hk)
      rw [lookup_cons, hnone]
    · split
      · next hgt =>
        rw [lookup_cons, lookup_cons, lookup_cons, if_neg (Nat.ne_of_gt hgt), ih hrest]
        by_cases hk : k = k'
        · rw [if_pos hk, if_pos hk, if_neg (hk ▸ Nat.ne_of_lt hgt)]
        · rw [if_neg hk, if_neg hk]
      · next hle hge =>
        obtain rfl := Nat.le_antisymm (Nat.not_lt.1 hge) (Nat.not_lt.1 hle)
        rw [lookup_cons, lookup_cons, lookup_cons, if_pos rfl]
        split <;> rfl

theorem mem_iff_lookup (h : (keys t).Pairwise (· < ·)) {v : α} :
    (k, v) ∈ t ↔ t.lookup k = some v := by
  induction t with
  | nil => simp
  | cons entry rest ih =>
    obtain ⟨k', v'⟩ := entry
    obtain ⟨hk', hrest⟩ := List.pairwise_cons.1 h
    rw [List.mem_cons, ih hrest, lookup_cons]
    by_cases hk : k = k'
    · subst hk
      have hnone : rest.lookup k = none := lookup_eq_none_of_lt hk'
      simp [hnone, eq_comm]
    · simp [hk]

end SortedTable

namespace Register

/-! ## What decides -/

/-- The registers of an operand, with their types there. -/
def ofOperand (op : Operand) : List Register :=
  op.scalars.map fun s => { number := s.number, type := s.type }

/-- The registers that an operand names as values or as the base of an address. -/
def named (op : Operand) : List Register := if op.isRegisterLike then ofOperand op else []

/-- The registers that an instruction defines: those of its destination, which branches and stores
only read, and those of the second destination of a comparison. -/
def definedBy (i : Instruction) : List Register :=
  (if i.opcode ∈ [.bra, .st] then [] else named i.d) ++
    if i.opcode = .setp ∧ i.q.mode = .register then ofOperand i.q else []

/-- The registers that an instruction reads, its guard apart. -/
def readBy (i : Instruction) : List Register :=
  (if i.opcode ∈ [.bra, .st] then named i.d else []) ++ [i.a, i.b, i.c].flatMap named

def first? (n : Nat) (rs : List Register) : Option Register := rs.find? (·.number = n)

def last? (n : Nat) (rs : List Register) : Option Register := (rs.filter (·.number = n)).getLast?

theorem first?_append (n : Nat) (rs rs' : List Register) :
    first? n (rs ++ rs') = (first? n rs).or (first? n rs') := List.find?_append

theorem last?_append (n : Nat) (rs rs' : List Register) :
    last? n (rs ++ rs') = (last? n rs').or (last? n rs) := by
  rw [last?, List.filter_append, List.getLast?_append, last?, last?]

theorem isSome_first? {n : Nat} {rs : List Register} :
    (first? n rs).isSome ↔ ∃ r ∈ rs, r.number = n := by
  simp [first?]

theorem isSome_last? {n : Nat} {rs : List Register} :
    (last? n rs).isSome ↔ ∃ r ∈ rs, r.number = n := by
  rw [last?, List.getLast?_isSome, ← List.length_pos_iff, List.length_filter_pos_iff]
  simp

/-! ## What a table says -/

/-- The register with a number, as a table has it. -/
def register? (types : Types) (n : Nat) : Option Register :=
  (types.lookup n).map fun type => { number := n, type }

/-- The table says what some definitions and some reads say: the last definition of a register, or
else its first read. -/
structure Recorded (types : Types) (defined read : List Register) : Prop where
  ascending : (SortedTable.keys types).Pairwise (· < ·)
  register?_eq : ∀ n, register? types n = (last? n defined).or (first? n read)

namespace Recorded

variable {types : Types} {ds rs : List Register}

theorem nil : Recorded [] [] [] := ⟨.nil, fun _ => rfl⟩

theorem define (h : Recorded types ds rs) (r : Register) :
    Recorded (SortedTable.insert r.number r.type types) (ds ++ [r]) rs where
  ascending := SortedTable.keys_upsert_pairwise Nat.lt_trans h.ascending
  register?_eq n := by
    have hinsert : register? (SortedTable.insert r.number r.type types) n =
        (last? n [r]).or (register? types n) := by
      rw [register?, SortedTable.insert, SortedTable.lookup_upsert h.ascending, register?]
      by_cases hn : n = r.number
      · subst hn
        simp [last?]
      · simp [last?, hn, Ne.symm hn]
    rw [hinsert, h.register?_eq, last?_append, Option.or_assoc]

theorem read (h : Recorded types ds rs) (r : Register) :
    Recorded (SortedTable.insertIfNew r.number r.type types) ds (rs ++ [r]) where
  ascending := SortedTable.keys_upsert_pairwise Nat.lt_trans h.ascending
  register?_eq n := by
    have hinsert : register? (SortedTable.insertIfNew r.number r.type types) n =
        (register? types n).or (first? n [r]) := by
      rw [register?, SortedTable.insertIfNew, SortedTable.lookup_upsert h.ascending, register?]
      by_cases hn : n = r.number
      · subst hn
        cases types.lookup r.number <;> simp [first?]
      · simp [first?, hn, Ne.symm hn]
    rw [hinsert, h.register?_eq, first?_append, Option.or_assoc]

theorem recordDefinitions (h : Recorded types ds rs) (op : Operand) :
    Recorded (recordDefinitions types op) (ds ++ ofOperand op) rs := by
  unfold Register.recordDefinitions ofOperand
  induction op.scalars generalizing types ds with
  | nil => simpa using h
  | cons s rest ih =>
    rw [List.map_cons, List.append_cons]
    exact ih (h.define { number := s.number, type := s.type })

theorem recordReads (h : Recorded types ds rs) (op : Operand) :
    Recorded (recordReads types op) ds (rs ++ named op) := by
  unfold Register.recordReads named ofOperand
  split
  · induction op.scalars generalizing types rs with
    | nil => simpa using h
    | cons s rest ih =>
      rw [List.map_cons, List.append_cons]
      exact ih (h.read { number := s.number, type := s.type })
  · rwa [List.append_nil]

theorem foldl_recordReads (h : Recorded types ds rs) (ops : List Operand) :
    Recorded (ops.foldl Register.recordReads types) ds (rs ++ ops.flatMap named) := by
  induction ops generalizing types rs with
  | nil => simpa using h
  | cons op rest ih =>
    rw [List.flatMap_cons, ← List.append_assoc]
    exact ih (h.recordReads op)

theorem recordDestination (h : Recorded types ds rs) (i : Instruction) :
    Recorded (recordDestination types i) (ds ++ if i.opcode ∈ [.bra, .st] then [] else named i.d)
      (rs ++ if i.opcode ∈ [.bra, .st] then named i.d else []) := by
  unfold Register.recordDestination Opcode.definesDestination
  by_cases hop : i.opcode ∈ [.bra, .st]
  · simpa [hop] using h.recordReads i.d
  · cases hd : i.d.isRegisterLike
    · simpa [hop, hd, named, Register.recordReads] using h
    · simpa [hop, hd, named] using h.recordDefinitions i.d

theorem recordSecond (h : Recorded types ds rs) (i : Instruction) :
    Recorded (recordSecond types i)
      (ds ++ if i.opcode = .setp ∧ i.q.mode = .register then ofOperand i.q else []) rs := by
  unfold Register.recordSecond
  split
  · exact h.recordDefinitions i.q
  · rwa [List.append_nil]

theorem recordInstruction (h : Recorded types ds rs) (i : Instruction) :
    Recorded (recordInstruction types i) (ds ++ definedBy i) (rs ++ readBy i) := by
  rw [definedBy, readBy, ← List.append_assoc, ← List.append_assoc]
  exact ((h.recordDestination i).foldl_recordReads [i.a, i.b, i.c]).recordSecond i

/-- A walk has recorded what all instructions define and what all of them read. -/
theorem foldl_recordInstruction (is : List Instruction) :
    Recorded (is.foldl Register.recordInstruction []) (is.flatMap definedBy)
      (is.flatMap readBy) := by
  induction is using List.reverseRecOn with
  | nil => exact nil
  | append_singleton is i ih =>
    rw [List.foldl_append, List.flatMap_append, List.flatMap_append, List.flatMap_singleton,
      List.flatMap_singleton]
    exact ih.recordInstruction i

theorem mem_iff (h : Recorded types ds rs) {r : Register} :
    r ∈ types.map (fun (number, type) => ({ number, type } : Register)) ↔
      (last? r.number ds).or (first? r.number rs) = some r := by
  obtain ⟨n, type⟩ := r
  simp only [← h.register?_eq, register?, Option.map_eq_some_iff, List.mem_map, Prod.exists,
    Register.mk.injEq, ← SortedTable.mem_iff_lookup h.ascending]
  constructor
  · rintro ⟨n', type', hmem, rfl, rfl⟩
    exact ⟨type', hmem, trivial, rfl⟩
  · rintro ⟨type', hmem, -, rfl⟩
    exact ⟨n, type', hmem, rfl, rfl⟩

theorem mem_keys_iff (h : Recorded types ds rs) {n : Nat} :
    n ∈ SortedTable.keys types ↔ (∃ r ∈ ds, r.number = n) ∨ ∃ r ∈ rs, r.number = n := by
  have hkey : n ∈ SortedTable.keys types ↔ (register? types n).isSome := by
    simp [SortedTable.keys, register?, Option.isSome_iff_exists,
      ← SortedTable.mem_iff_lookup h.ascending]
  rw [hkey, h.register?_eq, Option.isSome_or, Bool.or_eq_true, isSome_last?, isSome_first?]

end Recorded

theorem exists_mem_ofOperand {op : Operand} {n : Nat} :
    (∃ r ∈ ofOperand op, r.number = n) ↔ ∃ s ∈ op.scalars, s.number = n := by
  simp [ofOperand]

theorem exists_mem_named {op : Operand} {n : Nat} :
    (∃ r ∈ named op, r.number = n) ↔ op.isRegisterLike ∧ ∃ s ∈ op.scalars, s.number = n := by
  unfold named
  split
  · next hop => rw [exists_mem_ofOperand, and_iff_right hop]
  · next hop => simp [hop]

theorem exists_mem_flatMap {α : Type} {f : α → List Register} {l : List α} {n : Nat} :
    (∃ r ∈ l.flatMap f, r.number = n) ↔ ∃ a ∈ l, ∃ r ∈ f a, r.number = n := by
  simp only [List.mem_flatMap]
  constructor
  · rintro ⟨r, ⟨a, ha, hr⟩, hn⟩
    exact ⟨a, ha, r, hr, hn⟩
  · rintro ⟨a, ha, r, hr, hn⟩
    exact ⟨r, ⟨a, ha, hr⟩, hn⟩

theorem exists_mem_definedBy_or_readBy {i : Instruction} {n : Nat} :
    (∃ r ∈ definedBy i, r.number = n) ∨ (∃ r ∈ readBy i, r.number = n) ↔
      (∃ op ∈ [i.d, i.a, i.b, i.c], op.isRegisterLike ∧ ∃ s ∈ op.scalars, s.number = n) ∨
        i.opcode = .setp ∧ i.q.mode = .register ∧ ∃ s ∈ i.q.scalars, s.number = n := by
  have hdestination : (∃ r ∈ (if i.opcode ∈ [.bra, .st] then [] else named i.d), r.number = n) ∨
      (∃ r ∈ (if i.opcode ∈ [.bra, .st] then named i.d else []), r.number = n) ↔
        ∃ r ∈ named i.d, r.number = n := by
    split <;> simp
  have hsecond : (∃ r ∈ (if i.opcode = .setp ∧ i.q.mode = .register then ofOperand i.q else []),
      r.number = n) ↔
        i.opcode = .setp ∧ i.q.mode = .register ∧ ∃ s ∈ i.q.scalars, s.number = n := by
    rw [← and_assoc, ← exists_mem_ofOperand]
    split
    · next hq => rw [and_iff_right hq]
    · next hq => simp [hq]
  simp only [definedBy, readBy, ← exists_mem_named, List.mem_append, or_and_right, exists_or,
    hsecond]
  rw [List.exists_mem_cons_iff, ← hdestination, ← exists_mem_flatMap]
  exact Iff.of_eq (by ac_rfl)

/-! ## The declarations of a graph -/

section graph

variable (g : FlowGraph)

theorem numbers_declarations : (declarations g).map (·.number) =
    SortedTable.keys (g.instructions.foldl recordInstruction []) := by
  rw [declarations, List.map_map]
  rfl

theorem ascending_declarations : ((declarations g).map (·.number)).Pairwise (· < ·) := by
  rw [numbers_declarations]
  exact (Recorded.foldl_recordInstruction g.instructions).ascending

variable {g}

theorem mem_declarations {r : Register} : r ∈ declarations g ↔
    (last? r.number (g.instructions.flatMap definedBy)).or
      (first? r.number (g.instructions.flatMap readBy)) = some r :=
  (Recorded.foldl_recordInstruction g.instructions).mem_iff

theorem mem_numbers_declarations {n : Nat} : n ∈ (declarations g).map (·.number) ↔
    ∃ i ∈ g.instructions,
      (∃ op ∈ [i.d, i.a, i.b, i.c], op.isRegisterLike ∧ ∃ s ∈ op.scalars, s.number = n) ∨
        i.opcode = .setp ∧ i.q.mode = .register ∧ ∃ s ∈ i.q.scalars, s.number = n := by
  rw [numbers_declarations, (Recorded.foldl_recordInstruction g.instructions).mem_keys_iff,
    exists_mem_flatMap, exists_mem_flatMap, ← exists_or]
  simp only [← and_or_left, exists_mem_definedBy_or_readBy]

end graph

/-- The declarations of a graph stand in ascending order, each register once; the declared registers
are those that some instruction names in its arguments or sets as second result of a comparison; and
each has the type of its last definition, or, where it is never defined, that of its first read. -/
theorem declarations_closed (g : FlowGraph) :
    ((declarations g).map (·.number)).Pairwise (· < ·) ∧
      (∀ n, n ∈ (declarations g).map (·.number) ↔ ∃ i ∈ g.instructions,
        (∃ op ∈ [i.d, i.a, i.b, i.c], op.isRegisterLike ∧ ∃ s ∈ op.scalars, s.number = n) ∨
          i.opcode = .setp ∧ i.q.mode = .register ∧ ∃ s ∈ i.q.scalars, s.number = n) ∧
      ∀ r, r ∈ declarations g ↔
        (last? r.number (g.instructions.flatMap definedBy)).or
          (first? r.number (g.instructions.flatMap readBy)) = some r :=
  ⟨ascending_declarations g, fun _ => mem_numbers_declarations, fun _ => mem_declarations⟩

end Register

end KernelListing
