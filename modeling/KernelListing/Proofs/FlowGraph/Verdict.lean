import KernelListing.Proofs.FlowGraph.Landings

/-!
# Which statements have a graph

`Statement.verdict` is the error that some statements make, read off the statements alone. The
first statement that repeats a label, calls, or exits a second time comes before all else; then
an exit that is missing; then the first branch to a name that no instruction stands behind.
`ofStatements_verdict` says that this is what building the graph answers, and that there is a
graph where there is no error. Only a list that opens more blocks than there are ids gets the
fault of `newId` instead.
-/

namespace KernelListing

namespace Statement

/-- The error that a statement makes behind others, whatever else is wrong with them. -/
def defect? (front : List Statement) : Statement → Option BuildError
  | .label l => if .label l ∈ front then some (.duplicateLabel l front.length) else none
  | .instruction i =>
    if i.opcode = .call then some (.unsupportedControlFlow .call front.length)
    else if i.opcode = .exit ∧ (instructions front).any (·.opcode = .exit) then
      some (.duplicateExit front.length)
    else none
  | _ => none

/-- The error of the first statement that makes one. -/
def firstDefect? (ss : List Statement) : Option BuildError :=
  ss.zipIdx.findSome? fun x => defect? (ss.take x.2) x.1

/-- The first branch to a name that is not that of a label with an instruction behind it. -/
def danglingBranch? (ss : List Statement) : Option Instruction :=
  (instructions ss).find? fun i => i.opcode = .bra ∧ i.d.name ∉ (landings ss).map Prod.fst

/-- The error that some statements make. -/
def verdict (ss : List Statement) : Option BuildError :=
  (firstDefect? ss).or <|
    if (instructions ss).any (·.opcode = .exit) then
      (danglingBranch? ss).map fun i => .undefinedLabel i.d.name
    else some .missingExit

theorem firstDefect?_concat (ss : List Statement) (s : Statement) :
    firstDefect? (ss ++ [s]) = (firstDefect? ss).or (defect? ss s) := by
  -- A statement is judged by those in front of it alone, so one more at the end changes nothing.
  have hfront : ∀ xs : List (Statement × Nat), (∀ x ∈ xs, x.2 ≤ ss.length) →
      xs.findSome? (fun x => defect? ((ss ++ [s]).take x.2) x.1) =
        xs.findSome? (fun x => defect? (ss.take x.2) x.1) := by
    intro xs hle
    induction xs with
    | nil => rfl
    | cons x xs ih =>
      rw [List.findSome?_cons, List.findSome?_cons,
        ih fun x' hx' => hle x' (List.mem_cons_of_mem x hx'),
        List.take_append_of_le_length (hle x (List.mem_cons_self ..))]
  rw [firstDefect?, List.zipIdx_append, List.findSome?_append,
    hfront _ fun x hx => Nat.le_of_lt (List.snd_lt_of_mem_zipIdx hx), firstDefect?]
  simp

end Statement

namespace FlowGraph

/-! ## The scan -/

theorem length_closed_le {ss : List Statement} {o : Outline} (h : outline ss = .ok o) :
    o.closed.length ≤ ss.length := by
  refine outline_induction (motive := fun ss o => o.closed.length ≤ ss.length)
    (Nat.le_refl 0) (fun ss s o o' _ ih ht => ?_) h
  rw [List.length_append, List.length_singleton]
  cases ht with
  | labelHere => exact Nat.le_succ_of_le ih
  | labelNext => exact Outline.length_segments o ▸ Nat.succ_le_succ ih
  | plain => exact Nat.le_succ_of_le ih
  | transfer => exact Outline.length_segments (o.push _) ▸ Nat.succ_le_succ ih
  | declaration => exact Nat.le_succ_of_le ih

theorem exits_eq_any {s : Segment} (h : s.Closed) :
    s.exits = s.instructions.any (·.opcode = .exit) := by
  obtain ⟨i, hlast⟩ := h.exists_last
  have hfront : s.instructions.dropLast.any (·.opcode = .exit) = false := by
    refine List.any_eq_false.2 fun i' hi' => ?_
    simpa using Segment.ne_of_plain (h.plain i' hi') .exit rfl
  conv_rhs => rw [Segment.eq_concat_of_last hlast, List.any_append, hfront]
  simp [Segment.exits_of_last hlast]

theorem any_exits {ss : List Statement} {o : Outline} (h : outline ss = .ok o) :
    o.closed.any Segment.exits = (Statement.instructions ss).any (·.opcode = .exit) := by
  have hsound := outline_sound h
  have hlast : o.last.instructions.any (·.opcode = .exit) = false := by
    refine List.any_eq_false.2 fun i hi => ?_
    simpa using Segment.ne_of_plain (hsound.last_plain i hi) .exit rfl
  rw [← instructions_segments h, List.any_flatMap, Outline.segments, List.any_append,
    List.any_cons, hlast, List.any_nil, Bool.or_false, Bool.or_false]
  rw [Bool.eq_iff_iff, List.any_eq_true, List.any_eq_true]
  refine exists_congr fun s => and_congr_right fun hs => ?_
  rw [exits_eq_any (hsound.closed s hs)]

theorem close_cases (o : Outline) (entered : Bool) :
    o.close entered = .error (.fault .idsExhausted) ∧ idLimit ≤ o.closed.length + 3 ∨
      ∃ o', o.close entered = .ok o' ∧ o'.labels = o.labels := by
  unfold Outline.close
  split
  · exact .inr ⟨_, rfl, o.labels_close entered⟩
  · next hroom => exact .inl ⟨rfl, Nat.le_of_not_lt hroom⟩

/-- A step makes the error of its statement, if it has one. -/
theorem step_verdict {ss : List Statement} {o : Outline} (h : outline ss = .ok o)
    (s : Statement) :
    o.step (s, ss.length) = .error (.fault .idsExhausted) ∧ idLimit ≤ o.closed.length + 3 ∨
      match Statement.defect? ss s with
      | some e => o.step (s, ss.length) = .error e
      | none => ∃ o', o.step (s, ss.length) = .ok o' := by
  cases s with
  | label l =>
    have hmem : l ∈ o.labels ↔ .label l ∈ ss := by rw [labels_outline h, Statement.mem_labels]
    have hclose : o.closeForLabel = .error (.fault .idsExhausted) ∧
        idLimit ≤ o.closed.length + 3 ∨ ∃ o', o.closeForLabel = .ok o' ∧ o'.labels = o.labels := by
      unfold Outline.closeForLabel
      split
      · exact .inr ⟨o, rfl, rfl⟩
      · exact close_cases o true
    simp only [Outline.step, Outline.stepLabel, Statement.defect?]
    rcases hclose with ⟨hfault, hids⟩ | ⟨o', hok, hlabels⟩
    · rw [hfault]
      exact .inl ⟨rfl, hids⟩
    · refine .inr ?_
      simp only [hok, bind, Except.bind, hlabels, hmem]
      by_cases hl : Statement.label l ∈ ss
      · simp only [hl, if_true]
        rfl
      · simp only [hl, if_false]
        exact ⟨_, rfl⟩
  | instruction i =>
    simp only [Outline.step, Outline.stepInstruction, Statement.defect?, any_exits h]
    by_cases hcall : i.opcode = .call
    · simp [hcall]
    · by_cases hexit : i.opcode = .exit ∧
          (Statement.instructions ss).any (·.opcode = .exit) = true
      · simp only [hexit, and_self, if_true]
        exact .inr rfl
      · simp only [hcall, if_false, hexit]
        split
        · rcases close_cases (o.push i) i.goesOn with hfault | ⟨o', hok, -⟩
          · exact .inl hfault
          · exact .inr ⟨o', hok⟩
        · exact .inr ⟨_, rfl⟩
  | parameter p => exact .inr ⟨o, rfl⟩
  | localVariable v => exact .inr ⟨o, rfl⟩
  | sharedVariable v => exact .inr ⟨o, rfl⟩
  | entry name => exact .inr ⟨o, rfl⟩

/-- The scan stops at the first statement that makes an error. -/
theorem outline_verdict (ss : List Statement) :
    outline ss = .error (.fault .idsExhausted) ∧ idLimit ≤ ss.length + 2 ∨
      match Statement.firstDefect? ss with
      | some e => outline ss = .error e
      | none => ∃ o, outline ss = .ok o := by
  induction ss using List.reverseRecOn with
  | nil => exact .inr ⟨{}, rfl⟩
  | append_singleton ss s ih =>
    rw [outline_concat, Statement.firstDefect?_concat, List.length_append, List.length_singleton]
    rcases ih with ⟨hfault, hids⟩ | hih
    · rw [hfault]
      exact .inl ⟨rfl, Nat.le_succ_of_le hids⟩
    · cases hfirst : Statement.firstDefect? ss with
      | some e =>
        rw [hfirst] at hih
        rw [show outline ss = .error e from hih]
        exact .inr rfl
      | none =>
        rw [hfirst] at hih
        obtain ⟨o, ho⟩ := hih
        rw [ho, Option.none_or]
        refine (step_verdict ho s).imp_left fun ⟨hfault, hids⟩ => ⟨hfault, ?_⟩
        exact Nat.le_trans hids (Nat.add_le_add_right (length_closed_le ho) 3)

/-! ## The targets of branches -/

/-- A name stands for a segment exactly if it is that of a label with an instruction behind. -/
theorem isNone_lookup_namesOf {ss : List Statement} {o : Outline} (h : outline ss = .ok o)
    (l : String) :
    ((namesOf o.filled).lookup l).isNone = decide (l ∉ (Statement.landings ss).map Prod.fst) := by
  have hmem : l ∈ (Statement.landings ss).map Prod.fst ↔ l ∈ (namesOf o.filled).map Prod.fst := by
    rw [map_fst_namesOf, List.mem_reverse, List.mem_map, List.mem_flatMap]
    constructor
    · rintro ⟨⟨l, j⟩, hl, rfl⟩
      obtain ⟨k, s, hs, hmem, -⟩ := (mem_landings_iff h).1 hl
      exact ⟨s, List.mem_of_getElem? hs, hmem⟩
    · rintro ⟨s, hs, hmem⟩
      obtain ⟨k, hk⟩ := List.getElem?_of_mem hs
      exact ⟨(l, _), (mem_landings_iff h).2 ⟨k, s, hk, hmem, rfl⟩, rfl⟩
  rw [Bool.eq_iff_iff, decide_eq_true_iff, hmem, Option.isNone_iff_eq_none, List.lookup_eq_none_iff]
  simp only [List.mem_map, not_exists, not_and, bne_iff_ne]
  exact ⟨fun hne p hp heq => hne p hp heq.symm, fun hne p hp heq => hne p hp heq.symm⟩

theorem find?_instructions {s : Segment} (h : s.Closed) (id : BlockId) (p : String → Bool) :
    (s.instructions.find? fun i => i.opcode = .bra ∧ p i.d.name).map (·.d.name) =
      ((s.openBranch? id).toList.find? fun b => p b.target).map (·.target) := by
  obtain ⟨i, hlast⟩ := h.exists_last
  have hfront : s.instructions.dropLast.find? (fun i => i.opcode = .bra ∧ p i.d.name) = none := by
    refine List.find?_eq_none.2 fun i' hi' => ?_
    simp [Segment.ne_of_plain (h.plain i' hi') .bra rfl]
  rw [Segment.eq_concat_of_last hlast, List.find?_append, hfront, Option.none_or]
  by_cases hop : i.opcode = .bra
  · rw [Segment.openBranch?_of_bra hlast hop]
    cases hp : p i.d.name <;> simp [hop, hp]
  · simp [Segment.openBranch?_of_ne_bra hlast hop, hop]

theorem find?_branchesOf {ss : List Segment} (h : ∀ s ∈ ss, s.Closed) (p : String → Bool) :
    ((ss.flatMap (·.instructions)).find? fun i => i.opcode = .bra ∧ p i.d.name).map (·.d.name) =
      ((branchesOf ss).find? fun b => p b.target).map (·.target) := by
  -- Only the last instruction of a segment may be a branch, so the two searches meet the same ones.
  induction ss using List.reverseRecOn with
  | nil => rfl
  | append_singleton ss s ih =>
    have ih := ih fun s hs => h s (List.mem_append_left _ hs)
    have hs := find?_instructions (h s (by simp)) (ss.length + 2) p
    rw [branchesOf_concat, List.find?_append, List.flatMap_append, List.find?_append,
      List.flatMap_singleton, Option.map_or, Option.map_or, ih, hs]

/-- The first branch whose target is not there, among the statements and among the segments. -/
theorem danglingBranch?_eq {ss : List Statement} {o : Outline} (h : outline ss = .ok o) :
    (Statement.danglingBranch? ss).map (·.d.name) =
      (dangling? o.filled o.filled).map (·.target) := by
  have hfind := find?_branchesOf (outline_sound h).filled
    fun l => decide (l ∉ (Statement.landings ss).map Prod.fst)
  rw [instructions_filled h] at hfind
  simp only [decide_eq_true_eq] at hfind
  rw [Statement.danglingBranch?, hfind, dangling?]
  simp only [isNone_lookup_namesOf h]

theorem any_exits_filled {ss : List Statement} {o : Outline} (h : outline ss = .ok o) :
    o.filled.any Segment.exits = (Statement.instructions ss).any (·.opcode = .exit) := by
  rw [← instructions_filled h, List.any_flatMap, Bool.eq_iff_iff, List.any_eq_true,
    List.any_eq_true]
  refine exists_congr fun s => and_congr_right fun hs => ?_
  rw [exits_eq_any ((outline_sound h).filled s hs)]

/-! ## The answer -/

/-- What building the graph of some statements answers. -/
theorem ofStatements_verdict (ss : List Statement) :
    ofStatements ss = .error (.fault .idsExhausted) ∧ idLimit ≤ ss.length + 2 ∨
      match Statement.verdict ss with
      | some e => ofStatements ss = .error e
      | none => ∃ g, ofStatements ss = .ok g := by
  rw [ofStatements_eq, Statement.verdict]
  rcases outline_verdict ss with ⟨hfault, hids⟩ | hout
  · rw [hfault]
    exact .inl ⟨rfl, hids⟩
  · refine .inr ?_
    cases hfirst : Statement.firstDefect? ss with
    | some e =>
      rw [hfirst] at hout
      rw [show outline ss = .error e from hout]
      rfl
    | none =>
      rw [hfirst] at hout
      obtain ⟨o, ho⟩ := hout
      have hdangling := danglingBranch?_eq ho
      rw [ho, Option.none_or]
      simp only [bind, Except.bind, Outline.finish_draft (outline_sound ho), any_exits_filled ho]
      by_cases hexit : (Statement.instructions ss).any (·.opcode = .exit) = true
      · simp only [hexit, if_true]
        cases hbranch : Statement.danglingBranch? ss with
        | none =>
          rw [hbranch] at hdangling
          rw [Option.map_eq_none_iff.1 hdangling.symm]
          exact ⟨_, rfl⟩
        | some i =>
          rw [hbranch] at hdangling
          obtain ⟨b, hb, hname⟩ := Option.map_eq_some_iff.1 hdangling.symm
          rw [hb]
          exact congrArg (fun l => Except.error (BuildError.undefinedLabel l)) hname
      · simp only [hexit]
        rfl

end FlowGraph

end KernelListing
