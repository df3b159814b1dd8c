import KernelListing.Proofs.FlowGraph.Finish

/-!
# Where labels stand

A label denotes the first instruction behind it, if there is one. `Statement.landings` says
which instruction that is, counted over all instructions among the statements, and
`mem_landings_iff` finds it again as the first instruction of the segment that the label names.
-/

namespace KernelListing

namespace Statement

/-- The labels among some statements, each with the number of instructions in front of it, where
`n` instructions stand in front of the first statement. -/
def labelsAt (n : Nat) : List Statement → List (String × Nat)
  | [] => []
  | .label l :: ss => (l, n) :: labelsAt n ss
  | .instruction _ :: ss => labelsAt (n + 1) ss
  | _ :: ss => labelsAt n ss

/-- The labels among some statements, each with the number of the instruction it denotes, which
is the first one behind it. A label that no instruction stands behind denotes none. -/
def landings (ss : List Statement) : List (String × Nat) :=
  (labelsAt 0 ss).filter fun p => p.2 < (instructions ss).length

theorem labelsAt_concat (n : Nat) (ss : List Statement) (s : Statement) :
    labelsAt n (ss ++ [s]) =
      labelsAt n ss ++ s.label?.toList.map (·, n + (instructions ss).length) := by
  induction ss generalizing n with
  | nil => cases s <;> rfl
  | cons s' ss ih =>
    cases s' with
    | label l => exact congrArg ((l, n) :: ·) (ih n)
    | instruction i =>
      have hlength : n + 1 + (instructions ss).length =
          n + (instructions (.instruction i :: ss)).length := by
        simp only [instructions, List.filterMap_cons, instruction?, List.length_cons]
        omega
      simpa only [List.cons_append, labelsAt, hlength] using ih (n + 1)
    | parameter p => exact ih n
    | localVariable v => exact ih n
    | sharedVariable v => exact ih n
    | entry name => exact ih n

end Statement

namespace FlowGraph

/-- How many instructions some segments have. -/
def sizeOf (ss : List Segment) : Nat := (ss.flatMap (·.instructions)).length

theorem sizeOf_append (ss ss' : List Segment) : sizeOf (ss ++ ss') = sizeOf ss + sizeOf ss' := by
  simp [sizeOf]

theorem sizeOf_cons (s : Segment) (ss : List Segment) :
    sizeOf (s :: ss) = s.instructions.length + sizeOf ss := by
  simp [sizeOf]

theorem split_at {ss : List Segment} {k : Nat} {s : Segment} (hs : ss[k]? = some s) :
    ss = ss.take k ++ s :: ss.drop (k + 1) := by
  obtain ⟨hk, rfl⟩ := List.getElem?_eq_some_iff.1 hs
  rw [← List.drop_eq_getElem_cons hk, List.take_append_drop]

theorem sizeOf_take_succ {ss : List Segment} {k : Nat} {s : Segment} (hs : ss[k]? = some s) :
    sizeOf (ss.take (k + 1)) = sizeOf (ss.take k) + s.instructions.length := by
  rw [List.take_add_one, hs, sizeOf_append]
  simp [sizeOf]

theorem sizeOf_take_lt {ss : List Segment} {k : Nat} {s : Segment} (hs : ss[k]? = some s)
    (hne : s.instructions ≠ []) : sizeOf (ss.take k) < sizeOf ss := by
  have hpos := List.length_pos_iff.2 hne
  conv_rhs => rw [split_at hs, sizeOf_append, sizeOf_cons]
  omega

theorem exists_concat {motive : Nat → List Segment → Segment → Prop} {ss : List Segment}
    {s : Segment} :
    (∃ (k : Nat) (s' : Segment), (ss ++ [s])[k]? = some s' ∧ motive k ((ss ++ [s]).take k) s') ↔
      (∃ (k : Nat) (s' : Segment), ss[k]? = some s' ∧ motive k (ss.take k) s') ∨
        motive ss.length ss s := by
  have h := @forall_concat (fun k front s' => ¬ motive k front s') ss s
  rw [← not_iff_not, not_or]
  simpa only [not_exists, not_and] using h

/-- A label names a segment with a given number of instructions in front of it. -/
def Stands (ss : List Segment) (l : String) (j : Nat) : Prop :=
  ∃ k s, ss[k]? = some s ∧ l ∈ s.labels ∧ j = sizeOf (ss.take k)

theorem stands_concat {ss : List Segment} {s : Segment} {l : String} {j : Nat} :
    Stands (ss ++ [s]) l j ↔ Stands ss l j ∨ l ∈ s.labels ∧ j = sizeOf ss :=
  exists_concat (motive := fun _ front s' => l ∈ s'.labels ∧ j = sizeOf front)

/-- The labels of some segments, each with the number of instructions in front of it, where `n`
instructions stand in front of the first segment. -/
def labelsOf (n : Nat) : List Segment → List (String × Nat)
  | [] => []
  | s :: ss => s.labels.map (·, n) ++ labelsOf (n + s.instructions.length) ss

theorem labelsOf_append (n : Nat) (ss ss' : List Segment) :
    labelsOf n (ss ++ ss') = labelsOf n ss ++ labelsOf (n + sizeOf ss) ss' := by
  induction ss generalizing n with
  | nil => rfl
  | cons s ss ih =>
    rw [List.cons_append, labelsOf, ih, labelsOf, List.append_assoc, sizeOf_cons, Nat.add_assoc]

theorem labelsOf_concat (ss : List Segment) (s : Segment) :
    labelsOf 0 (ss ++ [s]) = labelsOf 0 ss ++ s.labels.map (·, sizeOf ss) := by
  rw [labelsOf_append, labelsOf, labelsOf, List.append_nil, Nat.zero_add]

theorem mem_labelsOf {ss : List Segment} {l : String} {j : Nat} :
    (l, j) ∈ labelsOf 0 ss ↔ Stands ss l j := by
  induction ss using List.reverseRecOn with
  | nil => simp [labelsOf, Stands]
  | append_singleton ss s ih =>
    rw [labelsOf_concat, stands_concat, List.mem_append, ih]
    simp [eq_comm]

/-- The labels of an outline stand where they stand among the statements. -/
theorem labelsAt_outline {ss : List Statement} {o : Outline} (h : outline ss = .ok o) :
    Statement.labelsAt 0 ss = labelsOf 0 o.segments := by
  refine outline_induction
    (motive := fun ss o => Statement.labelsAt 0 ss = labelsOf 0 o.segments)
    rfl (fun ss s o o' hss ih ht => ?_) h
  have hsize : sizeOf o.segments = (Statement.instructions ss).length := by
    rw [sizeOf, instructions_segments hss]
  rw [Statement.labelsAt_concat, ih, Nat.zero_add, ← hsize]
  cases ht with
  | @labelHere label hempty hnew =>
    have hclosed : sizeOf o.segments = sizeOf o.closed := by
      rw [Outline.segments, sizeOf_append, sizeOf_cons, hempty]
      rfl
    simp only [Outline.segments, Outline.name, labelsOf_concat, List.map_append,
      ← List.append_assoc, ← hclosed]
    rfl
  | labelNext =>
    simp only [Outline.segments, labelsOf_concat (o.closed ++ [o.last])]
    rfl
  | plain =>
    simp only [Outline.segments, Outline.push, labelsOf_concat]
    exact List.append_nil _
  | transfer =>
    simp only [Outline.segments, Outline.push, labelsOf_concat]
    rfl
  | declaration hlabel =>
    rw [Statement.label?_eq_none hlabel, Option.toList_none, List.map_nil, List.append_nil]

theorem mem_labelsAt_iff {ss : List Statement} {o : Outline} (h : outline ss = .ok o) (l : String)
    (j : Nat) : (l, j) ∈ Statement.labelsAt 0 ss ↔ Stands o.segments l j := by
  rw [labelsAt_outline h, mem_labelsOf]

theorem instructions_filled {ss : List Statement} {o : Outline} (h : outline ss = .ok o) :
    o.filled.flatMap (·.instructions) = Statement.instructions ss := by
  rw [← instructions_segments h]
  unfold Outline.filled
  split
  · next hempty =>
    rw [Outline.segments, List.flatMap_append, List.flatMap_singleton, List.isEmpty_iff.1 hempty,
      List.append_nil]
  · rfl

/-- A label denotes the first instruction of the filled segment that it names. -/
theorem mem_landings_iff {ss : List Statement} {o : Outline} (h : outline ss = .ok o) {l : String}
    {j : Nat} : (l, j) ∈ Statement.landings ss ↔ Stands o.filled l j := by
  have hsize : sizeOf o.segments = (Statement.instructions ss).length := by
    rw [sizeOf, instructions_segments h]
  rw [Statement.landings, List.mem_filter, mem_labelsAt_iff h, ← hsize]
  simp only [decide_eq_true_eq]
  have hfilled : ∀ {k s}, o.filled[k]? = some s → sizeOf (o.filled.take k) < sizeOf o.filled :=
    fun hs => sizeOf_take_lt hs ((outline_sound h).closed_of_getElem? hs).ne_nil
  unfold Outline.filled at hfilled ⊢
  split
  · next hempty =>
    rw [if_pos hempty] at hfilled
    have hclosed : sizeOf o.segments = sizeOf o.closed := by
      rw [Outline.segments, sizeOf_append, sizeOf_cons, List.isEmpty_iff.1 hempty]
      rfl
    rw [hclosed, Outline.segments, stands_concat]
    constructor
    · rintro ⟨hl | ⟨-, rfl⟩, hlt⟩
      · exact hl
      · exact absurd hlt (Nat.lt_irrefl _)
    · rintro ⟨k, s, hs, hl, rfl⟩
      exact ⟨.inl ⟨k, s, hs, hl, rfl⟩, hfilled hs⟩
  · next hne =>
    rw [if_neg hne] at hfilled
    refine and_iff_left_of_imp ?_
    rintro ⟨k, s, hs, hl, rfl⟩
    exact hfilled hs

theorem nodup_labels {ss : List Statement} {o : Outline} (h : outline ss = .ok o) :
    o.labels.Nodup := by
  refine outline_induction (motive := fun _ o => o.labels.Nodup)
    List.nodup_nil (fun ss s o o' _ ih ht => ?_) h
  have hconcat : ∀ l ∉ o.labels, (o.labels ++ [l]).Nodup := fun l hl =>
    List.nodup_append.2 ⟨ih, List.nodup_singleton l, fun a ha b hb hab => by
      rw [hab, List.mem_singleton.1 hb] at ha
      exact hl ha⟩
  cases ht with
  | labelHere _ hnew =>
    simpa [Outline.labels, Outline.segments, Outline.name] using hconcat _ hnew
  | labelNext _ hnew =>
    simpa [Outline.labels, Outline.segments] using hconcat _ hnew
  | plain => simpa [Outline.labels, Outline.segments, Outline.push] using ih
  | transfer => simpa [Outline.labels, Outline.segments, Outline.push] using ih
  | declaration => exact ih

theorem index_unique {ss : List Segment} (h : (ss.flatMap (·.labels)).Nodup) {l : String}
    {k k' : Nat} {s s' : Segment} (hs : ss[k]? = some s) (hs' : ss[k']? = some s')
    (hl : l ∈ s.labels) (hl' : l ∈ s'.labels) : k = k' := by
  obtain ⟨hk, rfl⟩ := List.getElem?_eq_some_iff.1 hs
  obtain ⟨hk', rfl⟩ := List.getElem?_eq_some_iff.1 hs'
  have hdisjoint := List.pairwise_iff_getElem.1 (List.nodup_flatMap.1 h).2
  by_contra hne
  rcases Nat.lt_or_gt_of_ne hne with hlt | hlt
  · exact hdisjoint k k' hk hk' hlt hl hl'
  · exact hdisjoint k' k hk' hk hlt hl' hl

/-- Where no label occurs twice, a label stands for the segment that it names. -/
theorem lookup_namesOf_iff {ss : List Segment} (h : (ss.flatMap (·.labels)).Nodup) {l : String}
    {k : Nat} : (namesOf ss).lookup l = some (k + 2) ↔ ∃ s, ss[k]? = some s ∧ l ∈ s.labels := by
  constructor
  · intro hlookup
    obtain ⟨k', s, hk, hs, hl⟩ := exists_of_lookup_namesOf hlookup
    obtain rfl : k = k' := Nat.add_right_cancel hk
    exact ⟨s, hs, hl⟩
  · rintro ⟨s, hs, hl⟩
    refine lookup_eq_some_of_mem (mem_namesOf.2 ⟨Nat.le_add_left 2 k, s, hs, hl⟩) fun id hid => ?_
    obtain ⟨hle, s', hs', hl'⟩ := mem_namesOf.1 hid
    rw [index_unique h hs hs' hl hl']
    exact (Nat.sub_add_cancel hle).symm

theorem nodup_labels_filled {ss : List Statement} {o : Outline} (h : outline ss = .ok o) :
    (o.filled.flatMap (·.labels)).Nodup := by
  have hnodup := nodup_labels h
  unfold Outline.filled
  split
  · rw [Outline.labels, Outline.segments, List.flatMap_append] at hnodup
    exact (List.nodup_append.1 hnodup).1
  · exact hnodup

theorem exists_lookup_of_bra {ss : List Segment} (hclosed : ∀ s ∈ ss, s.Closed)
    (hdangling : dangling? ss ss = none) {k : Nat} {s : Segment} (hs : ss[k]? = some s)
    {i : Instruction} (hi : i ∈ s.instructions) (hop : i.opcode = .bra) :
    ∃ id, (namesOf ss).lookup i.d.name = some id := by
  have hclosed := hclosed s (List.mem_of_getElem? hs)
  obtain ⟨i', hlast⟩ := hclosed.exists_last
  have heq : i = i' := by
    rw [Segment.eq_concat_of_last hlast] at hi
    rcases List.mem_append.1 hi with hi | hi
    · exact absurd hop (Segment.ne_of_plain (hclosed.plain i hi) .bra rfl)
    · exact List.mem_singleton.1 hi
  subst heq
  have hmem : { origin := k + 2, target := i.d.name, dead := i.guard.isAlwaysFalse } ∈
      branchesOf ss := by
    rw [branchesOf, List.mem_filterMap]
    exact ⟨(s, k + 2), mem_numbered.2 ⟨Nat.le_add_left 2 k, hs⟩,
      Segment.openBranch?_of_bra hlast hop _⟩
  have hfound := List.find?_eq_none.1 hdangling _ hmem
  exact Option.ne_none_iff_exists'.1 (by simpa using hfound)

theorem lookup_landings {ss : List Statement} {o : Outline} (h : outline ss = .ok o) {k : Nat}
    {s : Segment} (hs : o.filled[k]? = some s) {l : String} (hl : l ∈ s.labels) :
    (Statement.landings ss).lookup l = some (sizeOf (o.filled.take k)) := by
  refine lookup_eq_some_of_mem ((mem_landings_iff h).2 ⟨k, s, hs, hl, rfl⟩) fun j hj => ?_
  obtain ⟨k', s', hs', hl', rfl⟩ := (mem_landings_iff h).1 hj
  rw [index_unique (nodup_labels_filled h) hs hs' hl hl']

end FlowGraph

end KernelListing
