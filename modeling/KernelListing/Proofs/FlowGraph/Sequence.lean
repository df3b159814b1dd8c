import KernelListing.FlowGraph.Sequence
import KernelListing.Proofs.FlowGraph.Finish
import KernelListing.Proofs.FlowGraph.Segments

/-!
# The sequence of a graph that has been built

Control falls from a block only into the next one, so the blocks of a graph that has been built
stand in the order of their ids, with the exit block at the end (`sequence_eq`). Each placing of a
block that has no place yet extends a front of the blocks up to one that control does not fall
into.
-/

namespace KernelListing.FlowGraph

theorem before_succ (k : Nat) : Segment.before (k + 3) = k + 2 := Segment.before_eq_iff.2 rfl

theorem before_inj {k k' : Nat} (h : Segment.before (k + 2) = Segment.before (k' + 2)) :
    k = k' := by
  cases k' with
  | zero =>
    cases k with
    | zero => rfl
    | succ k =>
      rw [before_succ] at h
      cases h
  | succ k' =>
    rw [before_succ] at h
    exact Segment.before_eq_iff.1 h

theorem add_two_ne_exit (k : Nat) : k + 2 ≠ exit := by
  intro h
  cases h

/-- The entry block and the first blocks behind it. -/
def front (j : Nat) : List BlockId := entry :: List.range' 2 j

theorem mem_front {j k : Nat} : k + 2 ∈ front j ↔ k < j := by
  simp only [front, List.mem_cons, List.mem_range'_1, FlowGraph.entry]
  omega

theorem front_succ (j : Nat) : front (j + 1) = front j ++ [j + 2] := by
  rw [front, List.range'_1_concat, Nat.add_comm 2 j]
  rfl

section built

variable {g : FlowGraph} {ss : List Segment} (hedges : g.edges = edgesOf ss ++ branchEdgesOf ss ss)
  (hlinked : Linked ss)

include hedges

theorem mem_edgesOf_of_fallThrough {head tail : BlockId}
    (h : (⟨head, tail, .fallThrough⟩ : Edge) ∈ g.edges) :
    (⟨head, tail, .fallThrough⟩ : Edge) ∈ edgesOf ss := by
  rw [hedges, List.mem_append] at h
  rcases h with h | h
  · exact h
  · obtain ⟨b, -, hb⟩ := List.mem_filterMap.1 h
    unfold branchEdge? at hb
    split at hb
    · cases hb
    · obtain ⟨id, -, he⟩ := Option.map_eq_some_iff.1 hb
      cases he

theorem entered_of_fallThroughPredecessor? {id head : BlockId}
    (h : g.fallThroughPredecessor? id = some head) :
    id = exit ∨ ∃ k s, id = k + 2 ∧ ss[k]? = some s ∧ s.entered = true := by
  have hmem := mem_edgesOf_of_fallThrough hedges (exists_edge_of_fallThroughPredecessor? h)
  obtain ⟨k, s, hs, hin | hout⟩ := mem_edgesOf.1 hmem
  · obtain ⟨hentered, heq⟩ := Segment.mem_entering.1 hin
    exact .inr ⟨k, s, (Edge.mk.inj heq).2.1, hs, hentered⟩
  · obtain ⟨i, -, ⟨-, heq⟩ | ⟨-, heq⟩⟩ := Segment.mem_leaving.1 hout
    · exact .inl (Edge.mk.inj heq).2.1
    · exact absurd (Edge.mk.inj heq).2.2 (by decide)

theorem fallThroughPredecessor?_entry : g.fallThroughPredecessor? entry = none := by
  rw [Option.eq_none_iff_forall_ne_some]
  intro head h
  rcases entered_of_fallThroughPredecessor? hedges h with hexit | ⟨k, s, hid, -, -⟩
  · cases hexit
  · cases hid

theorem fallThroughPredecessor?_of_not_entered {k : Nat} {s : Segment} (hs : ss[k]? = some s)
    (hentered : s.entered = false) : g.fallThroughPredecessor? (k + 2) = none := by
  rw [Option.eq_none_iff_forall_ne_some]
  intro head h
  rcases entered_of_fallThroughPredecessor? hedges h with hexit | ⟨k', s', hid, hs', hentered'⟩
  · exact add_two_ne_exit k hexit
  · obtain rfl : k = k' := Nat.add_right_cancel hid
    obtain rfl := Option.some.inj (hs.symm.trans hs')
    rw [hentered] at hentered'
    cases hentered'

/-- Control falls into nothing but the next block or the exit block. -/
theorem fallThrough_cases {k : Nat} {next : BlockId}
    (h : g.fallThroughSuccessor? (Segment.before (k + 2)) = some next) :
    (next = k + 2 ∧ ∃ s, ss[k]? = some s ∧ s.entered = true) ∨ next = exit := by
  have hmem := mem_edgesOf_of_fallThrough hedges (exists_edge_of_fallThroughSuccessor? h)
  obtain ⟨k', s', hs', hin | hout⟩ := mem_edgesOf.1 hmem
  · obtain ⟨hentered', heq⟩ := Segment.mem_entering.1 hin
    obtain ⟨hbefore, rfl, -⟩ := Edge.mk.inj heq
    obtain rfl := before_inj hbefore
    exact .inl ⟨rfl, s', hs', hentered'⟩
  · obtain ⟨i, -, ⟨-, heq⟩ | ⟨-, heq⟩⟩ := Segment.mem_leaving.1 hout
    · exact .inr (Edge.mk.inj heq).2.1
    · exact absurd (Edge.mk.inj heq).2.2 (by decide)

include hlinked

theorem fallThroughSuccessor?_of_entered {k : Nat} {s : Segment} (hs : ss[k]? = some s)
    (hentered : s.entered = true) :
    g.fallThroughSuccessor? (Segment.before (k + 2)) = some (k + 2) := by
  have hedge : (⟨Segment.before (k + 2), k + 2, .fallThrough⟩ : Edge) ∈ g.edges := by
    rw [hedges, List.mem_append]
    exact .inl (mem_edgesOf.2 ⟨k, s, hs, .inl (Segment.mem_entering.2 ⟨hentered, rfl⟩)⟩)
  obtain ⟨next, hnext⟩ := exists_fallThroughSuccessor? hedge
  rcases fallThrough_cases hedges hnext with ⟨htail, -⟩ | htail
  · rw [hnext, htail]
  · -- The block in front would end with `exit`, behind which nothing goes on.
    rw [htail] at hnext
    have hmem := mem_edgesOf_of_fallThrough hedges (exists_edge_of_fallThroughSuccessor? hnext)
    obtain ⟨k', s', hs', hin | hout⟩ := mem_edgesOf.1 hmem
    · have heq := (Edge.mk.inj (Segment.mem_entering.1 hin).2).2.1
      exact absurd heq.symm (add_two_ne_exit k')
    · obtain ⟨i, hlast, ⟨hop, heq⟩ | ⟨-, heq⟩⟩ := Segment.mem_leaving.1 hout
      · have hk : k = k' + 1 := before_inj ((Edge.mk.inj heq).1.trans (before_succ k').symm)
        subst hk
        have hlink := hlinked (k' + 1) s hs
        rw [hentered, Outline.lastBehind_take hs', hlast] at hlink
        simp [Instruction.goesOn, hop] at hlink
      · exact absurd (Edge.mk.inj heq).2.2 (by decide)

/-- Placing a block extends the front, up to a block that control does not fall into. -/
theorem place_front {j : Nat} (hj : j < ss.length) : ∃ j', j < j' ∧ j' ≤ ss.length ∧
    g.place (front j) (j + 2) = front j' ∧ ∀ s, ss[j']? = some s → s.entered = false := by
  have hnew : ¬ (j + 2 = exit ∨ j + 2 ∈ front j) := by
    rw [mem_front, not_or]
    exact ⟨add_two_ne_exit j, Nat.lt_irrefl j⟩
  by_cases hentered : ∃ s, ss[j + 1]? = some s ∧ s.entered = true
  · obtain ⟨s, hs, hentered⟩ := hentered
    have hnext := fallThroughSuccessor?_of_entered hedges hlinked hs hentered
    rw [before_succ] at hnext
    obtain ⟨j', hlt, hle, hplace, hend⟩ := place_front (List.getElem?_eq_some_iff.1 hs).1
    refine ⟨j', Nat.lt_of_succ_lt hlt, hle, ?_, hend⟩
    rw [place_of_some hnew hnext, ← front_succ]
    exact hplace
  · have hend : ∀ s, ss[j + 1]? = some s → s.entered = false := fun s hs =>
      Bool.eq_false_iff.2 fun htrue => hentered ⟨s, hs, htrue⟩
    refine ⟨j + 1, Nat.lt_succ_self j, hj, ?_, hend⟩
    cases hnext : g.fallThroughSuccessor? (j + 2) with
    | none => rw [place_of_none hnew hnext, front_succ]
    | some next =>
      have hcases := hnext
      rw [← before_succ] at hcases
      rcases fallThrough_cases hedges hcases with ⟨-, hin⟩ | rfl
      · exact absurd hin hentered
      · rw [place_of_some hnew hnext, place_of_mem (.inl rfl), front_succ]
termination_by ss.length - j

theorem place_entry : ∃ j, j ≤ ss.length ∧ g.place [] entry = front j ∧
    ∀ s, ss[j]? = some s → s.entered = false := by
  have hnew : ¬ (entry = exit ∨ entry ∈ ([] : List BlockId)) := by decide
  cases hs : ss[0]? with
  | none =>
    refine ⟨0, Nat.zero_le _, ?_, fun s hs' => by rw [hs] at hs'; cases hs'⟩
    cases hnext : g.fallThroughSuccessor? entry with
    | none => rw [place_of_none hnew hnext]; rfl
    | some next =>
      rcases fallThrough_cases (k := 0) hedges hnext with ⟨-, s, hs', -⟩ | rfl
      · rw [hs] at hs'
        cases hs'
      · rw [place_of_some hnew hnext, place_of_mem (.inl rfl)]
        rfl
  | some s =>
    have hentered : s.entered = true := hlinked 0 s hs
    have hnext : g.fallThroughSuccessor? entry = some 2 :=
      fallThroughSuccessor?_of_entered (k := 0) hedges hlinked hs hentered
    obtain ⟨j', -, hle, hplace, hend⟩ :=
      place_front hedges hlinked (List.getElem?_eq_some_iff.1 hs).1
    refine ⟨j', hle, ?_, hend⟩
    rw [place_of_some hnew hnext]
    exact hplace

/-- After so many turns at least so many blocks have their places. -/
theorem foldl_placeInTurn {j : Nat} (hj : j ≤ ss.length)
    (hend : ∀ s, ss[j]? = some s → s.entered = false) {n : Nat} (hn : n ≤ ss.length) :
    ∃ j', n ≤ j' ∧ j' ≤ ss.length ∧
      (List.range' 2 n).foldl (fun placed id => g.placeInTurn placed { id }) (front j) = front j' ∧
        ∀ s, ss[j']? = some s → s.entered = false := by
  induction n with
  | zero => exact ⟨j, Nat.zero_le j, hj, rfl, hend⟩
  | succ n ih =>
    obtain ⟨j', hle, hle', hfold, hend'⟩ := ih (Nat.le_of_succ_le hn)
    rw [List.range'_1_concat, List.foldl_append, hfold, Nat.add_comm 2 n, List.foldl_cons,
      List.foldl_nil, placeInTurn]
    rcases Nat.lt_or_eq_of_le hle with hlt | rfl
    · refine ⟨j', hlt, hle', ?_, hend'⟩
      rw [place_of_mem (.inr (mem_front.2 hlt)), ite_self]
    · have hs : ss[n]? = some ss[n] := List.getElem?_eq_getElem hn
      have hnone := fallThroughPredecessor?_of_not_entered hedges hs (hend' _ hs)
      obtain ⟨j', hlt, hle', hplace, hend''⟩ := place_front hedges hlinked hn
      refine ⟨j', hlt, hle', ?_, hend''⟩
      simp only [hnone, Option.any_none, Bool.false_eq_true, if_false]
      exact hplace

/-- The blocks of a graph that has been built stand in the order of their ids. -/
theorem sequence_eq (hids : g.blocks.map (·.id) = entry :: exit :: List.range' 2 ss.length) :
    g.sequence = front ss.length ++ [exit] := by
  have hturns : g.blocks.foldl g.placeInTurn [] =
      (g.blocks.map (·.id)).foldl (fun placed id => g.placeInTurn placed { id }) [] := by
    rw [List.foldl_map]
    rfl
  obtain ⟨j, hj, hplace, hend⟩ := place_entry hedges hlinked
  obtain ⟨j', hle, hle', hfold, -⟩ := foldl_placeInTurn hedges hlinked hj hend (Nat.le_refl _)
  obtain rfl := Nat.le_antisymm hle hle'
  have hexit : g.placeInTurn (front j) { id := exit } = front j := by
    rw [placeInTurn, place_of_mem (.inl rfl), ite_self]
  have hfirst : g.placeInTurn [] { id := entry } = front j := by
    rw [placeInTurn, fallThroughPredecessor?_entry hedges]
    exact hplace
  rw [sequence, hturns, hids, List.foldl_cons, List.foldl_cons, hfirst, hexit, hfold]

end built

end KernelListing.FlowGraph
