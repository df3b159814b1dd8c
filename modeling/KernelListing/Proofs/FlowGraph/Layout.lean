import KernelListing.FlowGraph.Sequence

/-!
# Places in a table

The order of the blocks does not depend on whether the placed blocks are looked up in the order so
far or in a table by their ids (`sequence?_eq`), as long as the table has an entry for each id that
a block or an edge has. One block's turn keeps table and order in step (`Layout.Shows`).
-/

namespace KernelListing.FlowGraph

/-- The blocks have ids that were handed out, and so have both ends of each edge. -/
structure InRange (g : FlowGraph) : Prop where
  block : ∀ b ∈ g.blocks, b.id < g.issued
  edge : ∀ e ∈ g.edges, e.head < g.issued ∧ e.tail < g.issued

/-- A layout has the blocks of an order, and its table says so for the first `n` ids. -/
structure Layout.Shows (l : Layout) (n : Nat) (placed : List BlockId) : Prop where
  order : l.order = placed
  placed : ∀ id < n, l.placed[id]? = some (decide (id ∈ placed))

section table

variable {g : FlowGraph} {l : Layout} {n : Nat} {placed : List BlockId}

theorem Layout.Shows.push (h : l.Shows n placed) {id : BlockId} (hid : id < n) :
    (l.push id).Shows n (placed ++ [id]) := by
  refine ⟨by rw [Layout.push, h.order], fun id' hid' => ?_⟩
  have hlt := (List.getElem?_eq_some_iff.1 (h.placed id hid)).1
  rw [Layout.push, List.getElem?_set, if_pos hlt, h.placed id' hid']
  by_cases heq : id = id'
  · simp [heq]
  · simp [heq, Ne.symm heq]

theorem Layout.Shows.of_mem (h : l.Shows n placed) {id : BlockId} (hid : id < n)
    (hmem : id ∈ placed) : l.placed[id]? = some true := by
  rw [h.placed id hid, decide_eq_true hmem]

theorem Layout.Shows.of_not_mem (h : l.Shows n placed) {id : BlockId} (hid : id < n)
    (hmem : id ∉ placed) : l.placed[id]? = some false := by
  rw [h.placed id hid, decide_eq_false hmem]

theorem place?_eq (hrange : ∀ e ∈ g.edges, e.tail < n) (h : l.Shows n placed) {id : BlockId}
    (hid : id < n) : ∃ l', g.place? l id = some l' ∧ l'.Shows n (g.place placed id) := by
  fun_induction place g placed id generalizing l with
  | case1 placed id hstop => exact ⟨l, place?_of_placed (hstop.imp_right (h.of_mem hid)), h⟩
  | case2 placed id hgo hnext =>
    obtain ⟨hexit, hnew⟩ := not_or.1 hgo
    exact ⟨l.push id, place?_of_none hexit (h.of_not_mem hid hnew) hnext, h.push hid⟩
  | case3 placed id hgo next hnext _ ih =>
    obtain ⟨hexit, hnew⟩ := not_or.1 hgo
    rw [place?_of_some hexit (h.of_not_mem hid hnew) hnext]
    exact ih (h.push hid) (hrange _ (exists_edge_of_fallThroughSuccessor? hnext))

theorem waits?_eq (hrange : ∀ e ∈ g.edges, e.head < n) (h : l.Shows n placed) (id : BlockId) :
    g.waits? l id = some ((g.fallThroughPredecessor? id).any (· ∉ placed)) := by
  unfold waits?
  cases hpred : g.fallThroughPredecessor? id with
  | none => rfl
  | some head =>
    have hhead := hrange _ (exists_edge_of_fallThroughPredecessor? hpred)
    simp [h.placed head hhead]

theorem placeInTurn?_eq (hrange : ∀ e ∈ g.edges, e.head < n ∧ e.tail < n)
    (h : l.Shows n placed) {b : Block} (hb : b.id < n) :
    ∃ l', g.placeInTurn? l b = some l' ∧ l'.Shows n (g.placeInTurn placed b) := by
  unfold placeInTurn? placeInTurn
  rw [waits?_eq (fun e he => (hrange e he).1) h, h.placed _ hb]
  by_cases hplaced : b.id = exit ∨ b.id ∈ placed
  · -- There is nothing to do, whether or not the block waits.
    refine ⟨l, ?_, ?_⟩
    · by_cases hexit : b.id = exit
      · rw [if_pos hexit]
      · rw [if_neg hexit, decide_eq_true (hplaced.resolve_left hexit)]
        rfl
    · rw [place_of_mem hplaced, ite_self]
      exact h
  · obtain ⟨hexit, hnew⟩ := not_or.1 hplaced
    obtain ⟨l', hl', hshows⟩ := place?_eq (fun e he => (hrange e he).2) h hb
    rw [if_neg hexit, decide_eq_false hnew]
    cases (g.fallThroughPredecessor? b.id).any (· ∉ placed) with
    | true => exact ⟨l, rfl, h⟩
    | false => exact ⟨l', hl', hshows⟩

theorem foldlM_placeInTurn?_eq (hrange : ∀ e ∈ g.edges, e.head < n ∧ e.tail < n)
    (h : l.Shows n placed) {bs : List Block} (hbs : ∀ b ∈ bs, b.id < n) :
    ∃ l', bs.foldlM g.placeInTurn? l = some l' ∧ l'.Shows n (bs.foldl g.placeInTurn placed) := by
  induction bs generalizing l placed with
  | nil => exact ⟨l, rfl, h⟩
  | cons b bs ih =>
    obtain ⟨hb, hbs⟩ := List.forall_mem_cons.1 hbs
    obtain ⟨l', hl', hshows⟩ := placeInTurn?_eq hrange h hb
    rw [List.foldlM_cons, hl']
    exact ih hshows hbs

end table

/-- The table has all entries that are asked for. -/
theorem sequence?_eq {g : FlowGraph} (h : g.InRange) : g.sequence? = some g.sequence := by
  have hstart : Layout.Shows { placed := List.replicate g.issued false } g.issued [] :=
    ⟨rfl, fun id hid => by simp [hid]⟩
  obtain ⟨l, hl, hshows⟩ := foldlM_placeInTurn?_eq h.edge hstart h.block
  rw [sequence?, hl, sequence, ← hshows.order]
  rfl

end KernelListing.FlowGraph
