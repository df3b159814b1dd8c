import Mathlib.Order.WellFoundedSet
import KernelListing.Proofs.FlowGraph.Edits
import KernelListing.Proofs.FlowGraph.Layout

/-!
# The order of the blocks

The order that a graph is written in, for every graph that can be made by edits (`Reached`). In any
of these no block is listed twice and the exit block comes last, and the table of placed blocks has
an entry wherever it is asked for one (`sequence?_eq`).

More is true where control falls in chains (`FallsInChains`). Then behind each placed block its
fall-through successor has its place too (`Chained`). So when a block has had its turn and has no
place, it waits for one that has none either (`Settled`), and since control does not fall in a
cycle, there is no such block at the end.
-/

namespace KernelListing.FlowGraph

/-- A graph that edits lead to, where blocks are inserted only under ids that have been handed
out. -/
inductive Reached : FlowGraph → Prop where
  | empty : Reached .empty
  | edit {g : FlowGraph} (h : Reached g) (e : Edit)
    (hid : ∀ b, e = .insertBlock b → b.id < g.issued) : Reached (g.edit e)

/-- Control falls from one block into another. -/
def FallsInto (g : FlowGraph) (head tail : BlockId) : Prop := ⟨head, tail, .fallThrough⟩ ∈ g.edges

/-- Along the edges of falling through, the blocks form chains that may merge: no edge leads out of
the exit block or into the entry block, no two lead out of the same block, and none is on a
cycle. -/
structure FallsInChains (g : FlowGraph) : Prop where
  once : ∀ head tail tail', g.FallsInto head tail → g.FallsInto head tail' → tail = tail'
  exit : ∀ tail, ¬ g.FallsInto exit tail
  entry : ∀ head, ¬ g.FallsInto head entry
  acyclic : ∀ id, ¬ Relation.TransGen g.FallsInto id id

/-! ## Ids that were handed out -/

theorem Reached.wellFormed {g : FlowGraph} (h : g.Reached) : g.WellFormed := by
  induction h with
  | empty => exact .empty
  | edit _ e _ ih => exact ih.edit e

theorem Reached.lt_issued {g : FlowGraph} (h : g.Reached) {id : BlockId}
    (hid : (g.block? id).isSome) : id < g.issued := by
  induction h generalizing id with
  | empty => exact lt_of_block? (Option.some_get hid).symm
  | @edit g _ e hissued ih =>
    generalize hedit : g.edit e = g' at hid ⊢
    cases edited_of_edit hedit with
    | refused => exact ih hid
    | newId hnew =>
      obtain ⟨-, rfl⟩ := newId_eq_ok hnew
      exact Nat.lt_succ_of_lt (ih hid)
    | insertBlock hinsert =>
      rw [(edges_of_insertBlock hinsert).2]
      rw [block?_of_insertBlock hinsert] at hid
      split at hid
      · next heq => exact heq ▸ hissued _ rfl
      · exact ih hid
    | removeBlock hremove =>
      rw [(edges_of_removeBlock hremove).1]
      rw [(block?_of_removeBlock hremove id).2] at hid
      split at hid
      · cases hid
      · exact ih hid
    | insertEdge hinsert =>
      obtain rfl := insertEdge_eq_ok hinsert
      exact ih hid
    | rewriteBlock hmodify =>
      rw [(edges_of_modifyBlock hmodify).2]
      rw [block?_of_modifyBlock hmodify] at hid
      split at hid
      · next heq =>
        rw [Option.isSome_map] at hid
        exact heq ▸ ih hid
      · exact ih hid

theorem Reached.inRange {g : FlowGraph} (h : g.Reached) : g.InRange := by
  refine ⟨fun b hb => ?_, fun e he => (h.wellFormed.ends e he).imp h.lt_issued h.lt_issued⟩
  obtain ⟨id, hid⟩ := mem_blocks.1 hb
  rw [h.wellFormed.id_eq id b hid]
  exact h.lt_issued (by rw [hid]; rfl)

/-! ## Blocks that have their places -/

section placed

variable {g : FlowGraph} {placed : List BlockId} {id : BlockId}

theorem prefix_place : placed <+: g.place placed id := by
  fun_induction place g placed id with
  | case1 => exact List.prefix_refl _
  | case2 => exact List.prefix_append ..
  | case3 placed id _ next _ _ ih => exact (List.prefix_append ..).trans ih

theorem concat_prefix_place (hnew : ¬ (id = exit ∨ id ∈ placed)) :
    placed ++ [id] <+: g.place placed id := by
  cases hnext : g.fallThroughSuccessor? id with
  | none => rw [place_of_none hnew hnext]
  | some next =>
    rw [place_of_some hnew hnext]
    exact prefix_place

theorem mem_place (hexit : id ≠ exit) : id ∈ g.place placed id := by
  by_cases hmem : id ∈ placed
  · exact prefix_place.subset hmem
  · refine (concat_prefix_place (not_or.2 ⟨hexit, hmem⟩)).subset ?_
    exact List.mem_append_right _ (List.mem_singleton_self id)

theorem prefix_placeInTurn (b : Block) : placed <+: g.placeInTurn placed b := by
  unfold placeInTurn
  split
  · exact List.prefix_refl _
  · exact prefix_place

theorem prefix_foldl_placeInTurn (bs : List Block) : placed <+: bs.foldl g.placeInTurn placed := by
  induction bs generalizing placed with
  | nil => exact List.prefix_refl _
  | cons b bs ih => exact (prefix_placeInTurn b).trans ih

/-- The placed blocks are there, none has two places, and the exit block waits for the end. -/
structure Placed (g : FlowGraph) (placed : List BlockId) : Prop where
  nodup : placed.Nodup
  present : ∀ id ∈ placed, (g.block? id).isSome
  not_exit : exit ∉ placed

theorem Placed.concat (h : g.Placed placed) (hid : (g.block? id).isSome)
    (hnew : ¬ (id = exit ∨ id ∈ placed)) : g.Placed (placed ++ [id]) := by
  obtain ⟨hexit, hnew⟩ := not_or.1 hnew
  refine ⟨?_, fun id' hid' => ?_, fun hmem => ?_⟩
  · rw [← List.concat_eq_append]
    exact h.nodup.concat hnew
  · rcases List.mem_append.1 hid' with hid' | hid'
    · exact h.present id' hid'
    · rwa [List.mem_singleton.1 hid']
  · rcases List.mem_append.1 hmem with hmem | hmem
    · exact h.not_exit hmem
    · exact hexit (List.mem_singleton.1 hmem).symm

section ends

variable (hends : ∀ e ∈ g.edges, (g.block? e.head).isSome ∧ (g.block? e.tail).isSome)

include hends

theorem Placed.place (h : g.Placed placed) (hid : (g.block? id).isSome) :
    g.Placed (g.place placed id) := by
  fun_induction FlowGraph.place g placed id with
  | case1 => exact h
  | case2 placed id hgo _ => exact h.concat hid hgo
  | case3 placed id hgo next hnext _ ih =>
    exact ih (h.concat hid hgo) (hends _ (exists_edge_of_fallThroughSuccessor? hnext)).2

theorem Placed.foldl (h : g.Placed placed) {bs : List Block}
    (hbs : ∀ b ∈ bs, (g.block? b.id).isSome) : g.Placed (bs.foldl g.placeInTurn placed) := by
  induction bs generalizing placed with
  | nil => exact h
  | cons b bs ih =>
    obtain ⟨hb, hbs⟩ := List.forall_mem_cons.1 hbs
    refine ih ?_ hbs
    unfold placeInTurn
    split
    · exact h
    · exact h.place hends hb

end ends

end placed

/-! ## Chains -/

/-- Behind the placed blocks their fall-through successors have their places too, and each placed
block that control falls into stands right behind one that falls into it. -/
structure Chained (g : FlowGraph) (placed : List BlockId) : Prop where
  closed : ∀ head ∈ placed, ∀ tail, g.FallsInto head tail → tail = exit ∨ tail ∈ placed
  follows : ∀ tail ∈ placed, ∀ head, g.FallsInto head tail →
    ∃ head', g.FallsInto head' tail ∧ [head', tail] <:+: placed

/-- A block that has had its turn has its place, or waits for one that has none. -/
def Settled (g : FlowGraph) (placed : List BlockId) (id : BlockId) : Prop :=
  id = exit ∨ id ∈ placed ∨ ∃ head, g.FallsInto head id ∧ head ∉ placed

section chains

variable {g : FlowGraph} (hchains : g.FallsInChains) {placed : List BlockId}

include hchains

theorem fallThroughSuccessor?_eq_some_iff {head tail : BlockId} :
    g.fallThroughSuccessor? head = some tail ↔ g.FallsInto head tail := by
  refine ⟨exists_edge_of_fallThroughSuccessor?, fun h => ?_⟩
  obtain ⟨next, hnext⟩ := exists_fallThroughSuccessor? h
  rw [hnext, hchains.once _ _ _ (exists_edge_of_fallThroughSuccessor? hnext) h]

omit hchains in
/-- A block that control does not fall into, or that control falls into from the last one, may
come next. -/
theorem follows_concat {id : BlockId}
    (h : ∀ tail ∈ placed, ∀ head, g.FallsInto head tail →
      ∃ head', g.FallsInto head' tail ∧ [head', tail] <:+: placed)
    (hid : (∀ head, ¬ g.FallsInto head id) ∨
      ∃ front head, placed = front ++ [head] ∧ g.FallsInto head id) :
    ∀ tail ∈ placed ++ [id], ∀ head, g.FallsInto head tail →
      ∃ head', g.FallsInto head' tail ∧ [head', tail] <:+: placed ++ [id] := by
  intro tail htail head hfalls
  rcases List.mem_append.1 htail with htail | htail
  · obtain ⟨head', hfalls', hinfix⟩ := h tail htail head hfalls
    exact ⟨head', hfalls', hinfix.trans (List.prefix_append ..).isInfix⟩
  · rw [List.mem_singleton.1 htail] at hfalls ⊢
    rcases hid with hnone | ⟨front, head', rfl, hfalls'⟩
    · exact absurd hfalls (hnone head)
    · exact ⟨head', hfalls', by simpa using (List.suffix_append front [head', id]).isInfix⟩

/-- Placing a block and the chain behind it leaves no successor without a place. -/
theorem chained_place {id : BlockId}
    (hclosed : ∀ head ∈ placed, ∀ tail, g.FallsInto head tail →
      tail = exit ∨ tail ∈ placed ∨ tail = id)
    (hfollows : ∀ tail ∈ placed, ∀ head, g.FallsInto head tail →
      ∃ head', g.FallsInto head' tail ∧ [head', tail] <:+: placed)
    (hid : (∀ head, ¬ g.FallsInto head id) ∨
      ∃ front head, placed = front ++ [head] ∧ g.FallsInto head id) :
    g.Chained (g.place placed id) := by
  -- The block in hand is the only successor that may lack its place: it gets it now, and the next
  -- one along the chain takes its part.
  fun_induction FlowGraph.place g placed id with
  | case1 placed id hstop =>
    refine ⟨fun head hhead tail hfalls => ?_, hfollows⟩
    rcases hclosed head hhead tail hfalls with hexit | hmem | rfl
    · exact .inl hexit
    · exact .inr hmem
    · exact hstop
  | case2 placed id hgo hnext =>
    refine ⟨fun head hhead tail hfalls => ?_, follows_concat hfollows hid⟩
    rcases List.mem_append.1 hhead with hhead | hhead
    · rw [List.mem_append, List.mem_singleton]
      exact hclosed head hhead tail hfalls
    · rw [List.mem_singleton.1 hhead, ← fallThroughSuccessor?_eq_some_iff hchains, hnext] at hfalls
      cases hfalls
  | case3 placed id hgo next hnext _ ih =>
    have hfalls := (fallThroughSuccessor?_eq_some_iff hchains).1 hnext
    refine ih (fun head hhead tail hfalls' => ?_) (follows_concat hfollows hid)
      (.inr ⟨placed, id, rfl, hfalls⟩)
    rcases List.mem_append.1 hhead with hhead | hhead
    · rw [List.mem_append, List.mem_singleton]
      exact (hclosed head hhead tail hfalls').imp_right .inl
    · rw [List.mem_singleton.1 hhead] at hfalls'
      exact .inr (.inr (hchains.once _ _ _ hfalls' hfalls))

theorem chained_placeInTurn (h : g.Chained placed) (b : Block) :
    g.Chained (g.placeInTurn placed b) := by
  unfold placeInTurn
  split
  · exact h
  · next hwaits =>
    by_cases hstop : b.id = exit ∨ b.id ∈ placed
    · rwa [place_of_mem hstop]
    · -- A block that control falls into would have its place behind its predecessor.
      refine chained_place hchains (fun head hhead tail hfalls => ?_) h.follows
        (.inl fun head hfalls => ?_)
      · exact (h.closed head hhead tail hfalls).imp_right .inl
      · obtain ⟨pred, hpred⟩ := exists_fallThroughPredecessor? hfalls
        rw [hpred] at hwaits
        have hplaced : pred ∈ placed := by simpa using hwaits
        exact hstop (h.closed pred hplaced _ (exists_edge_of_fallThroughPredecessor? hpred))

omit hchains in
theorem settled_placeInTurn (b : Block) : g.Settled (g.placeInTurn placed b) b.id := by
  unfold placeInTurn
  split
  · next hwaits =>
    obtain ⟨head, hhead, hnew⟩ := (Option.any_eq_true ..).1 hwaits
    exact .inr (.inr ⟨head, exists_edge_of_fallThroughPredecessor? hhead, by simpa using hnew⟩)
  · by_cases hexit : b.id = exit
    · exact .inl hexit
    · exact .inr (.inl (mem_place hexit))

omit hchains in
/-- A block stays settled, since with a block that it waits for it gets its place. -/
theorem Settled.mono {placed' : List BlockId} {id : BlockId} (h : g.Settled placed id)
    (hextends : placed <+: placed') (hchained : g.Chained placed') : g.Settled placed' id := by
  rcases h with hexit | hmem | ⟨head, hfalls, hnew⟩
  · exact .inl hexit
  · exact .inr (.inl (hextends.subset hmem))
  · by_cases hhead : head ∈ placed'
    · exact (hchained.closed head hhead id hfalls).imp_right .inl
    · exact .inr (.inr ⟨head, hfalls, hhead⟩)

theorem chained_foldl (bs : List Block) : g.Chained (bs.foldl g.placeInTurn []) ∧
    ∀ b ∈ bs, g.Settled (bs.foldl g.placeInTurn []) b.id := by
  -- From the end, since what is settled stays settled while more blocks get their turn.
  induction bs using List.reverseRecOn with
  | nil => exact ⟨⟨nofun, nofun⟩, nofun⟩
  | append_singleton bs b ih =>
    obtain ⟨hchained, hsettled⟩ := ih
    rw [List.foldl_append, List.foldl_cons, List.foldl_nil]
    have hchained' := chained_placeInTurn hchains hchained b
    refine ⟨hchained', fun b' hb' => ?_⟩
    rcases List.mem_append.1 hb' with hb' | hb'
    · exact (hsettled b' hb').mono (prefix_placeInTurn b) hchained'
    · rw [List.mem_singleton.1 hb']
      exact settled_placeInTurn b

/-- Where all blocks are settled, none is without a place: it would wait for one without a place,
that one for another, and so on in a cycle. -/
theorem mem_of_settled (h : g.WellFormed)
    (hsettled : ∀ id, (g.block? id).isSome → g.Settled placed id) {id : BlockId}
    (hid : (g.block? id).isSome) : id = exit ∨ id ∈ placed := by
  have horder : IsStrictOrder BlockId (Relation.TransGen g.FallsInto) :=
    { irrefl := hchains.acyclic, trans := fun _ _ _ => Relation.TransGen.trans }
  -- The ids are bounded by the slots, so an order without cycles on them is well-founded.
  have hfinite : {id | (g.block? id).isSome}.Finite :=
    (Set.finite_Iio g.slots.length).subset fun id hid => lt_of_block? (Option.some_get hid).symm
  have hfounded : {id | (g.block? id).isSome}.WellFoundedOn (Relation.TransGen g.FallsInto) :=
    hfinite.wellFoundedOn
  refine hfounded.induction (P := fun id => id = FlowGraph.exit ∨ id ∈ placed) hid
    fun id hid ih => ?_
  rcases hsettled id hid with hexit | hmem | ⟨head, hfalls, hnew⟩
  · exact .inl hexit
  · exact .inr hmem
  · rcases ih head (h.ends _ hfalls).1 (.single hfalls) with rfl | hmem
    · exact absurd hfalls (hchains.exit id)
    · exact absurd hmem hnew

end chains

/-! ## The order -/

theorem WellFormed.blocks_eq_cons {g : FlowGraph} (h : g.WellFormed) :
    ∃ b bs, g.blocks = b :: bs ∧ b.id = FlowGraph.entry := by
  obtain ⟨b, hb⟩ := Option.isSome_iff_exists.1 h.entry
  obtain ⟨slots, hslots⟩ : ∃ slots, g.slots = some b :: slots := by
    have hslot := block?_eq_some_iff.1 hb
    cases hs : g.slots with
    | nil => rw [hs] at hslot; cases hslot
    | cons slot slots =>
      rw [hs] at hslot
      exact ⟨slots, by rw [Option.some.inj hslot]⟩
  exact ⟨b, slots.filterMap id, by rw [blocks, hslots]; rfl, h.id_eq _ b hb⟩

/-- The order of the blocks can be told for every graph that edits lead to, and it lists blocks that
are there, none of them twice, with the exit block once and at the end. Where control falls in
chains, it lists all blocks, the entry block first, and each block but the exit that control falls
into stands right behind one that falls into it. -/
theorem linearizes_reached {g : FlowGraph} (h : g.Reached) :
    g.sequence? = some g.sequence ∧
    g.sequence.Nodup ∧
    (∀ id ∈ g.sequence, (g.block? id).isSome) ∧
    (∃ front, g.sequence = front ++ [exit] ∧ exit ∉ front) ∧
    (g.FallsInChains →
      (∀ id, (g.block? id).isSome → id ∈ g.sequence) ∧
      g.sequence.head? = some entry ∧
      ∀ head tail, g.FallsInto head tail → tail ≠ exit →
        ∃ head', g.FallsInto head' tail ∧ [head', tail] <:+: g.sequence) := by
  have hwell := h.wellFormed
  have hblocks : ∀ b ∈ g.blocks, g.block? b.id = some b := by
    intro b hb
    obtain ⟨id, hid⟩ := mem_blocks.1 hb
    rwa [hwell.id_eq id b hid]
  have hstart : g.Placed [] := ⟨List.nodup_nil, nofun, nofun⟩
  have hplaced := hstart.foldl hwell.ends fun b hb => by rw [hblocks b hb]; rfl
  have hmem : ∀ id, id ∈ g.sequence ↔ id ∈ g.blocks.foldl g.placeInTurn [] ∨ id = exit := by
    intro id
    rw [sequence, List.mem_append, List.mem_singleton]
  refine ⟨sequence?_eq h.inRange, ?_, fun id hid => ?_, ⟨_, rfl, hplaced.not_exit⟩,
    fun hchains => ?_⟩
  · rw [sequence, ← List.concat_eq_append]
    exact hplaced.nodup.concat hplaced.not_exit
  · rcases (hmem id).1 hid with hid | rfl
    · exact hplaced.present id hid
    · exact hwell.exit
  · obtain ⟨hchained, hsettled⟩ := chained_foldl hchains g.blocks
    have hall : ∀ id, (g.block? id).isSome →
        id = exit ∨ id ∈ g.blocks.foldl g.placeInTurn [] := fun id hid => by
      refine mem_of_settled hchains hwell (fun id hid => ?_) hid
      obtain ⟨b, hb⟩ := Option.isSome_iff_exists.1 hid
      rw [← hwell.id_eq id b hb]
      exact hsettled b (mem_blocks.2 ⟨id, hb⟩)
    refine ⟨fun id hid => (hmem id).2 (hall id hid).symm, ?_, fun head tail hfalls hexit => ?_⟩
    · obtain ⟨b, bs, hcons, hb⟩ := hwell.blocks_eq_cons
      have hnone : g.fallThroughPredecessor? entry = none :=
        Option.eq_none_iff_forall_ne_some.2 fun head hhead =>
          hchains.entry head (exists_edge_of_fallThroughPredecessor? hhead)
      have hfirst : [entry] <+: g.placeInTurn [] b := by
        rw [placeInTurn, hb, hnone, Option.any_none, if_neg Bool.false_ne_true]
        have hnew : ¬ (entry = exit ∨ entry ∈ ([] : List BlockId)) := by decide
        exact concat_prefix_place hnew
      obtain ⟨rest, hrest⟩ := hfirst.trans (prefix_foldl_placeInTurn bs)
      rw [sequence, hcons, List.foldl_cons, ← hrest]
      rfl
    · have htail := (hall tail (hwell.ends _ hfalls).2).resolve_left hexit
      obtain ⟨head', hfalls', hinfix⟩ := hchained.follows tail htail head hfalls
      exact ⟨head', hfalls', hinfix.trans (List.prefix_append ..).isInfix⟩

/-- Two chains that merge in a block which was inserted before one of them, and an id without a
block. -/
def merging : List Edit :=
  [.newId, .newId, .newId, .newId, .insertBlock { id := 5 }, .insertBlock { id := 2 },
    .insertBlock { id := 3 }, .insertEdge ⟨entry, 5, .fallThrough⟩,
    .insertEdge ⟨3, 2, .fallThrough⟩, .insertEdge ⟨5, 2, .fallThrough⟩,
    .insertEdge ⟨2, exit, .fallThrough⟩, .insertEdge ⟨3, 5, .branch⟩]

example : (empty.edits merging).sequence = [entry, 5, 2, 3, exit] := by cbv

def mergingFalls : List (BlockId × BlockId) := [(entry, 5), (3, 2), (5, 2), (2, exit)]

theorem linearizes_reached_merging :
    (empty.edits merging).Reached ∧ (empty.edits merging).FallsInChains ∧
    (∀ id, ((empty.edits merging).block? id).isSome → id ∈ (empty.edits merging).sequence) ∧
    (empty.edits merging).FallsInto 3 2 ∧
    ∃ head, (empty.edits merging).FallsInto head 2 ∧
      [head, 2] <:+: (empty.edits merging).sequence := by
  have hreached : (empty.edits merging).Reached := by
    have hids := ((((Reached.empty.edit .newId nofun).edit .newId nofun).edit .newId nofun).edit
      .newId nofun)
    have hblocks := ((hids.edit (.insertBlock { id := 5 }) (by rintro _ ⟨⟩; decide)).edit
      (.insertBlock { id := 2 }) (by rintro _ ⟨⟩; decide)).edit
      (.insertBlock { id := 3 }) (by rintro _ ⟨⟩; decide)
    exact ((((hblocks.edit (.insertEdge ⟨entry, 5, .fallThrough⟩) nofun).edit
      (.insertEdge ⟨3, 2, .fallThrough⟩) nofun).edit
      (.insertEdge ⟨5, 2, .fallThrough⟩) nofun).edit
      (.insertEdge ⟨2, exit, .fallThrough⟩) nofun).edit (.insertEdge ⟨3, 5, .branch⟩) nofun
  have hfalls : ∀ head tail,
      (empty.edits merging).FallsInto head tail ↔ (head, tail) ∈ mergingFalls := by
    intro head tail
    have hedges : (empty.edits merging).edges =
        [⟨entry, 5, .fallThrough⟩, ⟨3, 2, .fallThrough⟩, ⟨5, 2, .fallThrough⟩,
          ⟨2, exit, .fallThrough⟩, ⟨3, 5, .branch⟩] := rfl
    simp [FallsInto, hedges, mergingFalls]
  have honce : ∀ p ∈ mergingFalls, ∀ p' ∈ mergingFalls, p.1 = p'.1 → p.2 = p'.2 := by decide
  have hends : ∀ p ∈ mergingFalls, p.1 ≠ exit ∧ p.2 ≠ entry := by decide
  -- The ids stand in this order along the edges.
  have hrank : ∀ p ∈ mergingFalls,
      [entry, 3, 5, 2, exit].idxOf p.1 < [entry, 3, 5, 2, exit].idxOf p.2 := by decide
  have hranks : ∀ head tail, Relation.TransGen (empty.edits merging).FallsInto head tail →
      [entry, 3, 5, 2, exit].idxOf head < [entry, 3, 5, 2, exit].idxOf tail := by
    intro head tail h
    induction h with
    | single h => exact hrank _ ((hfalls _ _).1 h)
    | tail _ h ih => exact ih.trans (hrank _ ((hfalls _ _).1 h))
  have hchains : (empty.edits merging).FallsInChains :=
    { once := fun _ _ _ h h' => honce _ ((hfalls _ _).1 h) _ ((hfalls _ _).1 h') rfl
      exit := fun _ h => (hends _ ((hfalls _ _).1 h)).1 rfl
      entry := fun _ h => (hends _ ((hfalls _ _).1 h)).2 rfl
      acyclic := fun id h => Nat.lt_irrefl _ (hranks id id h) }
  obtain ⟨-, -, -, -, h⟩ := linearizes_reached hreached
  obtain ⟨hall, -, hbehind⟩ := h hchains
  have hmerge : (empty.edits merging).FallsInto 3 2 := (hfalls 3 2).2 (by decide)
  exact ⟨hreached, hchains, hall, hmerge, hbehind 3 2 hmerge (by decide)⟩

end KernelListing.FlowGraph
