import KernelListing.FlowGraph.Basic

/-!
# Editing a graph

A graph that starts with the entry and exit blocks alone is edited one step at a time, and a step
that is refused leaves it as it was (`edit`). `WellFormed` is what every step keeps: a block stands
in the slot of its id, the entry and exit blocks stay, and an edge never outlives a block at one of
its ends. So a slot that is empty has no edges, whatever stood in it before. The ids that are handed
out ascend (`issuedIds_eq_range'`), since no other step touches the next one.
-/

namespace KernelListing.FlowGraph

/-- A change to a graph. -/
inductive Edit where
  | newId
  | insertBlock (b : Block)
  | removeBlock (id : BlockId)
  | insertEdge (e : Edge)
  /-- To change everything about a block but its id. -/
  | rewriteBlock (id : BlockId) (label comment : String) (instructions : List Instruction)
  deriving DecidableEq, Repr

def tryEdit (g : FlowGraph) : Edit → Except Fault FlowGraph
  | .newId => g.newId.map Prod.snd
  | .insertBlock b => g.insertBlock b
  | .removeBlock id => (g.removeBlock id).map Prod.snd
  | .insertEdge e => g.insertEdge e
  | .rewriteBlock id label comment instructions =>
    g.modifyBlock id fun b => { b with label, comment, instructions }

/-- The graph after an edit. One that is refused leaves it as it was. -/
def edit (g : FlowGraph) (e : Edit) : FlowGraph :=
  match g.tryEdit e with
  | .ok g' => g'
  | .error _ => g

def edits (g : FlowGraph) (es : List Edit) : FlowGraph := es.foldl edit g

/-- The id that an edit hands out. -/
def issuedId? (g : FlowGraph) : Edit → Option BlockId
  | .newId => g.newId.toOption.map Prod.fst
  | _ => none

/-- The ids that some edits hand out, in their order. -/
def issuedIds (g : FlowGraph) : List Edit → List BlockId
  | [] => []
  | e :: es => (g.issuedId? e).toList ++ (g.edit e).issuedIds es

/-- What comes of an edit. -/
inductive Edited (g : FlowGraph) : Edit → FlowGraph → Prop where
  | refused {e : Edit} (hid : g.issuedId? e = none) : Edited g e g
  | newId {id : BlockId} {g' : FlowGraph} (h : g.newId = .ok (id, g')) : Edited g .newId g'
  | insertBlock {b : Block} {g' : FlowGraph} (h : g.insertBlock b = .ok g') :
    Edited g (.insertBlock b) g'
  | removeBlock {id : BlockId} {b : Option Block} {g' : FlowGraph}
    (h : g.removeBlock id = .ok (b, g')) : Edited g (.removeBlock id) g'
  | insertEdge {e : Edge} {g' : FlowGraph} (h : g.insertEdge e = .ok g') :
    Edited g (.insertEdge e) g'
  | rewriteBlock {id : BlockId} {label comment : String} {instructions : List Instruction}
    {g' : FlowGraph}
    (h : g.modifyBlock id (fun b => { b with label, comment, instructions }) = .ok g') :
    Edited g (.rewriteBlock id label comment instructions) g'

theorem edited_of_edit {g g' : FlowGraph} {e : Edit} (h : g.edit e = g') : g.Edited e g' := by
  subst h
  unfold edit
  cases e with
  | newId =>
    cases hnew : g.newId with
    | error fault =>
      have hid : g.issuedId? .newId = none := by rw [issuedId?, hnew]; rfl
      simpa [tryEdit, hnew, Except.map] using .refused hid
    | ok r => simpa [tryEdit, hnew, Except.map] using .newId hnew
  | insertBlock b =>
    cases hinsert : g.insertBlock b with
    | error fault => simpa [tryEdit, hinsert] using .refused rfl
    | ok g' => simpa [tryEdit, hinsert] using .insertBlock hinsert
  | removeBlock id =>
    cases hremove : g.removeBlock id with
    | error fault => simpa [tryEdit, hremove, Except.map] using .refused rfl
    | ok r => simpa [tryEdit, hremove, Except.map] using .removeBlock hremove
  | insertEdge e =>
    cases hinsert : g.insertEdge e with
    | error fault => simpa [tryEdit, hinsert] using .refused rfl
    | ok g' => simpa [tryEdit, hinsert] using .insertEdge hinsert
  | rewriteBlock id label comment instructions =>
    cases hmodify : g.modifyBlock id (fun b => { b with label, comment, instructions }) with
    | error fault => simpa [tryEdit, hmodify] using .refused rfl
    | ok g' => simpa [tryEdit, hmodify] using .rewriteBlock hmodify

/-- How the slots and the edges of a graph hang together. -/
structure WellFormed (g : FlowGraph) : Prop where
  id_eq : ∀ id b, g.block? id = some b → b.id = id
  entry : (g.block? entry).isSome
  exit : (g.block? exit).isSome
  ends : ∀ e ∈ g.edges, (g.block? e.head).isSome ∧ (g.block? e.tail).isSome

/-! ## Single edits -/

variable {g g' : FlowGraph}

theorem newId_eq_ok {id : BlockId} (h : g.newId = .ok (id, g')) :
    id = g.issued ∧ g' = { g with issued := g.issued + 1 } := by
  unfold newId at h
  split at h
  · cases h
    exact ⟨rfl, rfl⟩
  · cases h

theorem insertBlock_of_none {b : Block} (h : g.block? b.id = none) :
    ∃ g', g.insertBlock b = .ok g' := by
  simp [insertBlock, h]

/-- With a block go the edges at it, and the others stay in their order. -/
theorem edges_of_removeBlock {id : BlockId} {b : Option Block}
    (h : g.removeBlock id = .ok (b, g')) : g'.issued = g.issued ∧
      g'.edges = if b.isSome then g.edges.filter (fun e => e.head ≠ id ∧ e.tail ≠ id)
        else g.edges := by
  unfold removeBlock at h
  split at h
  · cases h
  · split at h
    · cases h
      exact ⟨rfl, rfl⟩
    · cases h
      exact ⟨rfl, rfl⟩

theorem ne_of_removeBlock {id : BlockId} {b : Option Block} (h : g.removeBlock id = .ok (b, g')) :
    id ≠ FlowGraph.entry ∧ id ≠ FlowGraph.exit := by
  unfold removeBlock at h
  split at h
  · cases h
  · next hid => exact not_or.1 hid

theorem removeBlock_of_none {id : BlockId} (hentry : id ≠ FlowGraph.entry)
    (hexit : id ≠ FlowGraph.exit) (h : g.block? id = none) :
    g.removeBlock id = .ok (none, g) := by
  rw [removeBlock, if_neg (not_or.2 ⟨hentry, hexit⟩), h]

theorem removeBlock_of_some {id : BlockId} {b : Block} (hentry : id ≠ FlowGraph.entry)
    (hexit : id ≠ FlowGraph.exit) (h : g.block? id = some b) :
    ∃ g', g.removeBlock id = .ok (some b, g') := by
  rw [removeBlock, if_neg (not_or.2 ⟨hentry, hexit⟩), h]
  exact ⟨_, rfl⟩

theorem isSome_of_insertEdge {e : Edge} (h : g.insertEdge e = .ok g') :
    (g.block? e.head).isSome ∧ (g.block? e.tail).isSome := by
  unfold insertEdge at h
  split at h
  · cases h
  · next hhead =>
    split at h
    · cases h
    · next htail =>
      rw [Option.isNone_iff_eq_none] at hhead htail
      exact ⟨Option.isSome_iff_ne_none.2 hhead, Option.isSome_iff_ne_none.2 htail⟩

/-! ## What every edit keeps -/

namespace WellFormed

theorem empty : WellFormed FlowGraph.empty := by
  refine ⟨fun id b hb => ?_, rfl, rfl, fun e he => absurd he List.not_mem_nil⟩
  match id with
  | 0 => cases hb; rfl
  | 1 => cases hb; rfl
  | k + 2 => cases hb

variable (h : g.WellFormed)

include h

theorem ne_of_block?_eq_none {id : BlockId} (hid : g.block? id = none) {e : Edge}
    (he : e ∈ g.edges) : e.head ≠ id ∧ e.tail ≠ id := by
  obtain ⟨hhead, htail⟩ := h.ends e he
  constructor
  · rintro rfl
    rw [hid] at hhead
    cases hhead
  · rintro rfl
    rw [hid] at htail
    cases htail

theorem ne_of_eq_none {id : BlockId} (hid : g.block? id = none) :
    id ≠ FlowGraph.entry ∧ id ≠ FlowGraph.exit := by
  constructor
  · rintro rfl
    exact Option.isSome_iff_ne_none.1 h.entry hid
  · rintro rfl
    exact Option.isSome_iff_ne_none.1 h.exit hid

theorem newId {id : BlockId} (hnew : g.newId = .ok (id, g')) : g'.WellFormed := by
  obtain ⟨-, rfl⟩ := newId_eq_ok hnew
  exact ⟨h.id_eq, h.entry, h.exit, h.ends⟩

theorem insertBlock {b : Block} (hinsert : g.insertBlock b = .ok g') : g'.WellFormed := by
  have hblock := block?_of_insertBlock hinsert
  have hkept : ∀ id, (g.block? id).isSome → (g'.block? id).isSome := by
    intro id hid
    rw [hblock]
    split
    · rfl
    · exact hid
  refine ⟨fun id b' hb' => ?_, hkept _ h.entry, hkept _ h.exit, fun e he => ?_⟩
  · rw [hblock] at hb'
    split at hb'
    · next hid =>
      cases hb'
      exact hid.symm
    · exact h.id_eq id b' hb'
  · rw [(edges_of_insertBlock hinsert).1] at he
    exact (h.ends e he).imp (hkept _) (hkept _)

theorem removeBlock {id : BlockId} {b : Option Block} (hremove : g.removeBlock id = .ok (b, g')) :
    g'.WellFormed := by
  obtain ⟨hentry, hexit⟩ := ne_of_removeBlock hremove
  obtain rfl := (block?_of_removeBlock hremove id).1
  have hblock := fun id' => (block?_of_removeBlock hremove id').2
  have hkept : ∀ id', id' ≠ id → g'.block? id' = g.block? id' := fun id' hne => by
    rw [hblock, if_neg hne]
  refine ⟨fun id' b hb => ?_, ?_, ?_, fun e he => ?_⟩
  · rw [hblock] at hb
    split at hb
    · cases hb
    · exact h.id_eq id' b hb
  · rw [hkept _ hentry.symm]
    exact h.entry
  · rw [hkept _ hexit.symm]
    exact h.exit
  · -- The edges that are left have no end at the slot, or it was empty before.
    have hleft : e ∈ g.edges ∧ e.head ≠ id ∧ e.tail ≠ id := by
      rw [(edges_of_removeBlock hremove).2] at he
      split at he
      · simpa using he
      · next hnone => exact ⟨he, h.ne_of_block?_eq_none (by simpa using hnone) he⟩
    obtain ⟨he, hhead, htail⟩ := hleft
    rw [hkept _ hhead, hkept _ htail]
    exact h.ends e he

theorem insertEdge {e : Edge} (hinsert : g.insertEdge e = .ok g') : g'.WellFormed := by
  have hends := isSome_of_insertEdge hinsert
  obtain rfl := insertEdge_eq_ok hinsert
  refine ⟨h.id_eq, h.entry, h.exit, fun e' he' => ?_⟩
  rcases List.mem_append.1 he' with he' | he'
  · exact h.ends e' he'
  · rw [List.mem_singleton.1 he']
    exact hends

theorem modifyBlock {id : BlockId} {f : Block → Block} (hmodify : g.modifyBlock id f = .ok g')
    (hf : ∀ b, (f b).id = b.id) : g'.WellFormed := by
  have hblock := block?_of_modifyBlock hmodify
  have hkept : ∀ id', (g.block? id').isSome → (g'.block? id').isSome := by
    intro id' hid'
    rw [hblock]
    split
    · next hid =>
      rw [← hid, Option.isSome_map]
      exact hid'
    · exact hid'
  refine ⟨fun id' b hb => ?_, hkept _ h.entry, hkept _ h.exit, fun e he => ?_⟩
  · rw [hblock] at hb
    split at hb
    · next hid =>
      obtain ⟨b', hb', rfl⟩ := Option.map_eq_some_iff.1 hb
      rw [hf, hid]
      exact h.id_eq id b' hb'
    · exact h.id_eq id' b hb
  · rw [(edges_of_modifyBlock hmodify).1] at he
    exact (h.ends e he).imp (hkept _) (hkept _)

/-- An edit keeps the slots and edges together, whether it is refused or not. -/
theorem edit (e : Edit) : (g.edit e).WellFormed := by
  generalize hedit : g.edit e = g'
  cases edited_of_edit hedit with
  | refused => exact h
  | newId hnew => exact h.newId hnew
  | insertBlock hinsert => exact h.insertBlock hinsert
  | removeBlock hremove => exact h.removeBlock hremove
  | insertEdge hinsert => exact h.insertEdge hinsert
  | rewriteBlock hmodify => exact h.modifyBlock hmodify fun _ => rfl

theorem edits (es : List Edit) : (g.edits es).WellFormed := by
  induction es generalizing g with
  | nil => exact h
  | cons e es ih => exact ih (h.edit e)

end WellFormed

/-! ## Ids -/

theorem issuedId?_edit (g : FlowGraph) (e : Edit) :
    ∃ n, (g.issuedId? e).toList = List.range' g.issued n ∧ (g.edit e).issued = g.issued + n := by
  generalize hedit : g.edit e = g'
  have hnone : g.issuedId? e = none → g'.issued = g.issued →
      ∃ n, (g.issuedId? e).toList = List.range' g.issued n ∧ g'.issued = g.issued + n :=
    fun hid hissued => ⟨0, by rw [hid]; rfl, hissued⟩
  cases edited_of_edit hedit with
  | refused hid => exact hnone hid rfl
  | newId hnew =>
    obtain ⟨rfl, rfl⟩ := newId_eq_ok hnew
    exact ⟨1, by rw [issuedId?, hnew]; rfl, rfl⟩
  | insertBlock hinsert => exact hnone rfl (edges_of_insertBlock hinsert).2
  | removeBlock hremove => exact hnone rfl (edges_of_removeBlock hremove).1
  | insertEdge hinsert =>
    obtain rfl := insertEdge_eq_ok hinsert
    exact hnone rfl rfl
  | rewriteBlock hmodify => exact hnone rfl (edges_of_modifyBlock hmodify).2

/-- The ids are handed out one after the other, whatever is edited in between. -/
theorem issuedIds_eq_range' (g : FlowGraph) (es : List Edit) :
    ∃ n, g.issuedIds es = List.range' g.issued n ∧ (g.edits es).issued = g.issued + n := by
  induction es generalizing g with
  | nil => exact ⟨0, rfl, rfl⟩
  | cons e es ih =>
    obtain ⟨m, hid, hissued⟩ := g.issuedId?_edit e
    obtain ⟨n, hids, hissued'⟩ := ih (g.edit e)
    refine ⟨m + n, ?_, ?_⟩
    · rw [issuedIds, hid, hids, hissued, List.range'_append_1]
    · rw [← Nat.add_assoc, ← hissued]
      exact hissued'

/-! ## Every graph that edits lead to -/

/-- The arena keeps its order through any edits of a new graph. A block stands in the slot of its
id, the entry and exit blocks are there, and so are both ends of each edge; the ids handed out
ascend from those of the entry and exit blocks. To remove a block gives it back and takes away the
edges at it and nothing else, and where there is none nothing happens. A block that is put into an
empty slot has no edges, whether or not there was another one with its id. -/
theorem wellFormed_edits_empty (es : List Edit) :
    (empty.edits es).WellFormed ∧
    (entry :: exit :: empty.issuedIds es).Pairwise (· < ·) ∧
    (∀ id b, (empty.edits es).block? id = some b → id ≠ entry → id ≠ exit →
      ∃ g, (empty.edits es).removeBlock id = .ok (some b, g) ∧
        (∀ id', g.block? id' = if id' = id then none else (empty.edits es).block? id') ∧
        g.edges = (empty.edits es).edges.filter (fun e => e.head ≠ id ∧ e.tail ≠ id) ∧
        g.issued = (empty.edits es).issued) ∧
    (∀ id, (empty.edits es).block? id = none →
      (empty.edits es).removeBlock id = .ok (none, empty.edits es)) ∧
    ∀ b, (empty.edits es).block? b.id = none → ∃ g, (empty.edits es).insertBlock b = .ok g ∧
      g.block? b.id = some b ∧ g.successors b.id = [] ∧ g.predecessors b.id = [] := by
  have h := WellFormed.empty.edits es
  refine ⟨h, ?_, fun id b hb hentry hexit => ?_, fun id hid => ?_, fun b hb => ?_⟩
  · obtain ⟨n, hids, -⟩ := empty.issuedIds_eq_range' es
    have hrange : entry :: exit :: empty.issuedIds es = List.range' 0 (2 + n) := by
      rw [hids, ← List.range'_append_1]
      rfl
    rw [hrange]
    exact List.pairwise_lt_range'
  · obtain ⟨g, hremove⟩ := removeBlock_of_some hentry hexit hb
    obtain ⟨hissued, hedges⟩ := edges_of_removeBlock hremove
    exact ⟨g, hremove, fun id' => (block?_of_removeBlock hremove id').2, hedges, hissued⟩
  · obtain ⟨hentry, hexit⟩ := h.ne_of_eq_none hid
    exact removeBlock_of_none hentry hexit hid
  · obtain ⟨g, hinsert⟩ := insertBlock_of_none hb
    have hedges := (edges_of_insertBlock hinsert).1
    refine ⟨g, hinsert, ?_, ?_, ?_⟩
    · rw [block?_of_insertBlock hinsert, if_pos rfl]
    · refine List.filter_eq_nil_iff.2 fun e he => ?_
      rw [hedges] at he
      simpa using (h.ne_of_block?_eq_none hb he).1
    · refine List.filter_eq_nil_iff.2 fun e he => ?_
      rw [hedges] at he
      simpa using (h.ne_of_block?_eq_none hb he).2

end KernelListing.FlowGraph
