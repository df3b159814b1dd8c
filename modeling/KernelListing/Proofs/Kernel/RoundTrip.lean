import KernelListing.Proofs.Kernel.Rereading

/-!
# Listings are read back

A kernel that has been read from a text can be written at any time, and its listing is read as the
same kernel (`readsBack_listing`): with the same declarations, blocks, instructions and edges, and
with the same numbers for its registers. Only blocks without a label are told apart from before, for
they have synthetic labels now.
-/

namespace KernelListing

open Text FlowGraph

/-- What is asked of the statements of a source, so that a listing can tell apart what they tell
apart. -/
structure Statement.Legible (ss : List Statement) : Prop where
  /-- No name stands for a predicate and for another register. -/
  predicates : ∀ i ∈ instructions ss, ∀ j ∈ instructions ss, ∀ x ∈ i.registers, ∀ y ∈ j.registers,
    x.name = y.name → x.isPredicate = y.isPredicate
  special : ∀ i ∈ instructions ss, ∀ s, ∀ e ∈ (i.operand s).elements, e.mode ≠ .special
  comparison : ∀ i ∈ instructions ss, i.opcode = .setp →
    (i.d.isValid = true → i.d.name ≠ "") ∧ (i.q.isValid = true → i.q.name ≠ "")
  immediate : ∀ i ∈ instructions ss, ∀ s, (i.operand s).mode = .immediate →
    (i.operand s).value ≠ Int64.minValue
  parameters : ∀ p, .parameter p ∈ ss → ',' ∉ p.name.toList ∧ ')' ∉ p.name.toList
  modifiers : ∀ i ∈ instructions ss, ':' ∉ i.modifiers.toList

namespace Kernel

/-- The summary of a kernel, if it has one, is that of its graph as it is now. -/
def UpToDate (k : Kernel) : Prop := k.dataflow? = none ∨ k.dataflow? = some (.ofGraph k.graph)

theorem upToDate_afterCalls {k : Kernel} {calls : List Call} (h : ∀ c ∈ calls, c = .dataflow)
    (hk : k.UpToDate) : (k.afterCalls calls).UpToDate := by
  induction calls generalizing k with
  | nil => exact hk
  | cons c calls ih =>
    obtain ⟨rfl, hcalls⟩ := List.forall_mem_cons.1 h
    have hdataflow : k.withDataflow.dataflow? = some (.ofGraph k.graph) := by
      rcases hk with hk | hk <;> simp [withDataflow, dataflow, hk]
    exact ih hcalls (.inr hdataflow)

end Kernel

/-! ## The source -/

theorem Statement.Legible.readable {ss : List Statement} (h : Legible ss)
    (hread : ∀ s ∈ ss, s.IsRead) : Readable ss := by
  constructor
  · exact h.special
  · exact h.immediate
  · exact fun p hp => (h.parameters p hp).1
  · intro p hp
    have hmem := Kernel.mem_parameters (List.mem_of_getLast? hp)
    have hends : EndsWord p.name := Parameter.IsRead.ends (hread _ hmem)
    obtain ⟨c, cs, hname⟩ := List.exists_cons_of_ne_nil hends.toList_ne_nil
    refine ⟨c, hname ▸ List.mem_cons_self .., ?_⟩
    rintro rfl
    exact (h.parameters p hmem).2 (hname ▸ List.mem_cons_self ..)
  · exact fun i hi _ => Instruction.unlabelled_of_not_mem
      (Instruction.not_mem_operationText (h.modifiers i hi))

namespace FlowGraph

section source

variable {ss : List Statement} {o : Outline} (ho : outline ss = .ok o)
  (hread : ∀ s ∈ ss, s.IsRead) (h : Statement.Legible ss)

include ho hread h

/-- A listing tells predicates from other registers wherever the source does. -/
theorem isPredicate_eq_of_name_eq {op op' : Operand} (hop : op ∈ scalarsOf o.filled)
    (hop' : op' ∈ scalarsOf o.filled) (hname : op.name = op'.name) :
    op.isPredicate = op'.isPredicate := by
  have hregisters : ∀ op ∈ scalarsOf o.filled, ∃ i ∈ Statement.instructions ss,
      op ∈ i.registers := by
    intro op hop
    obtain ⟨i, hi, hop⟩ := List.mem_flatMap.1 hop
    rw [instructions_filled ho] at hi
    have hi' := Statement.isRead_of_mem_instructions hread hi
    exact ⟨i, hi, hi'.numberedScalars_subset (h.special i hi) hop⟩
  obtain ⟨i, hi, hmem⟩ := hregisters op hop
  obtain ⟨i', hi', hmem'⟩ := hregisters op' hop'
  exact h.predicates i hi i' hi' op hmem op' hmem' hname

theorem named_filled : Named o.filled := by
  intro s hs i hi slot heq
  have hmem := mem_instructions_of_filled ho hs hi
  have hfits := (Statement.isRead_of_mem_instructions hread hmem).fits slot
  obtain ⟨hop, rfl | rfl⟩ := hfits.comparison_of_eq_predicate heq
  · obtain ⟨hname, -⟩ := h.comparison i hmem hop
    rw [show i.d = .predicate "" from heq] at hname
    exact hname rfl rfl
  · obtain ⟨-, hname⟩ := h.comparison i hmem hop
    rw [show i.q = .predicate "" from heq] at hname
    exact hname rfl rfl

end source

end FlowGraph

namespace Kernel

/-- A kernel is another one, in which blocks may have got labels. -/
structure Recovers (k' k : Kernel) : Prop where
  name : k'.name = k.name
  parameters : k'.parameters = k.parameters
  storage : k'.storage = k.storage
  blocks : List.Forall₂ (fun b b' => b'.id = b.id ∧ b'.instructions = b.instructions ∧
    (b.label ≠ "" → b'.label = b.label)) k.graph.blocks k'.graph.blocks
  edges : k'.graph.edges = k.graph.edges

/-- The declarations of registers come from the instructions, or from a summary of them. -/
theorem registerDeclarations_congr {k k' : Kernel}
    (h : k'.graph.blocks.flatMap (·.instructions) = k.graph.blocks.flatMap (·.instructions))
    (hnone : k'.dataflow? = none) (hk : k.UpToDate) :
    (if k.hasDataflow then k'.withDataflow else k').registerDeclarations =
      k.registerDeclarations := by
  rcases hk with hk | hk
  · simp [hasDataflow, registerDeclarations, hk, hnone, Register.declarations, h]
  · simp [hasDataflow, registerDeclarations, withDataflow, dataflow, hk, hnone,
      Register.declarationsInOrder, Dataflow.instructions_ofGraph, h]

section listing

variable {ss : List Statement} {o : Outline} (ho : outline ss = .ok o)
  (hread : ∀ s ∈ ss, s.IsRead) (h : Statement.Legible ss)
  (hexit : o.filled.any Segment.exits = true) (hnone : dangling? o.filled o.filled = none)

include ho hread h hexit hnone

theorem exists_ofStatements_listing {k : Kernel} {x : Labelling}
    (hdeclarations : k.LegibleDeclarations) (hclipped : k.clipped = k)
    (hstorage : (SortedTable.keys k.storage).Pairwise (· < ·) ∧ ∀ e ∈ k.storage, e.1 = e.2.name)
    (hshows : k.graph.Shows o.filled x (.ofNames o.graph.registerNames)) (hx : x.Proper o.filled)
    {banner : Option String} (hbanner : ∀ text ∈ banner, ¬ ['*', '/'] <:+: text.toList) :
    (Source.read (k.listing banner)).errors = [] ∧
      ∃ k', ofStatements (Source.read (k.listing banner)).statements = .ok k' ∧
        k'.name = k.name ∧ k'.parameters = k.parameters ∧ k'.storage = k.storage ∧
        k'.dataflow? = none ∧ k'.graph.Shows o.filled (x.lines (k.graph.blocks.map (·.label)))
          (.ofNames o.graph.registerNames) := by
  have haim := aimed_of_isRead ho hread hnone
  have hshows' := shows_relabel ho hx haim (named_filled ho hread h) (fun _ hop _ hop' hname =>
    isPredicate_eq_of_name_eq ho hread h hop hop' hname)
    (fun _ hk => mem_labels_of_shows hshows hk) rfl rfl
  obtain ⟨hlisting, hgraph⟩ := graph_listing ho hread (h.readable hread) hexit hnone hdeclarations
    hshows hx hbanner
  rw [hlisting] at hgraph ⊢
  refine ⟨rfl, _, ofStatements_eq_ok_iff.2 ⟨_, hgraph, rfl⟩, ?_⟩
  rw [hclipped, ofDeclarations_listedDeclarations hstorage.1 hstorage.2, graph_withBody]
  exact ⟨rfl, rfl, rfl, rfl, hshows'⟩

end listing

/-- A kernel that has been read from a text can be written after any calls, and its listing is read
as the same kernel. As long as it has not been canonicalized, that kernel has the same listing
again. -/
theorem readsBack_listing {text : String} {k : Kernel}
    (hk : ofStatements (Source.read text).statements = .ok k)
    (h : Statement.Legible (Source.read text).statements) (calls : List Call)
    {banner : Option String} (hbanner : ∀ text ∈ banner, ¬ ['*', '/'] <:+: text.toList) :
    (Source.read ((k.afterCalls calls).listing banner)).errors = [] ∧
      ∃ k', ofStatements (Source.read ((k.afterCalls calls).listing banner)).statements = .ok k' ∧
        k'.Recovers (k.afterCalls calls) ∧
        ((∀ c ∈ calls, c = .dataflow) →
          (if (k.afterCalls calls).hasDataflow then k'.withDataflow else k').listing banner =
            (k.afterCalls calls).listing banner) := by
  obtain ⟨o, ho, hexit, hnone, rfl⟩ := exists_outline_of_ofStatements hk
  have hread : ∀ s ∈ (Source.read text).statements, s.IsRead :=
    fun s hs => Source.isRead_of_mem_read hs
  generalize (Source.read text).statements = ss at *
  have haim := aimed_of_isRead ho hread hnone
  have hproper := proper_ofSegments ho fun l hl => hread _ hl
  have hgraph : ((ofDeclarations ss).withBody o.graph).graph.Shows o.filled
      (.ofSegments o.filled) (.ofNames o.graph.registerNames) := by
    rw [graph_withBody]
    exact shows_graph o _
  obtain ⟨x, hshows, hx, hfirst⟩ := shows_afterCalls hgraph hproper haim calls
  have hdeclarations := declarations_afterCalls ((ofDeclarations ss).withBody o.graph) calls
  have hstorage : ∀ t, t = (ofDeclarations ss).storage →
      (SortedTable.keys t).Pairwise (· < ·) ∧ ∀ e ∈ t, e.1 = e.2.name := by
    rintro t rfl
    exact ⟨keys_storage_pairwise ss, fun e he => (mem_storage he).1⟩
  obtain ⟨herrors, k', hk', hname, hparameters, hstorage, hnone', hshows'⟩ :=
    exists_ofStatements_listing ho hread h hexit hnone
      ((legibleDeclarations_ofDeclarations hread (h.readable hread)).congr hdeclarations)
      (clipped_eq_self fun p hp => (h.parameters p (mem_parameters (hdeclarations.2.1 ▸ hp))).2)
      (hstorage _ hdeclarations.2.2) hshows hx hbanner
  refine ⟨herrors, k', hk', ⟨hname, hparameters, hstorage, forall₂_blocks hshows hshows' hx haim,
    hshows'.edges.trans hshows.edges.symm⟩, fun hcalls => ?_⟩
  -- Only summaries have been asked for, so one that is kept is that of this very graph.
  have hupToDate := upToDate_afterCalls (k := (ofDeclarations ss).withBody o.graph) hcalls
    (.inl (dataflow?_ofDeclarations ss))
  have hsound := outline_sound ho
  have hlines := graphLines_lines hshows hshows' hx haim rfl hsound.linked_filled hsound.filled
    fun id => by rw [hfirst hcalls]; rfl
  have hregisters := registerDeclarations_congr
    (flatMap_instructions_blocks hshows hshows' hx haim) hnone' hupToDate
  refine listing_congr ?_ ?_ ?_ hregisters ?_ banner
  · rw [← hname]
    split <;> rfl
  · rw [← hparameters]
    split <;> rfl
  · rw [← hstorage]
    split <;> rfl
  · rw [← hlines]
    split <;> rfl

/-- A loop of one instruction, in a kernel with a parameter. -/
def spinning : String := ".entry spin(.param .u32 n)\n\x7b\nL:\n@%p bra L;\nexit;\n\x7d\n"

theorem read_spinning : Source.read spinning = { statements := [
    .entry "spin", .parameter { type := .u32, name := "n" },
    .label "L", .instruction { opcode := .bra, d := .label "L", guard := .predicate "%p" },
    .instruction { opcode := .exit }] } := by
  decide +kernel

theorem legible_spinning : Statement.Legible (Source.read spinning).statements := by
  rw [read_spinning]
  constructor
  · decide +kernel
  · intro i hi s
    revert i
    cases s <;> decide +kernel
  · decide +kernel
  · intro i hi s
    revert i
    cases s <;> decide +kernel
  · simp
  · decide +kernel

theorem readsBack_listing_spinning :
    ∃ k, ofStatements (Source.read spinning).statements = .ok k ∧
      ∃ k', ofStatements (Source.read
          ((k.afterCalls [.dataflow]).listing (some "spin"))).statements = .ok k' ∧
        k'.Recovers (k.afterCalls [.dataflow]) ∧
        k'.withDataflow.listing (some "spin") = (k.afterCalls [.dataflow]).listing (some "spin") := by
  obtain ⟨g, hg⟩ : ∃ g, FlowGraph.ofStatements (Source.read spinning).statements = .ok g := by
    rw [read_spinning]
    exact ⟨_, rfl⟩
  have hok := ofStatements_eq_ok_iff.2 ⟨g, hg, rfl⟩
  have hbanner : ∀ text ∈ some "spin", ¬ ['*', '/'] <:+: text.toList := by decide +kernel
  obtain ⟨-, k', hk', hrecovers, hagain⟩ := readsBack_listing hok legible_spinning
    [.dataflow] hbanner
  exact ⟨_, hok, k', hk', hrecovers, hagain (by decide)⟩

end Kernel

end KernelListing
