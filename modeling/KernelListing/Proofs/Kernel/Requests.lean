import KernelListing.Kernel.Listing
import KernelListing.Proofs.Kernel.Canonical
import KernelListing.Proofs.Kernel.Declarations
import KernelListing.Proofs.Register.Occurrences

/-!
# Summaries that are kept do not go stale

A kernel keeps the dataflow summary that it was first asked for, and canonicalizing it afterwards
changes the instructions that the summary was made from. What changes are the labels of blocks and
branches (`canonicalize_unaddressed`), and neither way of collecting declarations looks at those. So
it does not matter when the summary was made: the declarations are those of the graph as it is
(`registerDeclarations_afterRequests`).
-/

namespace KernelListing

/-! ## Declarations without labels -/

namespace Register

section renamed

variable (types : Types) (op : Operand) (name : String)

theorem recordReads_name : recordReads types { op with name } = recordReads types op := by
  unfold recordReads Operand.isRegisterLike Operand.scalars
  cases op.elements.isEmpty <;> rfl

theorem recordDefinitions_name :
    recordDefinitions types { op with name } = recordDefinitions types op := by
  unfold recordDefinitions Operand.scalars
  cases op.elements.isEmpty <;> rfl

theorem occurrences_name : occurrences { op with name } = occurrences op := by
  unfold occurrences Operand.isPredicate Operand.scalars
  cases op.elements.isEmpty <;> cases op.type.isPredicate <;> rfl

end renamed

variable (i : Instruction)

/-- The name that a branch goes by is no register. -/
theorem recordInstruction_unaddressed (types : Types) :
    recordInstruction types i.unaddressed = recordInstruction types i := by
  have hdestination : ∀ name,
      recordDestination types (i.renameDestination name) = recordDestination types i := by
    intro name
    unfold recordDestination Instruction.renameDestination
    rw [recordReads_name, recordDefinitions_name]
    rfl
  unfold Instruction.unaddressed
  split
  · rw [recordInstruction, recordInstruction, hdestination]
    rfl
  · rfl

theorem occurrences_unaddressed :
    (inspected i.unaddressed).flatMap occurrences = (inspected i).flatMap occurrences := by
  unfold Instruction.unaddressed
  split
  · next hop =>
    simp [inspected, Instruction.renameDestination, hop, occurrences_name]
  · rfl

end Register

theorem FlowGraph.instructions_unaddressed (g : FlowGraph) :
    (g.mapBlocks Block.unaddressed).blocks.flatMap (·.instructions) =
      (g.blocks.flatMap (·.instructions)).map Instruction.unaddressed :=
  g.instructions_mapBlocks fun _ => rfl

theorem Register.declarations_unaddressed (g : FlowGraph) :
    declarations (g.mapBlocks Block.unaddressed) = declarations g := by
  rw [declarations, declarations, g.instructions_unaddressed, List.foldl_map]
  simp only [recordInstruction_unaddressed]

theorem Register.declarationsInOrder_unaddressed (g : FlowGraph) :
    declarationsInOrder (.ofGraph (g.mapBlocks Block.unaddressed)) =
      declarationsInOrder (.ofGraph g) := by
  have hoccurrences : ∀ is : List Instruction,
      ((is.map Instruction.unaddressed).flatMap inspected).flatMap occurrences =
        (is.flatMap inspected).flatMap occurrences := by
    intro is
    rw [List.flatMap_map, List.flatMap_assoc, List.flatMap_assoc]
    exact List.flatMap_congr fun i _ => occurrences_unaddressed i
  rw [declarationsInOrder, declarationsInOrder, Dataflow.instructions_ofGraph,
    Dataflow.instructions_ofGraph, g.instructions_unaddressed, hoccurrences]

section congr

variable {g g' : FlowGraph}
  (h : g'.mapBlocks Block.unaddressed = g.mapBlocks Block.unaddressed)

include h

/-- Graphs that differ in labels alone have the same declarations. -/
theorem Register.declarations_congr : declarations g' = declarations g := by
  rw [← declarations_unaddressed g', h, declarations_unaddressed]

theorem Register.declarationsInOrder_congr :
    declarationsInOrder (.ofGraph g') = declarationsInOrder (.ofGraph g) := by
  rw [← declarationsInOrder_unaddressed g', h, declarationsInOrder_unaddressed]

end congr

/-! ## Requests -/

namespace Kernel

/-- What can be asked of a kernel that changes what it will be written as, or when. -/
inductive Call where
  | canonicalize (kernelId : Nat)
  | dataflow
  deriving DecidableEq, Repr

def call (k : Kernel) : Call → Kernel
  | .canonicalize kernelId => k.canonicalize kernelId
  | .dataflow => k.withDataflow

def afterCalls (k : Kernel) (calls : List Call) : Kernel := calls.foldl call k

/-- What can be asked of a kernel. To tell its declarations or its listing leaves it as it is. -/
inductive Request where
  | call (c : Call)
  | declarations
  | listing (banner : Option String)
  deriving DecidableEq, Repr

def request (k : Kernel) : Request → Kernel
  | .call c => k.call c
  | .declarations => k
  | .listing _ => k

def afterRequests (k : Kernel) (rs : List Request) : Kernel := rs.foldl request k

def Request.kernelId? : Request → Option Nat
  | .call (.canonicalize kernelId) => some kernelId
  | _ => none

/-- The graph of a kernel, and the one that its summary was made from if it has one, differ from
some graph in labels alone. -/
structure Resembles (k : Kernel) (g : FlowGraph) : Prop where
  graph : k.graph.mapBlocks Block.unaddressed = g.mapBlocks Block.unaddressed
  dataflow : ∀ s, k.dataflow? = some s → ∃ g', s = .ofGraph g' ∧
    g'.mapBlocks Block.unaddressed = g.mapBlocks Block.unaddressed

section resembles

variable {k : Kernel} {g : FlowGraph} (h : k.Resembles g)

include h

theorem Resembles.exists_dataflow : ∃ g', k.dataflow = .ofGraph g' ∧
    g'.mapBlocks Block.unaddressed = g.mapBlocks Block.unaddressed := by
  cases hkept : k.dataflow? with
  | none => exact ⟨k.graph, by rw [Kernel.dataflow, hkept]; rfl, h.graph⟩
  | some s =>
    rw [Kernel.dataflow, hkept]
    exact h.dataflow s hkept

theorem Resembles.request (r : Request) : (k.request r).Resembles g := by
  match r with
  | .call (.canonicalize kernelId) =>
    exact ⟨(FlowGraph.canonicalize_unaddressed k.graph kernelId).trans h.graph, h.dataflow⟩
  | .call .dataflow =>
    refine ⟨h.graph, fun s hs => ?_⟩
    obtain rfl : k.dataflow = s := Option.some.inj hs
    exact h.exists_dataflow
  | .declarations => exact h
  | .listing _ => exact h

theorem Resembles.afterRequests (rs : List Request) : (k.afterRequests rs).Resembles g := by
  induction rs generalizing k with
  | nil => exact h
  | cons r rs ih => exact ih (h.request r)

/-- The declarations are those of the graph that the kernel resembles, and only the order and the
types depend on whether there is a summary. -/
theorem Resembles.registerDeclarations : k.registerDeclarations =
    if k.hasDataflow then Register.declarationsInOrder (.ofGraph g)
    else Register.declarations g := by
  unfold Kernel.registerDeclarations hasDataflow
  cases hkept : k.dataflow? with
  | none => exact Register.declarations_congr h.graph
  | some s =>
    obtain ⟨g', rfl, hg'⟩ := h.dataflow s hkept
    exact Register.declarationsInOrder_congr hg'

end resembles

theorem hasDataflow_afterRequests (k : Kernel) (rs : List Request) :
    (k.afterRequests rs).hasDataflow = true ↔ k.hasDataflow = true ∨ .call .dataflow ∈ rs := by
  induction rs generalizing k with
  | nil => simp [afterRequests]
  | cons r rs ih =>
    have hstep : (k.request r).hasDataflow = true ↔
        k.hasDataflow = true ∨ .call .dataflow = r := by
      match r with
      | .call (.canonicalize kernelId) => simp [request, call, canonicalize, hasDataflow]
      | .call .dataflow => simp [request, call, withDataflow, hasDataflow]
      | .declarations => simp [request]
      | .listing banner => simp [request]
    rw [List.mem_cons, ← or_assoc, ← hstep]
    exact ih (k.request r)

def withoutDataflow (k : Kernel) : Kernel := { k with dataflow? := none }

/-- Apart from its summary, a kernel is what canonicalizing has made of it. -/
theorem withoutDataflow_afterRequests (k : Kernel) (rs : List Request) :
    (k.afterRequests rs).withoutDataflow =
      k.withoutDataflow.canonicalizeAll (rs.filterMap Request.kernelId?) := by
  induction rs generalizing k with
  | nil => rfl
  | cons r rs ih =>
    match r with
    | .call (.canonicalize kernelId) => exact ih (k.canonicalize kernelId)
    | .call .dataflow => exact ih k.withDataflow
    | .declarations => exact ih k
    | .listing _ => exact ih k

theorem listing_congr {k k' : Kernel} (hname : k'.name = k.name)
    (hparameters : k'.parameters = k.parameters) (hstorage : k'.storage = k.storage)
    (hregisters : k'.registerDeclarations = k.registerDeclarations)
    (hgraph : graphLines k'.graph = graphLines k.graph) (banner : Option String) :
    k'.listing banner = k.listing banner := by
  have hheader : k'.header = k.header := by rw [header, header, hname, hparameters]
  have hlines : k'.declarationLines = k.declarationLines := by
    rw [declarationLines, declarationLines, hstorage, hregisters]
  rw [listing, listing, listingLines, listingLines, hheader, hlines, hgraph]

/-- Of its summary, a listing shows the declarations alone. -/
theorem listing_eq_of_withoutDataflow {k k' : Kernel}
    (h : k'.withoutDataflow = k.withoutDataflow)
    (hregisters : k'.registerDeclarations = k.registerDeclarations) (banner : Option String) :
    k'.listing banner = k.listing banner := by
  simp only [withoutDataflow, mk.injEq] at h
  obtain ⟨hname, hparameters, hstorage, hgraph, -⟩ := h
  exact listing_congr hname hparameters hstorage hregisters (congrArg graphLines hgraph) banner

theorem dataflow?_ofStatements {ss : List Statement} {k : Kernel} (h : ofStatements ss = .ok k) :
    k.dataflow? = none := by
  obtain ⟨g, -, rfl⟩ := ofStatements_eq_ok_iff.1 h
  exact dataflow?_ofDeclarations ss

theorem resembles_afterRequests {k : Kernel} (h : k.dataflow? = none) (rs : List Request) :
    (k.afterRequests rs).Resembles k.graph :=
  Resembles.afterRequests ⟨rfl, fun s hs => by rw [h] at hs; cases hs⟩ rs

/-- What the declarations of a kernel that began without a summary are made from. The labels of its
graph may have changed since, but not its registers. -/
theorem registerDeclarations_eq {k : Kernel} (h : k.dataflow? = none) (rs : List Request) :
    (k.afterRequests rs).registerDeclarations =
      if .call .dataflow ∈ rs then Register.declarationsInOrder (.ofGraph k.graph)
      else Register.declarations k.graph := by
  have hkept : (k.afterRequests rs).hasDataflow = true ↔ .call .dataflow ∈ rs := by
    rw [hasDataflow_afterRequests, hasDataflow, h]
    simp
  simp only [(resembles_afterRequests h rs).registerDeclarations, hkept]

/-- Whatever is asked of a kernel, its declarations are those of its graph as it is then, made from
a new summary if it has been asked for one and without a summary otherwise. They do not depend on
what else has been asked for, and so, once a summary has been asked for, neither does the listing,
but for the canonical labels. -/
theorem registerDeclarations_afterRequests {ss : List Statement} {k : Kernel}
    (h : ofStatements ss = .ok k) :
    (∀ rs, (k.afterRequests rs).registerDeclarations =
      if .call .dataflow ∈ rs then
        Register.declarationsInOrder (.ofGraph (k.afterRequests rs).graph)
      else Register.declarations (k.afterRequests rs).graph) ∧
    (∀ rs rs', (.call .dataflow ∈ rs ↔ .call .dataflow ∈ rs') →
      (k.afterRequests rs).registerDeclarations = (k.afterRequests rs').registerDeclarations) ∧
    ∀ rs rs', .call .dataflow ∈ rs → .call .dataflow ∈ rs' →
      rs.filterMap Request.kernelId? = rs'.filterMap Request.kernelId? →
        ∀ banner, (k.afterRequests rs).listing banner = (k.afterRequests rs').listing banner := by
  have hnone : k.dataflow? = none := dataflow?_ofStatements h
  have hsame : ∀ rs rs', (.call .dataflow ∈ rs ↔ .call .dataflow ∈ rs') →
      (k.afterRequests rs).registerDeclarations = (k.afterRequests rs').registerDeclarations := by
    intro rs rs' hiff
    rw [registerDeclarations_eq hnone, registerDeclarations_eq hnone]
    simp only [hiff]
  refine ⟨fun rs => ?_, hsame, fun rs rs' hrs hrs' hids banner => ?_⟩
  · have hresembles := resembles_afterRequests hnone rs
    rw [registerDeclarations_eq hnone, Register.declarations_congr hresembles.graph,
      Register.declarationsInOrder_congr hresembles.graph]
  · have hrest : (k.afterRequests rs).withoutDataflow = (k.afterRequests rs').withoutDataflow := by
      rw [withoutDataflow_afterRequests, withoutDataflow_afterRequests, hids]
    have hboth : .call .dataflow ∈ rs ↔ .call .dataflow ∈ rs' := iff_of_true hrs hrs'
    exact listing_eq_of_withoutDataflow hrest (hsame rs rs' hboth) banner

/-- A loop whose register is defined with two types. -/
def retyped : List Statement :=
  [.label "top", .instruction { opcode := .mov, d := .register "x" .u32, a := .immediate 1 .u32 },
    .instruction { opcode := .neg, d := .register "x" .f32, a := .register "x" .f32 },
    .instruction { opcode := .bra, d := .label "top", guard := .predicate "p" },
    .instruction { opcode := .exit }]

theorem registerDeclarations_afterRequests_retyped : ∃ k, ofStatements retyped = .ok k ∧
    (k.afterRequests [.call .dataflow, .call (.canonicalize 0)]).listing none =
      (k.afterRequests [.declarations, .call (.canonicalize 0), .listing none,
        .call .dataflow]).listing none := by
  obtain ⟨g, hg⟩ : ∃ g, FlowGraph.ofStatements retyped = .ok g := ⟨_, rfl⟩
  have hk := ofStatements_eq_ok_iff.2 ⟨g, hg, rfl⟩
  refine ⟨_, hk, ?_⟩
  obtain ⟨-, -, hlisting⟩ := registerDeclarations_afterRequests hk
  exact hlisting [.call .dataflow, .call (.canonicalize 0)]
    [.declarations, .call (.canonicalize 0), .listing none, .call .dataflow] (by decide)
    (by decide) rfl none

end Kernel

end KernelListing
