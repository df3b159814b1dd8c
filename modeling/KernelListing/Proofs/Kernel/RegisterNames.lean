import Mathlib.Data.Set.Function
import KernelListing.Kernel.Listing
import KernelListing.Proofs.Kernel.Translation
import KernelListing.Proofs.Register.Names

/-!
# Kernels do not depend on the names of registers

To rename the registers of some statements, such that no two of them get one name, is to rename them
in the numbering of the kernel, which is otherwise the same (`ofStatements_renameRegisters`). The
names are only met while the registers are numbered: no step of building the graph looks at them, as
long as the branches go by labels, and once a register has its number the name is gone.
-/

namespace KernelListing

/-- The statement with other names for its registers. -/
def Statement.renameRegisters (r : String → String) : Statement → Statement
  | .instruction i => .instruction (i.renameRegisters fun x => r x.name)
  | s => s

def Numbering.rename (m : Numbering) (r : String → String) : Numbering where
  names := m.names.map r

/-! ## The graph -/

/-- The registers under other names, and the labels under their own. -/
def Translation.registers (r : String → String) : Translation where
  label := id
  instruction := Instruction.renameRegisters fun x => r x.name
  label_injective := Function.injective_id
  flowsLike i := by
    constructor <;>
      simp [Instruction.renameRegisters, Operand.isAlwaysTrue, Operand.isAlwaysFalse,
        Operand.isPredicate]

namespace Translation

variable {r : String → String}

theorem statement_registers : (registers r).statement = Statement.renameRegisters r := by
  funext s
  cases s <;> rfl

theorem answer_registers {α : Type} (f : α → α) (x : Except BuildError α) :
    (registers r).answer f x = x.map f := by
  cases x with
  | ok a => rfl
  | error e => cases e <;> rfl

theorem block_registers (b : Block) : (registers r).block b =
    { b with
      instructions := b.instructions.map (Instruction.renameRegisters fun x => r x.name) } := by
  rw [block]
  split <;> rfl

/-- A branch to a label has no register where its target stands. -/
theorem follows_registers {is : List Instruction}
    (h : ∀ i ∈ is, i.opcode = .bra → i.d.mode = .label) : (registers r).Follows is := by
  intro i hi hop name
  have hd : ∀ op : Operand, op.mode = .label →
      op.renameRegisters (fun x => r x.name) = op :=
    fun _ hmode => Operand.renameRegisters_of_not_isNumbered (Operand.isNumbered_of_label hmode)
  have hmode := h i hi hop
  simp only [registers, Instruction.renameRegisters, Instruction.renameDestination, id_eq]
  rw [hd i.d hmode, hd { i.d with name } hmode]

end Translation

/-! ## The numbers -/

section numbers

variable {r : String → String}

section hne

variable (hne : ∀ name, name ≠ "" → r name ≠ "")

include hne

theorem registerNames_registers (g : FlowGraph) :
    (g.mapBlocks (Translation.registers r).block).registerNames = g.registerNames.map r := by
  rw [FlowGraph.registerNames_translate, FlowGraph.registerNames, List.map_flatMap]
  refine List.flatMap_congr fun b _ => ?_
  rw [Block.registerNames, List.map_flatMap]
  refine List.flatMap_congr fun i _ => ?_
  have hrenamed : ∀ x ∈ i.numberedScalars, r x.name ≠ "" :=
    fun _ hx => hne _ (Instruction.name_ne_of_mem_numberedScalars hx)
  rw [i.registerNames_eq, List.map_map]
  exact Instruction.registerNames_renameRegisters hrenamed

end hne

variable (hinj : Set.InjOn r {name | name ≠ ""})

include hinj

theorem Numbering.number_registers {names : List String} (hnames : ∀ name ∈ names, name ≠ "")
    {name : String} (h : name ∈ names) :
    (ofNames (names.map r)).number (r name) = (ofNames names).number name := by
  have hnumber := number_map (f := r) (g := id)
    (fun x hx y hy => hinj.eq_iff (hnames x hx) (hnames y hy)) h
  rwa [List.map_id] at hnumber

theorem Numbering.ofNames_registers {names : List String} (hnames : ∀ name ∈ names, name ≠ "") :
    ofNames (names.map r) = (ofNames names).rename r := by
  obtain ⟨first, -, hrenamed, hfirst⟩ := exists_names_eq_map (f := r) (g := id)
    (fun x hx y hy => hinj.eq_iff (hnames x hx) (hnames y hy))
  rw [List.map_id, List.map_id] at hfirst
  rw [rename, hfirst, ← hrenamed]

theorem Numbering.ofGraph_registers (hne : ∀ name, name ≠ "" → r name ≠ "") (g : FlowGraph) :
    ofGraph (g.mapBlocks (Translation.registers r).block) =
      ((ofGraph g).1, (ofGraph g).2.rename r) := by
  -- Only names that are not empty are met, and `r` tells those apart.
  have hnames : ∀ name ∈ g.registerNames, name ≠ "" :=
    fun _ hname => FlowGraph.ne_empty_of_mem_registerNames hname
  have hinstruction : ∀ b ∈ g.blocks, ∀ i ∈ b.instructions,
      (ofNames (g.registerNames.map r)).instruction (i.renameRegisters fun x => r x.name) =
        (ofNames g.registerNames).instruction i := by
    refine fun b hb i hi => instruction_renameRegisters fun x hx => ?_
    have hname : x.name ∈ g.registerNames := List.mem_flatMap.2 ⟨b, hb, List.mem_flatMap.2
      ⟨i, hi, i.registerNames_eq ▸ List.mem_map_of_mem hx⟩⟩
    exact ⟨hne _ (hnames _ hname), number_registers hinj hnames hname⟩
  rw [ofGraph_eq, ofGraph_eq, registerNames_registers hne, FlowGraph.mapBlocks_mapBlocks]
  refine Prod.ext (FlowGraph.mapBlocks_congr fun b hb => ?_) (ofNames_registers hinj hnames)
  simp only [Function.comp_def, Translation.block_registers, block, List.map_map]
  rw [List.map_congr_left (hinstruction b hb)]

end numbers

/-! ## The kernel -/

namespace Kernel

/-- A kernel under other names for its registers: only its numbering tells that they are others. -/
structure Renames (r : String → String) (k' k : Kernel) : Prop where
  graph : k'.graph = k.graph
  names : ∀ number, k'.numbering.name? number = (k.numbering.name? number).map r
  listing : ∀ banner, k'.listing banner = k.listing banner
  listing_withDataflow : ∀ banner,
    k'.withDataflow.listing banner = k.withDataflow.listing banner

theorem renames_rename (k : Kernel) (r : String → String) :
    Renames r { k with numbering := k.numbering.rename r } k where
  graph := rfl
  names _ := List.getElem?_map
  listing _ := rfl
  listing_withDataflow _ := rfl

/-- The kernel of the statements under other names for their registers is that of the statements,
with the other names in its numbering, and where there is none, the error is the same. -/
theorem ofStatements_renameRegisters {r : String → String} {ss : List Statement}
    (hinj : Set.InjOn r {name | name ≠ ""}) (hne : ∀ name, name ≠ "" → r name ≠ "")
    (hmodes : ∀ i ∈ Statement.instructions ss, i.opcode = .bra → i.d.mode = .label) :
    match ofStatements ss with
    | .error e => ofStatements (ss.map (Statement.renameRegisters r)) = .error e
    | .ok k => ∃ k', ofStatements (ss.map (Statement.renameRegisters r)) = .ok k' ∧
        Renames r k' k := by
  have hgraph := FlowGraph.ofStatements_translate (Translation.follows_registers (r := r) hmodes)
    fun _ => rfl
  have hdeclarations := ofDeclarations_translate (.registers r) ss
  rw [Translation.statement_registers] at hgraph hdeclarations
  rw [ofStatements, ofStatements, hgraph, hdeclarations, Translation.answer_registers]
  cases FlowGraph.ofStatements ss with
  | error e => rfl
  | ok g =>
    refine ⟨_, rfl, ?_⟩
    have hk := renames_rename ((ofDeclarations ss).withBody g) r
    rw [withBody, Numbering.ofGraph_registers hinj hne]
    exact hk

/-- A load of two registers at once. -/
def pairLoad : Instruction where
  opcode := .ld
  modifiers := ".v2"
  type := some .u32
  d := { mode := .register, type := .u32, elements := [.register "x" .u32, .register "y" .u32] }
  a := .indirect "base" 4 .u64

/-- A vector, an address and a predicate, before a label that has the name of a register. -/
def gathered : List Statement :=
  [.instruction pairLoad, .instruction { opcode := .bra, d := .label "x", guard := .predicate "p" },
    .instruction { opcode := .not, d := .register "y" .u32, a := .register "y" .u32 },
    .label "x", .instruction { opcode := .exit }]

def exchangeRegisters : Equiv.Perm String := Equiv.swap "x" "y"

theorem ofStatements_renameRegisters_gathered : ∃ k k', ofStatements gathered = .ok k ∧
    ofStatements (gathered.map (Statement.renameRegisters exchangeRegisters)) = .ok k' ∧
      k'.graph = k.graph ∧ k'.numbering.name? 0 = some "y" ∧
        k'.withDataflow.listing none = k.withDataflow.listing none := by
  obtain ⟨g, hg, hnames⟩ : ∃ g, FlowGraph.ofStatements gathered = .ok g ∧
      g.registerNames = ["x", "y", "base", "p", "y", "y"] := ⟨_, rfl, rfl⟩
  have hk := ofStatements_eq_ok_iff.2 ⟨g, hg, rfl⟩
  have hfirst : ((ofDeclarations gathered).withBody g).numbering.name? 0 = some "x" := by
    rw [withBody, Numbering.ofGraph_eq, hnames]
    rfl
  have hempty : exchangeRegisters "" = "" := Equiv.swap_apply_of_ne_of_ne (by decide) (by decide)
  have hne : ∀ name, name ≠ "" → exchangeRegisters name ≠ "" :=
    fun name hname => hempty ▸ exchangeRegisters.injective.ne hname
  have hmodes : ∀ i ∈ Statement.instructions gathered, i.opcode = .bra → i.d.mode = .label := by
    decide
  have hrenamed := ofStatements_renameRegisters exchangeRegisters.injective.injOn hne hmodes
  rw [hk] at hrenamed
  obtain ⟨k', hk', hrenames⟩ := hrenamed
  refine ⟨_, k', hk, hk', hrenames.graph, ?_, hrenames.listing_withDataflow none⟩
  rw [hrenames.names, hfirst, Option.map_some, exchangeRegisters, Equiv.swap_apply_left]

end Kernel

end KernelListing
