import KernelListing.Proofs.Kernel.Relisting
import KernelListing.Proofs.Kernel.Requests
import KernelListing.Proofs.Source.Statements

/-!
# Listings can be read

A kernel that has been read from a text can be written at any time, and its listing is read without
an error and builds a kernel again (`builds_listing`). Four things that a source may have are lost
or mistaken on the way: a hardware register in a vector, which is written as nothing; the least
integer, whose literal is not read; a comma in the name of a parameter, or parentheses in place of
the last name; and an operation that looks like a label, once the guard in front of it, which always
holds, is gone.
-/

namespace KernelListing

open Text FlowGraph Instruction

/-- What is asked of the statements of a source, so that a listing of them can be read. -/
structure Statement.Readable (ss : List Statement) : Prop where
  /-- No vector has a hardware register, which would be written as nothing. -/
  special : ∀ i ∈ instructions ss, ∀ s, ∀ e ∈ (i.operand s).elements, e.mode ≠ .special
  /-- The digits of the least integer are too many for a literal. -/
  immediate : ∀ i ∈ instructions ss, ∀ s, (i.operand s).mode = .immediate →
    (i.operand s).value ≠ Int64.minValue
  /-- Parameters are separated by commas in the header. -/
  parameters : ∀ p, .parameter p ∈ ss → ',' ∉ p.name.toList
  /-- With the parenthesis that ends the header go those before it. -/
  last : ∀ p ∈ (Kernel.ofDeclarations ss).parameters.getLast?, ∃ c ∈ p.name.toList, c ≠ ')'
  /-- A guard that always holds is not written, and its operation starts the line. -/
  operation : ∀ i ∈ instructions ss, i.guard = .alwaysTrue → Unlabelled i.operationText.toList

namespace Kernel

/-! ## Calls -/

theorem declarations_afterCalls (k : Kernel) (calls : List Call) :
    (k.afterCalls calls).name = k.name ∧ (k.afterCalls calls).parameters = k.parameters ∧
      (k.afterCalls calls).storage = k.storage := by
  induction calls generalizing k with
  | nil => exact ⟨rfl, rfl, rfl⟩
  | cons c calls ih =>
    obtain ⟨hname, hparameters, hstorage⟩ := ih (k.call c)
    cases c with
    | canonicalize kernelId => exact ⟨hname, hparameters, hstorage⟩
    | dataflow => exact ⟨hname, hparameters, hstorage⟩

/-- Each call leaves the graph under some labelling, and only canonicalizing changes it. -/
theorem shows_afterCalls {k : Kernel} {ss : List Segment} {x : Labelling} {m : Numbering}
    (h : k.graph.Shows ss x m) (hx : x.Proper ss) (haim : Aimed ss) (calls : List Call) :
    ∃ x' : Labelling, (k.afterCalls calls).graph.Shows ss x' m ∧ x'.Proper ss ∧
      ((∀ c ∈ calls, c = .dataflow) → x' = x) := by
  induction calls generalizing k x with
  | nil => exact ⟨x, h, hx, fun _ => rfl⟩
  | cons c calls ih =>
    cases c with
    | canonicalize kernelId =>
      obtain ⟨x', h', hx', -⟩ := ih (k := k.canonicalize kernelId)
        (h.canonicalize hx haim kernelId) (hx.canonicalize kernelId)
      exact ⟨x', h', hx', fun hcalls => by cases hcalls _ (List.mem_cons_self ..)⟩
    | dataflow =>
      obtain ⟨x', h', hx', heq⟩ := ih (k := k.withDataflow) h hx
      exact ⟨x', h', hx', fun hcalls => heq (List.forall_mem_cons.1 hcalls).2⟩

end Kernel

/-! ## The source -/

namespace FlowGraph

section source

variable {ss : List Statement} {o : Outline} (ho : outline ss = .ok o)
  (hread : ∀ s ∈ ss, s.IsRead) (h : Statement.Readable ss)
  (hnone : dangling? o.filled o.filled = none)

include ho

theorem mem_instructions_of_filled {s : Segment} (hs : s ∈ o.filled) {i : Instruction}
    (hi : i ∈ s.instructions) : i ∈ Statement.instructions ss := by
  rw [← instructions_filled ho]
  exact List.mem_flatMap.2 ⟨s, hs, hi⟩

include hread hnone

theorem aimed_of_isRead : Aimed o.filled :=
  aimed_filled ho hnone fun _ hi hop =>
    (Statement.isRead_of_mem_instructions hread hi).isNumbered_of_bra hop

include h

theorem legibleUnder {x : Labelling} (hx : x.Proper o.filled) : LegibleUnder x o.filled := by
  intro s hs i hi
  have hmem := mem_instructions_of_filled ho hs hi
  have hi' := Statement.isRead_of_mem_instructions hread hmem
  have hlegible : i.opcode ≠ .bra ∨ isLabelName i.d.name.toList = true → i.Legible := by
    intro hbranch
    constructor
    · exact ((outline_sound ho).filled s hs).no_call i hi
    · exact fun hop => hbranch.resolve_left (not_not.2 hop)
    · exact h.special i hmem
    · exact h.immediate i hmem
    · exact h.operation i hmem
  -- Only a branch changes with the labelling, and its new label is a name like its old one.
  by_cases hop : i.opcode = .bra
  · obtain ⟨-, id, hlookup⟩ := aimed_of_isRead ho hread hnone s hs i hi hop
    obtain ⟨k, s', rfl, hs', hl⟩ := exists_of_lookup_namesOf hlookup
    have hname : isLabelName i.d.name.toList = true := hread _ (label_mem_of_filled ho hs' hl)
    have hlabel : isLabelName (x.label (k + 2)).toList = true :=
      (hx.label (k + 2)).resolve_left (hx.named k s' hs' (List.ne_nil_of_mem hl))
    have hne : i.d.name ≠ "" := by
      intro hempty
      rw [hempty] at hname
      cases hname
    rw [retarget_of_lookup hop hlookup]
    exact ⟨hi'.renameDestination hop hne hlabel,
      (hlegible (.inr hname)).renameDestination hlabel⟩
  · rw [retarget_of_ne_bra hop]
    exact ⟨hi', hlegible (.inl hop)⟩

end source

end FlowGraph

namespace Kernel

theorem instruction?_listedDeclarations (k : Kernel) :
    ∀ s ∈ k.listedDeclarations, (∀ l, s ≠ .label l) ∧ s.instruction? = none := by
  intro s hs
  rcases List.mem_append.1 hs with hs | hs
  · rcases List.mem_append.1 hs with hs | hs
    · split at hs
      · cases hs
      · rw [List.mem_singleton.1 hs]
        exact ⟨nofun, rfl⟩
    · obtain ⟨p, -, rfl⟩ := List.mem_map.1 hs
      exact ⟨nofun, rfl⟩
  · obtain ⟨p, -, rfl⟩ := List.mem_map.1 hs
    unfold Statement.ofVariable
    split
    · exact ⟨nofun, rfl⟩
    · exact ⟨nofun, rfl⟩

theorem LegibleDeclarations.congr {k k' : Kernel} (h : k.LegibleDeclarations)
    (heq : k'.name = k.name ∧ k'.parameters = k.parameters ∧ k'.storage = k.storage) :
    k'.LegibleDeclarations := by
  obtain ⟨hname, hparameters, hstorage⟩ := heq
  constructor
  · rw [hname]
    exact h.name
  · rw [hparameters]
    exact h.parameters
  · rw [hparameters]
    exact h.last
  · rw [hstorage]
    exact h.storage

theorem legibleDeclarations_ofDeclarations {ss : List Statement} (hread : ∀ s ∈ ss, s.IsRead)
    (h : Statement.Readable ss) : (ofDeclarations ss).LegibleDeclarations := by
  constructor
  · exact isTitle_name fun n hn => hread _ hn
  · intro p hp
    have hmem := mem_parameters hp
    exact ⟨hread _ hmem, h.parameters p hmem⟩
  · exact h.last
  · intro e he
    rcases (mem_storage he).2 with hmem | hmem
    · exact (hread _ hmem).2
    · exact (hread _ hmem).2

section listing

variable {ss : List Statement} {o : Outline} (ho : outline ss = .ok o)
  (hread : ∀ s ∈ ss, s.IsRead) (h : Statement.Readable ss)
  (hexit : o.filled.any Segment.exits = true) (hnone : dangling? o.filled o.filled = none)

include ho hread h hexit hnone

/-- What is read from the listing of a kernel that shows the segments of an outline, and the graph
that it builds. -/
theorem graph_listing {k : Kernel} {x : Labelling} {m : Numbering}
    (hdeclarations : k.LegibleDeclarations) (hshows : k.graph.Shows o.filled x m)
    (hx : x.Proper o.filled) {banner : Option String}
    (hbanner : ∀ text ∈ banner, ¬ ['*', '/'] <:+: text.toList) :
    Source.read (k.listing banner) =
        { statements := k.clipped.listedDeclarations ++
            written (relabel (x.line (k.graph.blocks.map (·.label)))
              (x.lineInstruction o.filled m) o.filled) } ∧
      FlowGraph.ofStatements (Source.read (k.listing banner)).statements =
        .ok (settle (relabel (x.line (k.graph.blocks.map (·.label)))
          (x.lineInstruction o.filled m) o.filled)).graph := by
  have haim := aimed_of_isRead ho hread hnone
  have hsound := outline_sound ho
  have hlisting := read_listing hdeclarations hshows hx hsound.linked_filled hsound.filled
    (legibleUnder ho hread h hnone hx) hbanner
  have hdistinct := nodup_line hx fun _ hk => mem_labels_of_shows hshows hk
  refine ⟨hlisting, ?_⟩
  rw [hlisting]
  exact ofStatements_relabel ho flowsLike_lineInstruction hdistinct (retargets_line hx haim _)
    hexit hnone k.clipped.instruction?_listedDeclarations

end listing

/-- The listing of a kernel that has been read from a text is read without an error and builds a
kernel again, after any calls. -/
theorem builds_listing {text : String} {k : Kernel}
    (hk : ofStatements (Source.read text).statements = .ok k)
    (h : Statement.Readable (Source.read text).statements) (calls : List Call)
    {banner : Option String} (hbanner : ∀ text ∈ banner, ¬ ['*', '/'] <:+: text.toList) :
    (Source.read ((k.afterCalls calls).listing banner)).errors = [] ∧
      ∃ k',
        ofStatements (Source.read ((k.afterCalls calls).listing banner)).statements = .ok k' := by
  obtain ⟨o, ho, hexit, hnone, rfl⟩ := exists_outline_of_ofStatements hk
  have hread : ∀ s ∈ (Source.read text).statements, s.IsRead := fun s hs =>
    Source.isRead_of_mem_read hs
  generalize (Source.read text).statements = ss at *
  have haim := aimed_of_isRead ho hread hnone
  have hgraph : ((ofDeclarations ss).withBody o.graph).graph.Shows o.filled
      (.ofSegments o.filled) (.ofNames o.graph.registerNames) := by
    rw [graph_withBody]
    exact shows_graph o _
  obtain ⟨x, hshows, hx, -⟩ := shows_afterCalls hgraph
    (proper_ofSegments ho fun l hl => hread _ hl) haim calls
  have hdeclarations := (legibleDeclarations_ofDeclarations hread h).congr
    (declarations_afterCalls ((ofDeclarations ss).withBody o.graph) calls)
  obtain ⟨hlisting, hbuilds⟩ := graph_listing ho hread h hexit hnone hdeclarations hshows hx hbanner
  refine ⟨?_, _, ofStatements_eq_ok_iff.2 ⟨_, hbuilds, rfl⟩⟩
  rw [hlisting]

/-- A kernel with a parenthesis in the name of its parameter, a comparison without a first
destination, and a colon in an operation behind a guard. -/
def odd : String :=
  ".entry odd(.param .u32 n)x)\n\x7b\nsetp.lt.s32 |%p, 1, 2;\n@%q mov.x:y.u32 %r, 3;\nexit;\n\x7d\n"

def oddStatements : List Statement := [
  .entry "odd",
  .parameter { type := .u32, name := "n)x" },
  .instruction
    { opcode := .setp, modifiers := ".lt", type := some .s32, d := .predicate "",
      q := .predicate "%p", a := .immediate 1 .s32, b := .immediate 2 .s32 },
  .instruction
    { opcode := .mov, modifiers := ".x:y", type := some .u32, d := .register "%r" .u32,
      a := .immediate 3 .u32, guard := .predicate "%q" },
  .instruction { opcode := .exit }]

theorem read_odd : Source.read odd = { statements := oddStatements } := by
  decide +kernel

theorem readable_odd : Statement.Readable (Source.read odd).statements := by
  rw [read_odd]
  constructor
  · intro i hi s
    revert i
    cases s <;> decide +kernel
  · intro i hi s
    revert i
    cases s <;> decide +kernel
  · simp [oddStatements]
  · rintro p ⟨⟩
    exact ⟨'n', by decide, by decide⟩
  · intro i hi hguard
    refine Instruction.unlabelled_of_not_mem ?_
    revert i
    decide +kernel

/-- The listing of `odd` under canonical labels is read and builds a kernel. -/
theorem builds_listing_odd : ∃ k, ofStatements (Source.read odd).statements = .ok k ∧
    (Source.read ((k.afterCalls [.dataflow, .canonicalize 0]).listing none)).errors = [] ∧
      ∃ k', ofStatements (Source.read
        ((k.afterCalls [.dataflow, .canonicalize 0]).listing none)).statements = .ok k' := by
  obtain ⟨k, hk⟩ : ∃ k, ofStatements (Source.read odd).statements = .ok k := by
    rw [read_odd]
    exact ⟨_, rfl⟩
  exact ⟨k, hk, builds_listing hk readable_odd [.dataflow, .canonicalize 0] nofun⟩

/-- A move of the least integer, in a base that has a literal for it. -/
def least : String := "mov.s64 %r1, 0x-8000000000000000;\nexit;\n"

def leastStatements : List Statement := [
  .instruction
    { opcode := .mov, type := some .s64, d := .register "%r1" .s64,
      a := .immediate Int64.minValue .s64 },
  .instruction { opcode := .exit }]

theorem read_least : Source.read least = { statements := leastStatements } := by
  decide +kernel

def leastListing : String :=
  ".entry ()\n\x7b\n    .reg .s64 %r0;\n    $BB_0_0002:\n" ++
    "        mov.s64 %r0, -9223372036854775808;\n        exit;\n\x7d\n"

theorem listing_least :
    (ofStatements leastStatements).map (fun k =>
      (k.afterCalls [.dataflow, .canonicalize 0]).listing none) = .ok leastListing := by
  decide +kernel

theorem errors_leastListing :
    (Source.read leastListing).errors = [.invalidInteger "-9223372036854775808"] := by
  decide +kernel

/-- What is written for the least integer is not read. -/
theorem errors_listing_least : ∃ k, ofStatements (Source.read least).statements = .ok k ∧
    (Source.read ((k.afterCalls [.dataflow, .canonicalize 0]).listing none)).errors ≠ [] := by
  rw [read_least]
  have hlisting := listing_least
  cases hk : ofStatements leastStatements with
  | error e =>
    rw [hk] at hlisting
    cases hlisting
  | ok k =>
    rw [hk] at hlisting
    have htext : (k.afterCalls [.dataflow, .canonicalize 0]).listing none = leastListing :=
      Except.ok.inj hlisting
    refine ⟨k, rfl, ?_⟩
    rw [htext, errors_leastListing]
    exact List.cons_ne_nil _ _

end Kernel

end KernelListing
