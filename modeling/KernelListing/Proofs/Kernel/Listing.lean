import KernelListing.Kernel.Listing
import KernelListing.Proofs.FlowGraph.Sequence
import KernelListing.Proofs.Instruction.Registers
import KernelListing.Proofs.Kernel.Declarations
import KernelListing.Proofs.Kernel.Labelling

/-!
# Reading a listing

A listing is read as the declarations of its kernel and the segments of its graph, each under the
name on its label line (`read_listing`). That name is the label of the block, or a synthetic one
where there is none, so that it can be read as a label and no other block has it. The parenthesis
that closes the header of the kernel takes with it those that end the name of the last parameter.
-/

namespace KernelListing

open Text

namespace FlowGraph

variable {g : FlowGraph} {ss : List Segment} {x : Labelling} {m : Numbering}

/-! ## Names on label lines -/

/-- The name on the label line of a block. -/
def Labelling.line (x : Labelling) (used : List String) (id : BlockId) : String :=
  if (x.label id).isEmpty then Label.synthetic used id else x.label id

theorem line_of_ne_empty {used : List String} {id : BlockId} (h : x.label id ≠ "") :
    x.line used id = x.label id :=
  if_neg (by simpa using h)

theorem isLabelName_line (hx : x.Proper ss) (used : List String) (id : BlockId) :
    isLabelName (x.line used id).toList = true := by
  unfold Labelling.line
  split
  · exact Label.isLabelName_synthetic used id
  · next h =>
    rcases hx.label id with hempty | hname
    · exact absurd (by simp [hempty]) h
    · exact hname

theorem exists_of_mem_range' {n id : Nat} (h : id ∈ List.range' 2 n) : ∃ k < n, id = k + 2 := by
  rw [List.mem_range'_1] at h
  exact ⟨id - 2, by omega, by omega⟩

theorem nodup_line (hx : x.Proper ss) {used : List String}
    (hused : ∀ k < ss.length, x.label (k + 2) ∈ used) :
    ((List.range' 2 ss.length).map (x.line used)).Nodup := by
  refine List.Nodup.map_on (fun id hid id' hid' h => ?_) List.nodup_range'
  obtain ⟨k, hk, rfl⟩ := exists_of_mem_range' hid
  obtain ⟨k', hk', rfl⟩ := exists_of_mem_range' hid'
  have hnew := fun k hk k' (heq : x.label (k + 2) = Label.synthetic used (k' + 2)) =>
    Label.synthetic_not_mem used (k' + 2) (heq ▸ hused k hk)
  -- Two names on label lines are both labels, both synthetic, or one of each.
  by_cases hempty : x.label (k + 2) = ""
  · by_cases hempty' : x.label (k' + 2) = ""
    · rw [Labelling.line, if_pos (by simpa using hempty), Labelling.line,
        if_pos (by simpa using hempty')] at h
      exact Label.synthetic_injective used h
    · rw [Labelling.line, if_pos (by simpa using hempty), line_of_ne_empty hempty'] at h
      exact absurd h.symm (hnew k' hk' k)
  · by_cases hempty' : x.label (k' + 2) = ""
    · rw [line_of_ne_empty hempty, Labelling.line, if_pos (by simpa using hempty')] at h
      exact absurd h (hnew k hk k')
    · rw [line_of_ne_empty hempty, line_of_ne_empty hempty'] at h
      rw [hx.distinct k hk k' hk' h hempty]

/-! ## Instructions on lines -/

/-- The instruction as it is read from its line. -/
def Labelling.lineInstruction (x : Labelling) (ss : List Segment) (m : Numbering)
    (i : Instruction) : Instruction := m.rereadInstruction (x.retarget ss i)

theorem flowsLike_lineInstruction (i : Instruction) : (x.lineInstruction ss m i).FlowsLike i := by
  have hretarget : (x.retarget ss i).opcode = i.opcode ∧ (x.retarget ss i).guard = i.guard := by
    unfold Labelling.retarget
    split <;> exact ⟨rfl, rfl⟩
  constructor
  · exact hretarget.1
  · simp [Labelling.lineInstruction, Numbering.rereadInstruction, Operand.isAlwaysTrue,
      Operand.isPredicate, hretarget.2]
  · simp [Labelling.lineInstruction, Numbering.rereadInstruction, Operand.isAlwaysFalse,
      Operand.isPredicate, hretarget.2]

theorem retargets_line (hx : x.Proper ss) (haim : Aimed ss) (used : List String) :
    Retargets (x.line used) (x.lineInstruction ss m) ss := by
  intro s hs i hi hop
  obtain ⟨hnumbered, id, hlookup⟩ := haim s hs i hi hop
  obtain ⟨k, s', rfl, hs', hl⟩ := exists_of_lookup_namesOf hlookup
  have hne := hx.named k s' hs' (List.ne_nil_of_mem hl)
  have hrenamed : (i.renameDestination (x.label (k + 2))).d.isNumbered = false := hnumbered
  refine ⟨k + 2, hlookup, ?_⟩
  rw [Labelling.lineInstruction, retarget_of_lookup hop hlookup, line_of_ne_empty hne,
    Numbering.rereadInstruction]
  dsimp only
  rw [Numbering.reread_of_not_isNumbered hrenamed]
  rfl

/-! ## Lines of blocks -/

theorem zipIdx_map_numbered {α : Type} (f : Segment × BlockId → α) (ss : List Segment) :
    ((numbered ss).map f).zipIdx 2 = (numbered ss).map fun p => (f p, p.2) := by
  induction ss using List.reverseRecOn with
  | nil => rfl
  | append_singleton ss s ih =>
    have hlength : (numbered ss).length = ss.length := List.length_zipIdx
    rw [numbered_concat, List.map_append, List.zipIdx_append, ih, List.map_append,
      List.length_map, hlength, Nat.add_comm 2]
    rfl

/-- The blocks stand in the order of their ids, so that the positions are the ids of the inner
ones. -/
theorem zipIdx_sequence (h : g.Shows ss x m) (hlinked : Linked ss) :
    (g.sequence.filterMap g.block?).zipIdx 1 =
      ({ id := FlowGraph.entry, label := entryLabel }, 1) ::
        ((numbered ss).map fun (s, id) => (m.block (x.block ss id s), id)) ++
          [({ id := FlowGraph.exit, label := exitLabel }, ss.length + 2)] := by
  have hnumbers : (numbered ss).map Prod.snd = List.range' 2 ss.length := List.zipIdx_map_snd ..
  have hinner : (List.range' 2 ss.length).filterMap g.block? =
      (numbered ss).map fun (s, id) => m.block (x.block ss id s) := by
    rw [← hnumbers, List.filterMap_map, ← List.filterMap_eq_map]
    refine List.filterMap_congr (forall_mem_numbered.2 fun k s hs => ?_)
    have hblock := h.block k
    rw [hs] at hblock
    exact hblock
  have hentry : g.block? FlowGraph.entry = some { id := FlowGraph.entry, label := entryLabel } :=
    h.entry
  have hexit : g.block? FlowGraph.exit = some { id := FlowGraph.exit, label := exitLabel } := h.exit
  have hlength : (numbered ss).length = ss.length := List.length_zipIdx
  rw [sequence_eq h.edges hlinked h.ids, front, List.cons_append,
    List.filterMap_cons_some hentry, List.filterMap_append, hinner,
    List.filterMap_cons_some hexit, List.filterMap_nil, List.zipIdx_cons, List.zipIdx_append,
    zipIdx_map_numbered, List.length_map, hlength, Nat.add_comm (1 + 1)]
  rfl

/-- What is asked of the instructions of some segments so that they can be read from their lines. -/
def LegibleUnder (x : Labelling) (ss : List Segment) : Prop :=
  ∀ s ∈ ss, ∀ i ∈ s.instructions, (x.retarget ss i).IsRead ∧ (x.retarget ss i).Legible

theorem toList_commentText (b : Block) : b.commentText.toList =
    if b.comment.toList.isEmpty then []
    else [' ', '/', '*', ' '] ++ b.comment.toList ++ [' ', '*', '/'] := by
  unfold Block.commentText
  by_cases h : b.comment = ""
  · simp [h]
  · rw [if_neg (by simpa using h), if_neg (by simpa using h)]
    simp

/-- The lines of an inner block are read as its segment. -/
theorem readsLines_block (hx : x.Proper ss) (hlegible : LegibleUnder x ss) {s : Segment}
    (hs : s ∈ ss) (hclosed : s.Closed) (used : List String) (id : BlockId) :
    Source.ReadsLines (Kernel.blockLines used (m.block (x.block ss id s)) id)
      (Segment.statements { s with
        labels := [x.line used id], instructions := s.instructions.map (x.lineInstruction ss m) }) := by
  have hne : (m.block (x.block ss id s)).isEmpty = false := by
    simpa [Block.isEmpty, Numbering.block, Labelling.block] using hclosed.ne_nil
  have hlabel : Kernel.lineLabel used (m.block (x.block ss id s)) id = x.line used id := rfl
  unfold Kernel.blockLines
  rw [Kernel.needsLabelLine, hne, Bool.not_false, Bool.true_or, if_pos rfl]
  refine Source.readsLines_append (Source.readsLines_singleton ?_) ?_
  · have hfront : ∀ c ∈ "    ".toList, c = ' ' := by decide
    have hread := Source.reads_label hfront (isLabelName_line hx used id) (hx.comment id)
    have htext : ("    " ++ x.line used id ++ ":" ++ (m.block (x.block ss id s)).commentText).toList =
        "    ".toList ++ (x.line used id).toList ++ [':'] ++
          (if (x.comment id).toList.isEmpty then []
            else [' ', '/', '*', ' '] ++ (x.comment id).toList ++ [' ', '*', '/']) := by
      have hcomment := toList_commentText (m.block (x.block ss id s))
      rw [String.toList_append, String.toList_append, String.toList_append, hcomment]
      rfl
    rw [String.ofList_toList] at hread
    rw [hlabel, htext]
    exact hread
  · have hfront : ∀ c ∈ "        ".toList, c = ' ' := by decide
    have hinstructions : (m.block (x.block ss id s)).instructions =
        s.instructions.map fun i => m.instruction (x.retarget ss i) := by
      simp [Numbering.block, Labelling.block]
    rw [hinstructions, List.map_map, List.map_map]
    refine Source.readsLines_map fun i hi => ?_
    obtain ⟨hread, hi'⟩ := hlegible s hs i hi
    obtain ⟨hpiece, hcode, htrimmed⟩ := Instruction.readPiece_instruction hread hi' m
    have hline := Source.reads_piece hfront hcode htrimmed
    rw [hpiece] at hline
    simp only [Function.comp_apply, String.toList_append]
    exact hline

/-- The entry and exit blocks have no lines. -/
theorem graphLines_eq (h : g.Shows ss x m) (hlinked : Linked ss) :
    Kernel.graphLines g = (numbered ss).flatMap fun p =>
      Kernel.blockLines (g.blocks.map (·.label)) (m.block (x.block ss p.2 p.1)) p.2 := by
  rw [Kernel.graphLines, zipIdx_sequence h hlinked, List.cons_append, List.flatMap_cons,
    List.flatMap_append, List.flatMap_map]
  exact List.append_nil _

theorem readsLines_graphLines (h : g.Shows ss x m) (hx : x.Proper ss) (hlinked : Linked ss)
    (hclosed : ∀ s ∈ ss, s.Closed) (hlegible : LegibleUnder x ss) :
    Source.ReadsLines (Kernel.graphLines g)
      (written (relabel (x.line (g.blocks.map (·.label))) (x.lineInstruction ss m) ss)) := by
  have hinner : ∀ p ∈ numbered ss, Source.ReadsLines
      (Kernel.blockLines (g.blocks.map (·.label)) (m.block (x.block ss p.2 p.1)) p.2)
      (Segment.statements { p.1 with
        labels := [x.line (g.blocks.map (·.label)) p.2],
        instructions := p.1.instructions.map (x.lineInstruction ss m) }) := by
    intro p hp
    obtain ⟨s, id⟩ := p
    have hs := mem_of_mem_numbered hp
    exact readsLines_block hx hlegible hs (hclosed s hs) _ id
  rw [graphLines_eq h hlinked, written, relabel, List.flatMap_map]
  exact Source.readsLines_flatMap hinner

end FlowGraph

namespace Kernel

open FlowGraph

/-- What is asked of the declarations of a kernel so that they can be read from its listing. -/
structure LegibleDeclarations (k : Kernel) : Prop where
  name : Statement.IsTitle k.name
  parameters : ∀ p ∈ k.parameters, p.IsRead ∧ ',' ∉ p.name.toList
  /-- Something is left of the last name without the parentheses at its end. -/
  last : ∀ p ∈ k.parameters.getLast?, ∃ c ∈ p.name.toList, c ≠ ')'
  storage : ∀ p ∈ k.storage, p.2.IsRead

theorem reads_brace {c : Char} (hc : c = '\x7b' ∨ c = '\x7d') : Source.Reads [c, '\n'] {} := by
  have hread : Source.Reads ([c] ++ ['\n']) (Source.readPiece (trim [c])) := by
    rcases hc with rfl | rfl
    · exact Source.reads_code (isCode_of_forall (by decide))
    · exact Source.reads_code (isCode_of_forall (by decide))
  have hpiece : Source.readPiece (trim [c]) = {} := by
    rcases hc with rfl | rfl
    · exact Source.readPiece_body fun _ _ h => by cases h
    · exact Source.readPiece_body fun _ _ h => by cases h
  rwa [hpiece] at hread

theorem readsLines_banner {banner : Option String}
    (h : ∀ text ∈ banner, ¬ ['*', '/'] <:+: text.toList) :
    Source.ReadsLines (banner.map fun text => "/* " ++ text ++ " */").toList [] := by
  cases banner with
  | none => exact Source.readsLines_nil
  | some text =>
    refine Source.readsLines_singleton ?_
    have hopen : (' ' :: (text.toList ++ [' '])).IsChain Open :=
      List.isChain_cons.2 ⟨fun c _ hclose => absurd hclose.1 (by decide),
        Source.isChain_open_append (by decide) (isChain_open_iff.2 (h text rfl)) List.isChain_nil⟩
    have hread := Source.reads_comment hopen
    simpa using hread

theorem readsLines_header {k : Kernel} (h : k.LegibleDeclarations) :
    Source.ReadsLines [k.header] ((if k.name = "" then [] else [.entry k.name]) ++
      (Statement.clipLast k.parameters).map .parameter) := by
  refine Source.readsLines_singleton ?_
  have hread := Statement.reads_header h.parameters h.last h.name
  have htext : k.header.toList = ".entry".toList ++ ' ' :: (k.name.toList ++ '(' ::
      ([',', ' '].intercalate (k.parameters.map fun p => p.text.toList) ++ [')'])) := by
    simp [header, String.toList_intercalate, Function.comp_def]
  rw [htext]
  exact hread

theorem readsLines_declarations {k : Kernel} (h : k.LegibleDeclarations) :
    Source.ReadsLines k.declarationLines (k.storage.map fun p => Statement.ofVariable p.2) := by
  have hfront : ∀ c ∈ "    ".toList, c = ' ' := by decide
  have hstorage : Source.ReadsLines (k.storage.map fun p => "    " ++ p.2.text)
      (k.storage.map fun p => Statement.ofVariable p.2) := by
    refine Source.readsLines_map fun p hp => ?_
    rw [String.toList_append]
    exact Statement.reads_variable (h.storage p hp) hfront
  have hregisters : Source.ReadsLines (k.registerDeclarations.map fun r => "    " ++ r.text) [] := by
    refine Source.readsLines_silent fun l hl => ?_
    obtain ⟨r, -, rfl⟩ := List.mem_map.1 hl
    rw [String.toList_append]
    exact Statement.reads_register r hfront
  have hlines := Source.readsLines_append hstorage hregisters
  rwa [List.append_nil] at hlines

/-- The kernel with its parameters as they are read from the header. -/
def clipped (k : Kernel) : Kernel := { k with parameters := Statement.clipLast k.parameters }

theorem clipped_eq_self {k : Kernel} (h : ∀ p ∈ k.parameters, ')' ∉ p.name.toList) :
    k.clipped = k := by
  rw [clipped, Statement.clipLast_eq_self h]

/-- A listing is read as the declarations of its kernel and the segments of its graph. -/
theorem read_listing {k : Kernel} {ss : List Segment} {x : Labelling} {m : Numbering}
    (hdeclarations : k.LegibleDeclarations) (h : k.graph.Shows ss x m) (hx : x.Proper ss)
    (hlinked : Linked ss) (hclosed : ∀ s ∈ ss, s.Closed) (hlegible : LegibleUnder x ss)
    {banner : Option String} (hbanner : ∀ text ∈ banner, ¬ ['*', '/'] <:+: text.toList) :
    Source.read (k.listing banner) =
      { statements := k.clipped.listedDeclarations ++
          written (relabel (x.line (k.graph.blocks.map (·.label))) (x.lineInstruction ss m) ss) } := by
  refine Source.read_of_reads ?_
  have hopen : Source.ReadsLines ["\x7b"] [] :=
    Source.readsLines_singleton (reads_brace (.inl rfl))
  have hclose : Source.ReadsLines ["\x7d"] [] :=
    Source.readsLines_singleton (reads_brace (.inr rfl))
  have hgraph := readsLines_graphLines h hx hlinked hclosed hlegible
  have hfront := Source.readsLines_append (readsLines_banner hbanner)
    (Source.readsLines_append (readsLines_header hdeclarations) hopen)
  have hlines := Source.readsLines_append (Source.readsLines_append
    (Source.readsLines_append hfront (readsLines_declarations hdeclarations)) hgraph) hclose
  simp only [List.nil_append, List.append_nil] at hlines
  exact hlines

end Kernel

end KernelListing
