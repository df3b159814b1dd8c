import Mathlib.Data.List.Infix
import KernelListing.Proofs.Register.Assignment
import KernelListing.Proofs.Register.NumberTable

/-!
# Number tables are bijections

However often a table is used, it stays a bijection between the names that it has met and the
numbers below its size, and the pairs that it holds stay what they are (`isBijection_assignAll`).
What carries this is that its two lists are linked: they are in the beginning, and each name that
any walk meets leaves them linked (`Follows`), so the bijection can be read off at the end.
-/

namespace KernelListing.NumberTable

/-- Numbers the registers of some graphs, one graph after another. -/
def assignAll? (t : NumberTable) (gs : List FlowGraph) : Option (List FlowGraph × NumberTable) :=
  gs.mapM (m := StateT NumberTable Option) (fun g t => t.assign? g) t

/-- Names and numbers stand for each other, and the list shows how. -/
structure IsBijection (t : NumberTable) : Prop where
  get?_iff : ∀ name number, t.get? name = some number ↔ t.name? number = some name
  inUse_iff : ∀ position,
    (∃ name number, t.get? name = some number ∧ number.toNat = position) ↔ position < t.size
  ne_empty : "" ∉ t.names
  nodup : t.names.Nodup
  ordered : t.toList.map (·.2.toNat) = List.range t.size
  mem_toList : ∀ name number, (name, number) ∈ t.toList ↔ t.get? name = some number

variable {t t' : NumberTable}

namespace Linked

theorem inUse_iff (h : t.Linked) (position : Nat) :
    (∃ name number, t.get? name = some number ∧ number.toNat = position) ↔ position < t.size := by
  constructor
  · rintro ⟨name, number, hget, rfl⟩
    exact (List.getElem?_eq_some_iff.1 ((h.get?_iff name number).1 hget)).1
  · intro hlt
    have hname := h.name?_of_getElem? (List.getElem?_eq_getElem hlt)
    exact ⟨_, _, (h.get?_iff _ _).2 hname, toNat_ofNat (hlt.le.trans h.size_le)⟩

theorem ordered (h : t.Linked) : t.toList.map (·.2.toNat) = List.range t.size := by
  have hpositions : ∀ entry ∈ t.names.zipIdx, (UInt32.ofNat entry.2).toNat = entry.2 :=
    fun entry hentry => toNat_ofNat ((List.snd_lt_of_mem_zipIdx hentry).le.trans h.size_le)
  rw [toList, List.map_map, size, List.range_eq_range', ← List.zipIdx_map_snd]
  exact List.map_congr_left hpositions

theorem mem_toList (h : t.Linked) (name : String) (number : UInt32) :
    (name, number) ∈ t.toList ↔ t.get? name = some number := by
  rw [h.get?_iff, toList, List.mem_map]
  constructor
  · rintro ⟨⟨other, position⟩, hentry, heq⟩
    obtain ⟨rfl, rfl⟩ := Prod.mk.inj heq
    exact h.name?_of_getElem? (List.mem_zipIdx_iff_getElem?.1 hentry)
  · intro hname
    exact ⟨(name, number.toNat), List.mem_zipIdx_iff_getElem?.2 hname,
      Prod.ext rfl UInt32.ofNat_toNat⟩

theorem isBijection (h : t.Linked) : t.IsBijection where
  get?_iff := h.get?_iff
  inUse_iff := h.inUse_iff
  ne_empty := h.ne_empty
  nodup := h.nodup
  ordered := h.ordered
  mem_toList := h.mem_toList

/-- A table with more names holds the pairs that were there. -/
theorem get?_of_prefix (h : t.Linked) (h' : t'.Linked) (hnames : t.names <+: t'.names)
    {name : String} {number : UInt32} (hget : t.get? name = some number) :
    t'.get? name = some number := by
  obtain ⟨hlt, hname⟩ := List.getElem?_eq_some_iff.1 ((h.get?_iff name number).1 hget)
  rw [h'.get?_iff, name?, List.getElem?_eq_some_iff]
  exact ⟨hlt.trans_le hnames.length_le, (hnames.getElem hlt).symm.trans hname⟩

end Linked

theorem toList_prefix (hnames : t.names <+: t'.names) : t.toList <+: t'.toList := by
  obtain ⟨rest, hrest⟩ := hnames
  rw [toList, toList, ← hrest, List.zipIdx_append, List.map_append]
  exact List.prefix_append ..

/-! ## Runs -/

theorem follows_assignAll? (gs : List FlowGraph) :
    Follows (fun t => t.assignAll? gs) (gs.mapM (FlowGraph.numberRegisters Numbering.allocate)) :=
  Follows.mapM (f := fun g t => t.assign? g) follows_numberGraph gs

/-- A run that succeeds leaves a table that is linked and has the names that were there. -/
theorem Linked.assignAll? (h : t.Linked) {gs gs' : List FlowGraph}
    (hrun : t.assignAll? gs = some (gs', t')) : t'.Linked ∧ t.names <+: t'.names := by
  have hfollows := follows_assignAll? gs
  rcases Nat.lt_or_ge capacity
    (gs.mapM (FlowGraph.numberRegisters Numbering.allocate) t.numbering).2.size with hfull | hfits
  · rw [hfollows.full t h hfull] at hrun
    cases hrun
  · obtain ⟨t'', hrun', ht'', hnumbering⟩ := hfollows.fits t h hfits
    obtain ⟨-, rfl⟩ := Prod.mk.inj (Option.some.inj (hrun'.symm.trans hrun))
    refine ⟨ht'', ?_⟩
    have hgrows := hfollows.grows t.numbering
    rw [← hnumbering] at hgrows
    exact hgrows

/-- The names that a run meets, each where it is met first. -/
theorem names_assignAll (gs : List FlowGraph) :
    (gs.mapM (FlowGraph.numberRegisters Numbering.allocate) {}).2.names =
      (gs.flatMap FlowGraph.registerNames).eraseDups := by
  rw [Numbering.numberGraph_numbers.mapM gs {} _ (List.prefix_refl _), Numbering.names_note]
  simp

/-- A table that was empty fails on graphs that have more names than there are numbers. -/
theorem assignAll?_eq_none {gs : List FlowGraph}
    (hfull : capacity < (gs.flatMap FlowGraph.registerNames).eraseDups.length) :
    assignAll? {} gs = none := by
  rw [← names_assignAll] at hfull
  exact (follows_assignAll? gs).full {} Linked.empty hfull

/-- A table that was empty numbers any graphs that have no more names than there are numbers. After
the last call it is a bijection between the names that have been met, in the order in which they
were, and the numbers below its size. What it holds then it holds after all further calls. -/
theorem isBijection_assignAll (gs : List FlowGraph)
    (hroom : (gs.flatMap FlowGraph.registerNames).eraseDups.length ≤ capacity) :
    ∃ gs' t, assignAll? {} gs = some (gs', t) ∧ t.IsBijection ∧
      t.names = (gs.flatMap FlowGraph.registerNames).eraseDups ∧
      ∀ more more' t', t.assignAll? more = some (more', t') →
        t'.IsBijection ∧ t.toList <+: t'.toList ∧
          ∀ name number, t.get? name = some number → t'.get? name = some number := by
  rw [← names_assignAll] at hroom
  obtain ⟨t, hrun, hlinked, hnumbering⟩ := (follows_assignAll? gs).fits {} Linked.empty hroom
  refine ⟨_, t, hrun, hlinked.isBijection, ?_, fun more more' t' hmore => ?_⟩
  · exact (congrArg Numbering.names hnumbering).trans (names_assignAll gs)
  · obtain ⟨hlinked', hgrows⟩ := hlinked.assignAll? hmore
    exact ⟨hlinked'.isBijection, toList_prefix hgrows,
      fun name number => hlinked.get?_of_prefix hlinked' hgrows⟩

/-- A graph with a single block. -/
def ofInstructions (is : List Instruction) : FlowGraph where
  slots := [some { id := 0, instructions := is }]
  edges := []
  issued := 1

/-- Two graphs that share a name: one meets it first as a destination, the other in a vector. -/
def sharing : List FlowGraph := [
  ofInstructions [
    { opcode := .neg, d := .register "x" .s32, a := .register "y" .s32 },
    { opcode := .bra, d := .label "top", guard := .predicate "p" }],
  ofInstructions [
    { opcode := .mov, a := .indirect "x" 4 .u32,
      d := { mode := .register, elements := [.register "z" .u32, .register "y" .u32] } }]]

theorem isBijection_assignAll_sharing :
    ∃ gs t, assignAll? {} sharing = some (gs, t) ∧ t.IsBijection ∧
      t.names = ["x", "y", "p", "z"] ∧ t.get? "z" = some 3 := by
  obtain ⟨gs, t, hrun, hbijection, hnames, -⟩ := isBijection_assignAll sharing (by decide)
  have hfour : t.names = ["x", "y", "p", "z"] := hnames.trans (by decide)
  refine ⟨gs, t, hrun, hbijection, hfour, ?_⟩
  rw [hbijection.get?_iff, name?, hfour]
  rfl

end KernelListing.NumberTable
