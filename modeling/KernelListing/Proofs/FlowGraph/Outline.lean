import Mathlib.Data.List.Induction
import Mathlib.Data.List.Nodup
import KernelListing.FlowGraph.Draft

/-!
# Outlines

The statements of a kernel cut into segments, without ids, slots or edges: a segment is a run of
instructions that makes a block, together with the labels in front of it and whether control
falls into it. `Outline.step` takes one statement into an outline. It fails where adding the
statement to a draft fails, and with the same error.

`Outline.draft` is the draft that an outline stands for. That adding a statement commutes with
it is in `Proofs.FlowGraph.Simulation`, so that whatever a graph is asked about can be read off
the segments.
-/

namespace KernelListing

/-- Whether control may go on to the instruction behind this one. -/
def Instruction.goesOn (i : Instruction) : Bool :=
  match i.opcode with
  | .bra => ! i.guard.isAlwaysTrue
  | .exit => false
  | .ret => false
  | _ => true

namespace FlowGraph

/-- A run of instructions with the labels in front of it. -/
structure Segment where
  /-- Whether control falls into the segment. -/
  entered : Bool
  labels : List String := []
  instructions : List Instruction := []
  deriving DecidableEq, Repr

namespace Segment

def label (s : Segment) : String := s.labels.getLast?.getD ""

def block (id : BlockId) (s : Segment) : Block :=
  { id, label := s.label, instructions := s.instructions }

/-- The block in front of one that is neither the entry nor the exit block. The entry block
stands in front of the first. -/
def before (id : BlockId) : BlockId := if id = 2 then FlowGraph.entry else id - 1

/-- The block that falls into a segment, if there is one. -/
def pending (id : BlockId) (s : Segment) : Option BlockId :=
  if s.entered then some (before id) else none

/-- The edge along which control falls into a segment. -/
def entering (id : BlockId) (s : Segment) : List Edge :=
  (s.pending id).toList.map fun head => ⟨head, id, .fallThrough⟩

/-- The edge along which a segment leaves the kernel. -/
def leaving (id : BlockId) (s : Segment) : List Edge :=
  match s.instructions.getLast? with
  | none => []
  | some i =>
    match i.opcode with
    | .exit => [⟨id, FlowGraph.exit, .fallThrough⟩]
    | .ret => [⟨id, FlowGraph.exit, .branch⟩]
    | _ => []

/-- The edges of a segment that are known when it is closed. -/
def edges (id : BlockId) (s : Segment) : List Edge := s.entering id ++ s.leaving id

/-- The branch that ends a segment. -/
def openBranch? (id : BlockId) (s : Segment) : Option OpenBranch :=
  (s.instructions.getLast?.filter (·.opcode = .bra)).map fun i =>
    { origin := id, target := i.d.name, dead := i.guard.isAlwaysFalse }

/-- Whether a segment ends with `exit`. -/
def exits (s : Segment) : Bool := s.instructions.getLast?.any (·.opcode = .exit)

def names (id : BlockId) (s : Segment) : List (String × BlockId) := s.labels.map (·, id)

end Segment

/-- The segments with the ids of their blocks, which count from two. -/
def numbered (ss : List Segment) : List (Segment × BlockId) := ss.zipIdx 2

@[simp] theorem numbered_nil : numbered [] = [] := rfl

theorem numbered_concat (ss : List Segment) (s : Segment) :
    numbered (ss ++ [s]) = numbered ss ++ [(s, ss.length + 2)] := by
  rw [numbered, List.zipIdx_append, Nat.add_comm]
  rfl

theorem mem_numbered {ss : List Segment} {s : Segment} {id : BlockId} :
    (s, id) ∈ numbered ss ↔ 2 ≤ id ∧ ss[id - 2]? = some s :=
  List.mk_mem_zipIdx_iff_le_and_getElem?_sub

theorem mem_of_mem_numbered {ss : List Segment} {p : Segment × BlockId} (h : p ∈ numbered ss) :
    p.1 ∈ ss :=
  List.mem_of_getElem? (mem_numbered.1 h).2

theorem forall_mem_numbered {P : Segment × BlockId → Prop} {ss : List Segment} :
    (∀ p ∈ numbered ss, P p) ↔ ∀ (k : Nat) (s : Segment), ss[k]? = some s → P (s, k + 2) := by
  constructor
  · exact fun h k s hs => h (s, k + 2) (mem_numbered.2 ⟨Nat.le_add_left 2 k, hs⟩)
  · rintro h ⟨s, id⟩ hp
    obtain ⟨hid, hs⟩ := mem_numbered.1 hp
    have hP := h (id - 2) s hs
    rwa [Nat.sub_add_cancel hid] at hP

def slotsOf (ss : List Segment) : List (Option Block) :=
  FlowGraph.empty.slots ++ (numbered ss).map fun (s, id) => some (s.block id)

/-- The edges of some segments, apart from those of branches. -/
def edgesOf (ss : List Segment) : List Edge := (numbered ss).flatMap fun (s, id) => s.edges id

/-- The names of some segments, the last one first. -/
def namesOf (ss : List Segment) : List (String × BlockId) :=
  ((numbered ss).flatMap fun (s, id) => s.names id).reverse

/-- The branches that some segments end with. -/
def branchesOf (ss : List Segment) : List OpenBranch :=
  (numbered ss).filterMap fun (s, id) => s.openBranch? id

namespace Segment

variable {s : Segment} {id : BlockId} {e : Edge}

theorem mem_entering :
    e ∈ s.entering id ↔ s.entered = true ∧ e = ⟨before id, id, .fallThrough⟩ := by
  cases hentered : s.entered <;> simp [entering, pending, hentered]

theorem mem_leaving : e ∈ s.leaving id ↔ ∃ i, s.instructions.getLast? = some i ∧
    (i.opcode = .exit ∧ e = ⟨id, FlowGraph.exit, .fallThrough⟩ ∨
      i.opcode = .ret ∧ e = ⟨id, FlowGraph.exit, .branch⟩) := by
  unfold leaving
  cases s.instructions.getLast? with
  | none => simp
  | some i =>
    simp only [Option.some.injEq, exists_eq_left']
    split
    · next hop => simp [hop]
    · next hop => simp [hop]
    · next hexit hret => simpa using ⟨fun h => (hexit h).elim, fun h => (hret h).elim⟩

theorem before_eq_iff {k k' : Nat} : before (k' + 2) = k + 2 ↔ k' = k + 1 := by
  cases k' with
  | zero => simp [before, FlowGraph.entry]
  | succ k' => simp [before]

theorem before_lt {id : Nat} (h : 2 ≤ id) : before id < id := by
  unfold before FlowGraph.entry
  split
  · exact Nat.lt_of_lt_of_le Nat.zero_lt_two h
  · exact Nat.sub_lt (Nat.lt_of_lt_of_le Nat.zero_lt_two h) Nat.one_pos

end Segment

theorem mem_edgesOf {ss : List Segment} {e : Edge} :
    e ∈ edgesOf ss ↔ ∃ (k : Nat) (s : Segment), ss[k]? = some s ∧
      (e ∈ s.entering (k + 2) ∨ e ∈ s.leaving (k + 2)) := by
  simp only [edgesOf, List.mem_flatMap, Prod.exists, mem_numbered, Segment.edges, List.mem_append]
  constructor
  · rintro ⟨s, id, ⟨hid, hs⟩, he⟩
    rw [← Nat.sub_add_cancel hid] at he
    exact ⟨id - 2, s, hs, he⟩
  · rintro ⟨k, s, hs, he⟩
    exact ⟨s, k + 2, ⟨Nat.le_add_left 2 k, hs⟩, he⟩

theorem lt_of_mem_edgesOf {ss : List Segment} {e : Edge} (h : e ∈ edgesOf ss) :
    e.head < ss.length + 2 ∧ e.tail < ss.length + 2 := by
  obtain ⟨k, s, hs, he⟩ := mem_edgesOf.1 h
  have hk : k + 2 < ss.length + 2 := Nat.add_lt_add_right (List.getElem?_eq_some_iff.1 hs).1 2
  have hexit : FlowGraph.exit < ss.length + 2 := Nat.lt_add_left _ Nat.one_lt_two
  rcases he with he | he
  · obtain ⟨-, rfl⟩ := Segment.mem_entering.1 he
    exact ⟨Nat.lt_trans (Segment.before_lt (Nat.le_add_left 2 k)) hk, hk⟩
  · obtain ⟨i, -, ⟨-, rfl⟩ | ⟨-, rfl⟩⟩ := Segment.mem_leaving.1 he
    · exact ⟨hk, hexit⟩
    · exact ⟨hk, hexit⟩

/-- The segments of some statements: those that have been closed and the one at the end. -/
structure Outline where
  closed : List Segment := []
  last : Segment := { entered := true }
  deriving DecidableEq, Repr

namespace Outline

def segments (o : Outline) : List Segment := o.closed ++ [o.last]

def current (o : Outline) : BlockId := o.closed.length + 2

def labels (o : Outline) : List String := o.segments.flatMap (·.labels)

/-- Closes the last segment and opens one that control falls into or not. This takes an id. -/
def close (o : Outline) (entered : Bool) : Except BuildError Outline :=
  if o.current + 1 < idLimit then .ok { closed := o.segments, last := { entered } }
  else .error (.fault .idsExhausted)

def closeForLabel (o : Outline) : Except BuildError Outline :=
  if o.last.instructions.isEmpty then .ok o else o.close true

def name (o : Outline) (label : String) : Outline :=
  { o with last := { o.last with labels := o.last.labels ++ [label] } }

def push (o : Outline) (i : Instruction) : Outline :=
  { o with last := { o.last with instructions := o.last.instructions ++ [i] } }

def stepLabel (o : Outline) (label : String) (statement : Nat) : Except BuildError Outline := do
  let o ← o.closeForLabel
  if label ∈ o.labels then throw (.duplicateLabel label statement) else return o.name label

/-- Takes an instruction, which closes the segment where it transfers control. -/
def stepInstruction (o : Outline) (i : Instruction) (statement : Nat) :
    Except BuildError Outline :=
  if i.opcode = .call then .error (.unsupportedControlFlow i.opcode statement)
  else if i.opcode = .exit ∧ o.closed.any Segment.exits then .error (.duplicateExit statement)
  else if i.opcode.isControlFlow then (o.push i).close i.goesOn
  else .ok (o.push i)

def step (o : Outline) : Statement × Nat → Except BuildError Outline
  | (.label label, statement) => o.stepLabel label statement
  | (.instruction i, statement) => o.stepInstruction i statement
  | _ => .ok o

def draft (o : Outline) : Draft where
  graph := { slots := slotsOf o.segments, edges := edgesOf o.closed, issued := o.current + 1 }
  current := o.current
  pending := o.last.pending o.current
  labels := namesOf o.segments
  branches := branchesOf o.closed
  exitSeen := o.closed.any Segment.exits

end Outline

def outline (statements : List Statement) : Except BuildError Outline :=
  statements.zipIdx.foldlM Outline.step {}

/-! ## Steps that succeed -/

/-- What a statement can do to an outline, with everything it takes for that. -/
inductive Outline.Takes (o : Outline) : Statement → Outline → Prop where
  /-- A label in front of the next instruction of an empty segment. -/
  | labelHere {label : String} (hempty : o.last.instructions = []) (hnew : label ∉ o.labels) :
    Takes o (.label label) (o.name label)
  /-- A label that closes a segment. -/
  | labelNext {label : String} (hne : o.last.instructions ≠ []) (hnew : label ∉ o.labels)
    (hroom : o.current + 1 < idLimit) :
    Takes o (.label label) { closed := o.segments, last := { entered := true, labels := [label] } }
  /-- An instruction that control passes through. -/
  | plain {i : Instruction} (hplain : i.opcode.isControlFlow = false) :
    Takes o (.instruction i) (o.push i)
  /-- An instruction that transfers control. -/
  | transfer {i : Instruction} (htransfer : i.opcode.isControlFlow = true)
    (hcall : i.opcode ≠ .call) (hexit : i.opcode = .exit → o.closed.any Segment.exits = false)
    (hroom : o.current + 1 < idLimit) :
    Takes o (.instruction i) { closed := (o.push i).segments, last := { entered := i.goesOn } }
  /-- A declaration. -/
  | declaration {s : Statement} (hlabel : ∀ l, s ≠ .label l) (hinst : s.instruction? = none) :
    Takes o s o

namespace Outline

theorem close_eq_ok {o o' : Outline} {entered : Bool} (h : o.close entered = .ok o') :
    o.current + 1 < idLimit ∧ o' = { closed := o.segments, last := { entered } } := by
  unfold close at h
  split at h
  · next hroom => exact ⟨hroom, (Except.ok.inj h).symm⟩
  · cases h

theorem labels_close (o : Outline) (entered : Bool) :
    labels { closed := o.segments, last := { entered } } = o.labels := by
  simp [labels, segments]

/-- A step that succeeds is one of the five. -/
theorem takes_of_step {o o' : Outline} {s : Statement} {n : Nat} (h : o.step (s, n) = .ok o') :
    o.Takes s o' := by
  cases s with
  | label label =>
    simp only [step, stepLabel, closeForLabel] at h
    by_cases hempty : o.last.instructions = []
    · simp only [hempty, List.isEmpty_nil, if_true] at h
      by_cases hnew : label ∈ o.labels
      · simp [bind, Except.bind, hnew] at h
      · simp only [bind, Except.bind, hnew, if_false] at h
        cases h
        exact .labelHere hempty hnew
    · simp only [List.isEmpty_iff, hempty, if_false] at h
      cases hclose : o.close true with
      | error e => simp [hclose, bind, Except.bind] at h
      | ok o₁ =>
        obtain ⟨hroom, rfl⟩ := close_eq_ok hclose
        simp only [hclose, bind, Except.bind, labels_close] at h
        by_cases hnew : label ∈ o.labels
        · simp [hnew] at h
        · simp only [hnew, if_false] at h
          cases h
          exact .labelNext hempty hnew hroom
  | instruction i =>
    simp only [step, stepInstruction] at h
    split at h
    · cases h
    · next hcall =>
      split at h
      · cases h
      · next hexit =>
        split at h
        · next htransfer =>
          obtain ⟨hroom, rfl⟩ := close_eq_ok h
          refine .transfer htransfer hcall (fun hop => ?_) hroom
          simpa [hop] using hexit
        · next hplain =>
          cases h
          exact .plain (by simpa using hplain)
  | parameter p => cases h; exact .declaration nofun rfl
  | localVariable v => cases h; exact .declaration nofun rfl
  | sharedVariable v => cases h; exact .declaration nofun rfl
  | entry name => cases h; exact .declaration nofun rfl

end Outline

theorem outline_concat (ss : List Statement) (s : Statement) :
    outline (ss ++ [s]) = outline ss >>= fun o => o.step (s, ss.length) := by
  rw [outline, List.zipIdx_append, List.foldlM_append, outline]
  simp only [List.zipIdx_cons, List.zipIdx_nil, List.foldlM_cons, List.foldlM_nil, Nat.zero_add,
    bind_pure]

/-- What holds of no statements at all and is kept by each one holds of every outline. -/
theorem outline_induction {motive : List Statement → Outline → Prop} (start : motive [] {})
    (step : ∀ ss s o o', outline ss = .ok o → motive ss o → o.Takes s o' → motive (ss ++ [s]) o')
    {ss : List Statement} {o : Outline} (h : outline ss = .ok o) : motive ss o := by
  -- From the end, as the scan takes the last statement behind the outline of all those in front.
  induction ss using List.reverseRecOn generalizing o with
  | nil => cases h; exact start
  | append_singleton ss s ih =>
    rw [outline_concat] at h
    cases hss : outline ss with
    | error e =>
      rw [hss] at h
      cases h
    | ok o₁ =>
      rw [hss] at h
      exact step ss s o₁ o hss (ih hss) (Outline.takes_of_step h)

end FlowGraph

end KernelListing
