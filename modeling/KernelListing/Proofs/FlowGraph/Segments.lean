import KernelListing.Proofs.FlowGraph.Outline

/-!
# What the segments of an outline hold

`Outline.Sound` says how the segments of an outline hang together: only the last instruction of
a segment transfers control, and whether control falls into a segment is decided by the
instruction in front of it. `instructions_segments` and `labels_outline` say that no
instruction and no label is lost on the way from the statements.
-/

namespace KernelListing

def Statement.instructions (ss : List Statement) : List Instruction :=
  ss.filterMap Statement.instruction?

def Statement.label? : Statement → Option String
  | .label name => some name
  | _ => none

def Statement.labels (ss : List Statement) : List String := ss.filterMap Statement.label?

namespace Statement

theorem instructions_append (ss ss' : List Statement) :
    instructions (ss ++ ss') = instructions ss ++ instructions ss' :=
  List.filterMap_append

theorem labels_append (ss ss' : List Statement) : labels (ss ++ ss') = labels ss ++ labels ss' :=
  List.filterMap_append

@[simp] theorem instructions_label (l : String) : instructions [.label l] = [] := rfl

@[simp] theorem instructions_instruction (i : Instruction) :
    instructions [.instruction i] = [i] := rfl

@[simp] theorem labels_label (l : String) : labels [.label l] = [l] := rfl

@[simp] theorem labels_instruction (i : Instruction) : labels [.instruction i] = [] := rfl

theorem mem_labels {ss : List Statement} {l : String} : l ∈ labels ss ↔ .label l ∈ ss := by
  simp only [labels, List.mem_filterMap]
  constructor
  · rintro ⟨s, hs, hl⟩
    cases s <;> cases hl
    exact hs
  · intro h
    exact ⟨.label l, h, rfl⟩

theorem instructions_of_instruction?_eq_none {s : Statement} (h : s.instruction? = none) :
    instructions [s] = [] := by
  simp [instructions, h]

theorem label?_eq_none {s : Statement} (h : ∀ l, s ≠ .label l) : s.label? = none := by
  cases s with
  | label l => exact absurd rfl (h l)
  | _ => rfl

theorem labels_of_ne_label {s : Statement} (h : ∀ l, s ≠ .label l) : labels [s] = [] := by
  simp [labels, label?_eq_none h]

end Statement

namespace FlowGraph

theorem goesOn_of_plain {i : Instruction} (h : i.opcode.isControlFlow = false) :
    i.goesOn = true := by
  unfold Instruction.goesOn
  split
  · next hop => rw [hop] at h; cases h
  · next hop => rw [hop] at h; cases h
  · next hop => rw [hop] at h; cases h
  · rfl

theorem forall_concat {motive : Nat → List Segment → Segment → Prop} {ss : List Segment}
    {s : Segment} :
    (∀ (k : Nat) (s' : Segment), (ss ++ [s])[k]? = some s' → motive k ((ss ++ [s]).take k) s') ↔
      (∀ (k : Nat) (s' : Segment), ss[k]? = some s' → motive k (ss.take k) s') ∧
        motive ss.length ss s := by
  constructor
  · intro h
    refine ⟨fun k s' hs' => ?_, ?_⟩
    · have hlt := (List.getElem?_eq_some_iff.1 hs').1
      have hk := h k s' (by rw [List.getElem?_append_left hlt, hs'])
      rwa [List.take_append_of_le_length (Nat.le_of_lt hlt)] at hk
    · have hlast := h ss.length s (by simp)
      rwa [List.take_left] at hlast
  · rintro ⟨h, hlast⟩ k s' hs'
    by_cases hlt : k < ss.length
    · rw [List.getElem?_append_left hlt] at hs'
      rw [List.take_append_of_le_length (Nat.le_of_lt hlt)]
      exact h k s' hs'
    · obtain ⟨hk, hs'⟩ := List.getElem?_eq_some_iff.1 hs'
      obtain rfl : k = ss.length := by
        rw [List.length_append, List.length_singleton] at hk
        omega
      rw [List.getElem_concat_length rfl] at hs'
      rwa [List.take_left, ← hs']

/-- The last instruction of the last of some segments. -/
def lastBehind (ss : List Segment) : Option Instruction :=
  ss.getLast?.bind (·.instructions.getLast?)

/-- Control falls into each segment exactly if it goes on behind the one in front. It starts in
front of the first. -/
def Linked (ss : List Segment) : Prop :=
  ∀ k s, ss[k]? = some s → s.entered = (lastBehind (ss.take k)).all (·.goesOn)

theorem linked_concat {ss : List Segment} {s : Segment} :
    Linked (ss ++ [s]) ↔ Linked ss ∧ s.entered = (lastBehind ss).all (·.goesOn) :=
  forall_concat (motive := fun _ front s' => s'.entered = (lastBehind front).all (·.goesOn))

/-- A closed segment is not empty, and control passes through all its instructions but the
last. -/
structure Segment.Closed (s : Segment) : Prop where
  ne_nil : s.instructions ≠ []
  plain : ∀ i ∈ s.instructions.dropLast, i.opcode.isControlFlow = false
  no_call : ∀ i ∈ s.instructions, i.opcode ≠ .call

theorem Segment.Closed.exists_last {s : Segment} (h : s.Closed) :
    ∃ i, s.instructions.getLast? = some i :=
  ⟨_, List.getLast?_eq_some_getLast h.ne_nil⟩

/-- Control passes through an instruction that another one of its segment stands behind. -/
theorem Segment.Closed.plain_of_lt {s : Segment} (h : s.Closed) {m : Nat} {i : Instruction}
    (hi : s.instructions[m]? = some i) (hm : m + 1 < s.instructions.length) :
    i.opcode.isControlFlow = false := by
  refine h.plain i ?_
  rw [List.dropLast_eq_take]
  refine List.mem_of_getElem? (i := m) ?_
  rw [List.getElem?_take_of_lt (Nat.lt_sub_of_add_lt hm), hi]

/-- How the segments of an outline hang together. -/
structure Outline.Sound (o : Outline) : Prop where
  closed : ∀ s ∈ o.closed, s.Closed
  last_plain : ∀ i ∈ o.last.instructions, i.opcode.isControlFlow = false
  linked : Linked o.segments

namespace Outline

theorem mem_concat {ss : List Segment} {s s' : Segment} (h : s' ∈ ss ++ [s]) :
    s' ∈ ss ∨ s' = s := by
  simpa using h

theorem lastBehind_concat (ss : List Segment) (s : Segment) :
    lastBehind (ss ++ [s]) = s.instructions.getLast? := by
  simp [lastBehind]

theorem lastBehind_take {ss : List Segment} {k : Nat} {s : Segment} (hs : ss[k]? = some s) :
    lastBehind (ss.take (k + 1)) = s.instructions.getLast? := by
  rw [List.take_add_one, hs]
  exact lastBehind_concat _ s

theorem no_call_of_plain {i : Instruction} (h : i.opcode.isControlFlow = false) :
    i.opcode ≠ .call := by
  intro hop
  rw [hop] at h
  cases h

/-- The last segment may be closed once it is not empty, even if nothing in it transfers control. -/
theorem Sound.last_closed {o : Outline} (h : o.Sound) (hne : o.last.instructions ≠ []) :
    o.last.Closed :=
  ⟨hne, fun i hi => h.last_plain i (List.dropLast_subset _ hi),
    fun i hi => no_call_of_plain (h.last_plain i hi)⟩

theorem Sound.exists_last {o : Outline} (h : o.Sound) (hne : o.last.instructions ≠ []) :
    ∃ i, o.last.instructions.getLast? = some i ∧ i.opcode.isControlFlow = false := by
  obtain ⟨i, hlast⟩ := (h.last_closed hne).exists_last
  exact ⟨i, hlast, h.last_plain i (List.mem_of_getLast? hlast)⟩

/-- A step keeps the segments of an outline together. -/
theorem Sound.takes {o o' : Outline} {s : Statement} (h : o.Sound) (ht : o.Takes s o') :
    o'.Sound := by
  obtain ⟨hlinked, hlast⟩ := linked_concat.1 h.linked
  cases ht with
  | labelHere hempty hnew =>
    exact ⟨h.closed, h.last_plain, linked_concat.2 ⟨hlinked, hlast⟩⟩
  | labelNext hne hnew hroom =>
    refine ⟨fun s hs => ?_, fun i hi => absurd hi List.not_mem_nil,
      linked_concat.2 ⟨h.linked, ?_⟩⟩
    · rcases mem_concat hs with hs | rfl
      · exact h.closed s hs
      · exact h.last_closed hne
    · -- A label is only reached by falling through, since the segment has not been closed.
      obtain ⟨i, hi, hplain⟩ := h.exists_last hne
      rw [segments, lastBehind_concat, hi]
      exact (goesOn_of_plain hplain).symm
  | plain hplain =>
    refine ⟨h.closed, fun i hi => ?_, linked_concat.2 ⟨hlinked, hlast⟩⟩
    rcases List.mem_append.1 hi with hi | hi
    · exact h.last_plain i hi
    · rw [List.mem_singleton.1 hi]
      exact hplain
  | @transfer i htransfer hcall hexit hroom =>
    refine ⟨fun s hs => ?_, fun i hi => absurd hi List.not_mem_nil,
      linked_concat.2 ⟨linked_concat.2 ⟨hlinked, hlast⟩, ?_⟩⟩
    · rcases mem_concat hs with hs | rfl
      · exact h.closed s hs
      · refine ⟨by simp [push], ?_, fun i' hi' => ?_⟩
        · simpa [push] using h.last_plain
        · rcases List.mem_append.1 hi' with hi' | hi'
          · exact no_call_of_plain (h.last_plain i' hi')
          · rw [List.mem_singleton.1 hi']
            exact hcall
    · rw [segments, lastBehind_concat]
      simp [push]
  | declaration => exact h

theorem sound_empty : Sound {} :=
  ⟨fun _ hs => absurd hs List.not_mem_nil, fun _ hi => absurd hi List.not_mem_nil,
    linked_concat.2 ⟨nofun, rfl⟩⟩

end Outline

theorem outline_sound {ss : List Statement} {o : Outline} (h : outline ss = .ok o) : o.Sound :=
  outline_induction (motive := fun _ o => o.Sound) Outline.sound_empty
    (fun _ _ _ _ _ hs ht => hs.takes ht) h

theorem instructions_segments {ss : List Statement} {o : Outline} (h : outline ss = .ok o) :
    o.segments.flatMap (·.instructions) = Statement.instructions ss := by
  refine outline_induction
    (motive := fun ss o => o.segments.flatMap (·.instructions) = Statement.instructions ss)
    rfl (fun ss s o o' _ ih ht => ?_) h
  rw [Statement.instructions_append, ← ih]
  cases ht with
  | labelHere => simp [Outline.segments, Outline.name]
  | labelNext => simp [Outline.segments]
  | plain => simp [Outline.segments, Outline.push]
  | transfer => simp [Outline.segments, Outline.push]
  | declaration _ hinst =>
    rw [Statement.instructions_of_instruction?_eq_none hinst, List.append_nil]

theorem labels_outline {ss : List Statement} {o : Outline} (h : outline ss = .ok o) :
    o.labels = Statement.labels ss := by
  refine outline_induction (motive := fun ss o => o.labels = Statement.labels ss)
    rfl (fun ss s o o' _ ih ht => ?_) h
  rw [Statement.labels_append, ← ih]
  cases ht with
  | labelHere => simp [Outline.labels, Outline.segments, Outline.name]
  | labelNext => simp [Outline.labels, Outline.segments]
  | plain => simp [Outline.labels, Outline.segments, Outline.push]
  | transfer => simp [Outline.labels, Outline.segments, Outline.push]
  | declaration hlabel => rw [Statement.labels_of_ne_label hlabel, List.append_nil]

end FlowGraph

end KernelListing
