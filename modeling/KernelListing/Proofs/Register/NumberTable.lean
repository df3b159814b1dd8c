import Mathlib.Data.List.Nodup
import KernelListing.Proofs.Register.Numbering
import KernelListing.Register.NumberTable

/-!
# Tables number like numberings

The two lists of a number table stay linked: a number stands for a name in one exactly if the name
stands for it in the other (`Linked`). So a walk that takes its numbers from a table does what the
walk with a numbering does, as long as the table has room for the names that are met, and fails
otherwise (`Follows`). This is shown of a single name (`follows_numberOf?`) and passed up through
the walk to graphs (`Linked.assign?`).
-/

namespace KernelListing.NumberTable

/-! ## The two lists -/

/-- The two lists of a table say the same, of no more names than there is room for. -/
structure Linked (t : NumberTable) : Prop where
  get?_iff : ∀ name number, t.get? name = some number ↔ t.name? number = some name
  size_le : t.size ≤ capacity
  ne_empty : "" ∉ t.names

theorem get?_enter (t : NumberTable) (name other : String) (number : UInt32) :
    (t.enter name number).get? other = if other = name then some number else t.get? other := by
  rw [get?, enter, List.lookup_cons]
  by_cases h : other = name
  · rw [if_pos h, beq_iff_eq.2 h]
  · rw [if_neg h, beq_eq_false_iff_ne.2 h, get?]

theorem size_enter (t : NumberTable) (name : String) (number : UInt32) :
    (t.enter name number).size = t.size + 1 := List.length_append

/-- A position up to the last number is not cut off by the word that stands for it. -/
theorem toNat_ofNat {position : Nat} (h : position ≤ capacity) :
    (UInt32.ofNat position).toNat = position :=
  UInt32.toNat_ofNat_of_lt' (Nat.lt_of_le_of_lt h (by decide))

theorem name?_ofNat (t : NumberTable) {position : Nat} (h : position ≤ capacity) :
    t.name? (.ofNat position) = t.names[position]? := by
  rw [name?, toNat_ofNat h]

theorem name?_enter {t : NumberTable} (h : t.size ≤ capacity) (name : String) (number : UInt32) :
    (t.enter name (.ofNat t.size)).name? number =
      if number = .ofNat t.size then some name else t.name? number := by
  by_cases heq : number = .ofNat t.size
  · rw [if_pos heq, heq, name?_ofNat _ h]
    exact List.getElem?_concat_length
  · have hne : number.toNat ≠ t.names.length := fun hnat =>
      heq (by rw [← UInt32.toNat_inj, toNat_ofNat h, hnat, size])
    rw [if_neg heq, name?, name?, enter, List.getElem?_append]
    split
    · rfl
    · next hlt =>
      have hpast : t.names.length < number.toNat :=
        Nat.lt_of_le_of_ne (Nat.le_of_not_lt hlt) hne.symm
      rw [List.getElem?_eq_none (Nat.le_of_lt hpast)]
      exact List.getElem?_eq_none (Nat.sub_pos_of_lt hpast)

namespace Linked

variable {t : NumberTable}

theorem empty : Linked {} := ⟨by simp [get?, name?], Nat.zero_le _, List.not_mem_nil⟩

/-- Entering a name into both lists leaves them linked. -/
theorem enter (h : t.Linked) {name : String} (hname : name ≠ "") (hnew : t.get? name = none)
    (hroom : t.size < capacity) : (t.enter name (.ofNat t.size)).Linked := by
  have hlast : t.name? (.ofNat t.size) = none := by
    rw [t.name?_ofNat h.size_le]
    exact List.getElem?_eq_none (Nat.le_refl _)
  constructor
  · intro other number
    rw [get?_enter, name?_enter h.size_le]
    by_cases hother : other = name <;> by_cases hnumber : number = .ofNat t.size
    · simp [hother, hnumber]
    · have hfree : t.name? number ≠ some name := fun hmem => by
        rw [(h.get?_iff name number).2 hmem] at hnew
        cases hnew
      simp [hother, hnumber, hfree, Ne.symm hnumber]
    · have hunused : t.get? other ≠ some (.ofNat t.size) := fun hmem => by
        rw [(h.get?_iff other _).1 hmem] at hlast
        cases hlast
      simp [hother, hnumber, hunused, Ne.symm hother]
    · rw [if_neg hother, if_neg hnumber, h.get?_iff]
  · rw [size_enter]
    exact hroom
  · intro hmem
    rcases List.mem_append.1 hmem with hmem | hmem
    · exact h.ne_empty hmem
    · exact hname (List.mem_singleton.1 hmem).symm

theorem name?_of_getElem? (h : t.Linked) {name : String} {position : Nat}
    (hname : t.names[position]? = some name) : t.name? (.ofNat position) = some name := by
  have hlt : position < t.size := (List.getElem?_eq_some_iff.1 hname).1
  rw [t.name?_ofNat (hlt.le.trans h.size_le), hname]

theorem nodup (h : t.Linked) : t.names.Nodup := by
  rw [List.nodup_iff_getElem?_ne_getElem?]
  intro i j hij hj heq
  -- One name has one number, so both positions are that number.
  have hname : t.names[j]? = some t.names[j] := List.getElem?_eq_getElem hj
  have hi := (h.get?_iff _ _).2 (h.name?_of_getElem? (heq.trans hname))
  have hj' := (h.get?_iff _ _).2 (h.name?_of_getElem? hname)
  have hwords : UInt32.ofNat i = .ofNat j := Option.some.inj (hi.symm.trans hj')
  have hle : j ≤ capacity := (Nat.le_of_lt hj).trans h.size_le
  have hnat : i = j := by
    rw [← toNat_ofNat hle, ← hwords, toNat_ofNat (hij.le.trans hle)]
  exact Nat.ne_of_lt hij hnat

/-- Looking a name up finds what searching the names for it would. -/
theorem get?_numbering (h : t.Linked) (name : String) :
    t.numbering.get? name = (t.get? name).map UInt32.toNat := by
  cases hget : t.get? name with
  | some number =>
    exact (Numbering.get?_eq_some_iff h.nodup).2 ((h.get?_iff name number).1 hget)
  | none =>
    rw [Numbering.get?, List.idxOf?_eq_none_iff.2]
    · rfl
    · intro hmem
      obtain ⟨position, hposition⟩ := List.mem_iff_getElem?.1 hmem
      rw [(h.get?_iff name _).2 (h.name?_of_getElem? hposition)] at hget
      cases hget

/-- Meeting a name in the numbering of a table. -/
theorem allocate_numbering (h : t.Linked) (name : String) :
    Numbering.allocate name t.numbering = match t.get? name with
      | some number => (number.toNat, t.numbering)
      | none => (t.size, (t.enter name (.ofNat t.size)).numbering) := by
  rw [Numbering.allocate, h.get?_numbering]
  cases t.get? name <;> rfl

end Linked

/-! ## Walks -/

/-- A walk with a table does what a walk with a numbering does, as long as the table has room for
all names that are met. -/
structure Follows {α : Type} (x : StateT NumberTable Option α) (y : StateM Numbering α) :
    Prop where
  grows : ∀ m, m.names <+: (y m).2.names
  fits : ∀ t : NumberTable, t.Linked → (y t.numbering).2.size ≤ capacity →
    ∃ t', x t = some ((y t.numbering).1, t') ∧ t'.Linked ∧ t'.numbering = (y t.numbering).2
  full : ∀ t : NumberTable, t.Linked → capacity < (y t.numbering).2.size → x t = none

theorem follows_pure {α : Type} (a : α) : Follows (pure a) (pure a) where
  grows _ := List.prefix_refl _
  fits t h _ := ⟨t, rfl, h, rfl⟩
  full _ h hfull := absurd h.size_le (Nat.not_le_of_lt hfull)

/-- The second of two walks begins with the numbering that the first leaves. -/
theorem bind_numbering {α β : Type} {y : StateM Numbering α} (g : α → StateM Numbering β)
    {t t' : NumberTable} (h : t'.numbering = (y t.numbering).2) :
    (y >>= g) t.numbering = g (y t.numbering).1 t'.numbering := by
  rw [h]
  rfl

theorem Follows.bind {α β : Type} {x : StateT NumberTable Option α} {y : StateM Numbering α}
    {f : α → StateT NumberTable Option β} {g : α → StateM Numbering β} (hx : Follows x y)
    (hf : ∀ a, Follows (f a) (g a)) : Follows (x >>= f) (y >>= g) where
  grows m := (hx.grows m).trans ((hf _).grows _)
  fits t h hfits := by
    -- What the second walk meets comes behind, so there is room for what the first one meets.
    have hgrows := ((hf (y t.numbering).1).grows (y t.numbering).2).length_le
    obtain ⟨t', hxt, ht', hm⟩ := hx.fits t h (hgrows.trans hfits)
    rw [bind_numbering g hm] at hfits ⊢
    obtain ⟨t'', hft, ht''⟩ := (hf _).fits t' ht' hfits
    refine ⟨t'', ?_, ht''⟩
    show (x t).bind _ = _
    rw [hxt]
    exact hft
  full t h hfull := by
    show (x t).bind _ = none
    rcases Nat.lt_or_ge capacity (y t.numbering).2.size with hfirst | hfirst
    · rw [hx.full t h hfirst]
      rfl
    · obtain ⟨t', hxt, ht', hm⟩ := hx.fits t h hfirst
      rw [bind_numbering g hm] at hfull
      rw [hxt]
      exact (hf _).full t' ht' hfull

theorem Follows.map {α β : Type} {x : StateT NumberTable Option α} {y : StateM Numbering α}
    (hx : Follows x y) (f : α → β) : Follows (f <$> x) (f <$> y) := by
  rw [map_eq_pure_bind, map_eq_pure_bind]
  exact hx.bind fun a => follows_pure (f a)

theorem Follows.mapM {α β : Type} {f : α → StateT NumberTable Option β}
    {g : α → StateM Numbering β} (h : ∀ a, Follows (f a) (g a)) (as : List α) :
    Follows (as.mapM f) (as.mapM g) := by
  induction as with
  | nil => exact follows_pure []
  | cons a as ih =>
    rw [List.mapM_cons, List.mapM_cons]
    exact (h a).bind fun b => ih.bind fun bs => follows_pure (b :: bs)

theorem Follows.foldlM {α β : Type} {f : β → α → StateT NumberTable Option β}
    {g : β → α → StateM Numbering β} (h : ∀ b a, Follows (f b a) (g b a)) (as : List α) (b : β) :
    Follows (as.foldlM f b) (as.foldlM g b) := by
  induction as generalizing b with
  | nil => exact follows_pure b
  | cons a as ih =>
    rw [List.foldlM_cons, List.foldlM_cons]
    exact (h b a).bind fun b' => ih b'

theorem numberOf?_eq (name : String) (t : NumberTable) :
    numberOf? name t = match t.get? name with
      | some number => some (number.toNat, t)
      | none =>
        if t.size < capacity then
          some ((UInt32.ofNat t.size).toNat, t.enter name (.ofNat t.size))
        else none := by
  show (allocate? name t).bind _ = _
  unfold allocate?
  cases t.get? name with
  | some number => rfl
  | none => by_cases hroom : t.size < capacity <;> simp only [hroom, if_true, if_false] <;> rfl

/-- A name gets the same number from a table as from its numbering. -/
theorem follows_numberOf? {name : String} (hname : name ≠ "") :
    Follows (numberOf? name) (Numbering.allocate name) where
  grows m := by
    rw [Numbering.allocate_eq]
    exact m.prefix_note_singleton name
  fits t h hfits := by
    rw [h.allocate_numbering] at hfits ⊢
    rw [numberOf?_eq]
    cases hget : t.get? name with
    | some number => exact ⟨t, rfl, h, rfl⟩
    | none =>
      rw [hget] at hfits
      have hroom : t.size < capacity := (t.size_enter name (.ofNat t.size)).ge.trans hfits
      refine ⟨t.enter name (.ofNat t.size), ?_, h.enter hname hget hroom, rfl⟩
      show (if _ then _ else _) = _
      rw [if_pos hroom, toNat_ofNat h.size_le]
  full t h hfull := by
    rw [h.allocate_numbering] at hfull
    rw [numberOf?_eq]
    cases hget : t.get? name with
    | some number =>
      rw [hget] at hfull
      exact absurd h.size_le (Nat.not_le_of_lt hfull)
    | none =>
      rw [hget] at hfull
      have hmore : capacity < t.size + 1 :=
        hfull.trans_eq (t.size_enter name (.ofNat t.size))
      exact if_neg (Nat.not_lt_of_le (Nat.le_of_lt_succ hmore))

/-! ## The walk over a graph -/

theorem follows_numberScalar (op : Operand) :
    Follows (op.numberScalar numberOf?) (op.numberScalar Numbering.allocate) := by
  unfold Operand.numberScalar
  split
  · exact follows_pure op
  · next hname =>
    exact (follows_numberOf? (by simpa using hname)).bind fun _ => follows_pure _

theorem follows_numberOperand (op : Operand) :
    Follows (op.numberRegisters numberOf?) (op.numberRegisters Numbering.allocate) := by
  unfold Operand.numberRegisters
  split
  · exact follows_pure op
  · split
    · exact follows_numberScalar op
    · exact (Follows.mapM follows_numberScalar op.elements).bind fun _ => follows_pure _

theorem follows_numberInstruction (i : Instruction) :
    Follows (i.numberRegisters numberOf?) (i.numberRegisters Numbering.allocate) := by
  unfold Instruction.numberRegisters Instruction.numberSlots
  exact Follows.foldlM (fun i s => (follows_numberOperand (i.operand s)).map (i.setOperand s)) _ i

theorem follows_numberBlock (b : Block) :
    Follows (b.numberRegisters numberOf?) (b.numberRegisters Numbering.allocate) :=
  (Follows.mapM follows_numberInstruction b.instructions).bind fun _ => follows_pure _

theorem follows_numberSlot : ∀ slot : Option Block,
    Follows (Block.numberSlot numberOf? slot) (Block.numberSlot Numbering.allocate slot)
  | none => follows_pure none
  | some b => (follows_numberBlock b).map some

theorem follows_numberGraph (g : FlowGraph) :
    Follows (g.numberRegisters numberOf?) (g.numberRegisters Numbering.allocate) :=
  (Follows.mapM follows_numberSlot g.slots).bind fun _ => follows_pure _

/-- A table does to a graph what its numbering does, or fails where that has more names than there
are numbers. -/
theorem Linked.assign? {t : NumberTable} (h : t.Linked) (g : FlowGraph) :
    ((t.numbering.assign g).2.size ≤ capacity →
      ∃ t', t.assign? g = some ((t.numbering.assign g).1, t') ∧ t'.Linked ∧
        t'.numbering = (t.numbering.assign g).2) ∧
    (capacity < (t.numbering.assign g).2.size → t.assign? g = none) :=
  ⟨(follows_numberGraph g).fits t h, (follows_numberGraph g).full t h⟩

/-- The numbering with which a kernel is built is that of a table. -/
theorem exists_ofGraph? {g : FlowGraph} (hroom : (Numbering.ofGraph g).2.size ≤ capacity) :
    ∃ t, ofGraph? g = some ((Numbering.ofGraph g).1, t) ∧ t.Linked ∧
      t.numbering = (Numbering.ofGraph g).2 :=
  (Linked.empty.assign? g).1 hroom

end KernelListing.NumberTable
