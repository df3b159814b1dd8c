import KernelListing.Kernel.Basic
import KernelListing.Proofs.FlowGraph.Rebuild
import KernelListing.Proofs.Statement.RoundTrip

/-!
# The declarations of a kernel

What a kernel holds of its declarations, and that it takes them back from a list of its own
(`ofDeclarations_listedDeclarations`). The variables stand in ascending order of their names there,
so that each of them is inserted behind the others.
-/

namespace KernelListing

namespace SortedTable

variable {κ α : Type} [LT κ] [DecidableLT κ] {key : κ} {value : α}

theorem mem_insertIfNew {t : SortedTable κ α} {e : κ × α} (h : e ∈ insertIfNew key value t) :
    e ∈ t ∨ e = (key, value) := by
  induction t with
  | nil => exact .inr (List.mem_singleton.1 h)
  | cons entry rest ih =>
    obtain ⟨k, v⟩ := entry
    unfold insertIfNew upsert at h
    split at h
    · rcases List.mem_cons.1 h with h | h
      · exact .inr h
      · exact .inl h
    · split at h
      · rcases List.mem_cons.1 h with h | h
        · exact .inl (h ▸ List.mem_cons_self ..)
        · exact (ih h).imp_left (List.mem_cons_of_mem _)
      · exact .inl h

theorem insertIfNew_of_lt (hasymm : ∀ {a b : κ}, a < b → ¬ b < a) {t : SortedTable κ α}
    (h : ∀ k ∈ keys t, k < key) : insertIfNew key value t = t ++ [(key, value)] := by
  induction t with
  | nil => rfl
  | cons entry rest ih =>
    obtain ⟨k, v⟩ := entry
    obtain ⟨hk, hrest⟩ := List.forall_mem_cons.1 h
    rw [insertIfNew, upsert, if_neg (hasymm hk), if_pos hk, List.cons_append]
    exact congrArg _ (ih hrest)

end SortedTable

namespace Kernel

open Statement FlowGraph

/-! ## What has been declared -/

theorem ofDeclarations_concat (ss : List Statement) (s : Statement) :
    ofDeclarations (ss ++ [s]) = (ofDeclarations ss).declare s := by
  rw [ofDeclarations, List.foldl_append]
  rfl

theorem dataflow?_ofDeclarations (ss : List Statement) : (ofDeclarations ss).dataflow? = none := by
  induction ss using List.reverseRecOn with
  | nil => rfl
  | append_singleton ss s ih =>
    rw [ofDeclarations_concat]
    cases s <;> exact ih

theorem isTitle_name {ss : List Statement} (h : ∀ n, .entry n ∈ ss → IsTitle n) :
    IsTitle (ofDeclarations ss).name := by
  induction ss using List.reverseRecOn with
  | nil => exact ⟨Text.isCode_nil, ⟨nofun, nofun⟩, by decide⟩
  | append_singleton ss s ih =>
    have hih := ih fun n hn => h n (List.mem_append_left _ hn)
    rw [ofDeclarations_concat]
    cases s with
    | entry n => exact h n (List.mem_append_right _ (List.mem_singleton_self _))
    | label l => exact hih
    | instruction i => exact hih
    | parameter p => exact hih
    | localVariable v => exact hih
    | sharedVariable v => exact hih

theorem mem_parameters {ss : List Statement} {p : Parameter}
    (h : p ∈ (ofDeclarations ss).parameters) : .parameter p ∈ ss := by
  induction ss using List.reverseRecOn with
  | nil => cases h
  | append_singleton ss s ih =>
    have hih := fun h => List.mem_append_left [s] (ih h)
    rw [ofDeclarations_concat] at h
    cases s with
    | parameter p' =>
      rcases List.mem_append.1 h with h | h
      · exact hih h
      · rw [List.mem_singleton.1 h]
        exact List.mem_append_right _ (List.mem_singleton_self _)
    | label l => exact hih h
    | instruction i => exact hih h
    | entry n => exact hih h
    | localVariable v => exact hih h
    | sharedVariable v => exact hih h

theorem mem_storage {ss : List Statement} {e : String × Variable}
    (h : e ∈ (ofDeclarations ss).storage) :
    e.1 = e.2.name ∧ (.localVariable e.2 ∈ ss ∨ .sharedVariable e.2 ∈ ss) := by
  induction ss using List.reverseRecOn with
  | nil => cases h
  | append_singleton ss s ih =>
    have hih := fun h => (ih h).imp_right fun h =>
      h.imp (List.mem_append_left [s]) (List.mem_append_left [s])
    have hlast : s ∈ ss ++ [s] := List.mem_append_right _ (List.mem_singleton_self s)
    rw [ofDeclarations_concat] at h
    cases s with
    | localVariable v =>
      rcases SortedTable.mem_insertIfNew h with h | rfl
      · exact hih h
      · exact ⟨rfl, .inl hlast⟩
    | sharedVariable v =>
      rcases SortedTable.mem_insertIfNew h with h | rfl
      · exact hih h
      · exact ⟨rfl, .inr hlast⟩
    | label l => exact hih h
    | instruction i => exact hih h
    | parameter p => exact hih h
    | entry n => exact hih h

theorem keys_storage_pairwise (ss : List Statement) :
    (SortedTable.keys (ofDeclarations ss).storage).Pairwise (· < ·) := by
  induction ss using List.reverseRecOn with
  | nil => exact .nil
  | append_singleton ss s ih =>
    rw [ofDeclarations_concat]
    cases s with
    | localVariable v => exact SortedTable.keys_upsert_pairwise String.lt_trans ih
    | sharedVariable v => exact SortedTable.keys_upsert_pairwise String.lt_trans ih
    | label l => exact ih
    | instruction i => exact ih
    | parameter p => exact ih
    | entry n => exact ih

/-! ## Declaring it again -/

/-- The declarations that a listing starts with. -/
def listedDeclarations (k : Kernel) : List Statement :=
  (if k.name = "" then [] else [.entry k.name]) ++ k.parameters.map .parameter ++
    k.storage.map fun p => ofVariable p.2

theorem declare_ofVariable (k : Kernel) (v : Variable) : k.declare (ofVariable v) =
    { k with storage := SortedTable.insertIfNew v.name v k.storage } := by
  unfold ofVariable
  split <;> rfl

theorem foldl_declare_parameters (k : Kernel) (ps : List Parameter) :
    (ps.map .parameter).foldl declare k = { k with parameters := k.parameters ++ ps } := by
  induction ps generalizing k with
  | nil => rw [List.append_nil]; rfl
  | cons p ps ih =>
    rw [List.map_cons, List.foldl_cons, ih]
    simp [declare]

theorem foldl_declare_storage (k : Kernel) {t : SortedTable String Variable}
    (hsorted : (SortedTable.keys (k.storage ++ t)).Pairwise (· < ·))
    (hnames : ∀ e ∈ t, e.1 = e.2.name) :
    (t.map fun p => ofVariable p.2).foldl declare k = { k with storage := k.storage ++ t } := by
  induction t generalizing k with
  | nil => rw [List.append_nil]; rfl
  | cons e t ih =>
    obtain ⟨hname, hrest⟩ := List.forall_mem_cons.1 hnames
    obtain ⟨name, v⟩ := e
    obtain rfl : name = v.name := hname
    have hlt : ∀ key ∈ SortedTable.keys k.storage, key < v.name := by
      rw [SortedTable.keys, List.map_append] at hsorted
      exact fun key hkey => (List.pairwise_append.1 hsorted).2.2 key hkey _ (List.mem_cons_self ..)
    have hinsert : k.declare (ofVariable v) =
        { k with storage := k.storage ++ [(v.name, v)] } := by
      rw [declare_ofVariable, SortedTable.insertIfNew_of_lt String.lt_asymm hlt]
    rw [List.map_cons, List.foldl_cons, hinsert, ih _ ?_ hrest]
    · simp
    · simpa using hsorted

theorem foldl_declare_written (k : Kernel) (ss : List Segment) :
    (written ss).foldl declare k = k := by
  have hall : ∀ s ∈ written ss, ∀ k : Kernel, k.declare s = k := by
    intro s hs k
    obtain ⟨segment, -, hs⟩ := List.mem_flatMap.1 hs
    rcases List.mem_append.1 hs with hs | hs
    · obtain ⟨l, -, rfl⟩ := List.mem_map.1 hs
      rfl
    · obtain ⟨i, -, rfl⟩ := List.mem_map.1 hs
      rfl
  generalize written ss = statements at hall
  induction statements with
  | nil => rfl
  | cons s statements ih =>
    obtain ⟨hs, hall⟩ := List.forall_mem_cons.1 hall
    rw [List.foldl_cons, hs, ih hall]

/-- A kernel takes its declarations back. -/
theorem ofDeclarations_listedDeclarations {k : Kernel}
    (hsorted : (SortedTable.keys k.storage).Pairwise (· < ·))
    (hnames : ∀ e ∈ k.storage, e.1 = e.2.name) (ss : List Segment) :
    ofDeclarations (k.listedDeclarations ++ written ss) =
      { name := k.name, parameters := k.parameters, storage := k.storage } := by
  have hname : (if k.name = "" then [] else [.entry k.name]).foldl declare { name := "" } =
      { name := k.name } := by
    split
    · next h => rw [h]; rfl
    · rfl
  have hstorage := foldl_declare_storage { name := k.name, parameters := k.parameters } hsorted hnames
  rw [ofDeclarations, listedDeclarations, List.foldl_append, List.foldl_append, List.foldl_append,
    hname, foldl_declare_parameters]
  exact (congrArg (List.foldl declare · _) hstorage).trans (foldl_declare_written _ ss)

end Kernel

end KernelListing
