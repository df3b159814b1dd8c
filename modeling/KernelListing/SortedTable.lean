/-!
# Sorted tables

Finite maps as lists of entries in ascending order of their keys, which is the order in which
a listing prints them. All changes go through `upsert`. `keys_upsert_pairwise` says that the
order is kept.
-/

namespace KernelListing

/-- Entries in ascending order of their keys. -/
abbrev SortedTable (κ α : Type) := List (κ × α)

namespace SortedTable

variable {κ α : Type} [LT κ] [DecidableLT κ]

/-- The table with `f` of the old value at a key. -/
def upsert (key : κ) (f : Option α → α) : SortedTable κ α → SortedTable κ α
  | [] => [(key, f none)]
  | (k, v) :: rest =>
    if key < k then (key, f none) :: (k, v) :: rest
    else if k < key then (k, v) :: upsert key f rest
    else (k, f (some v)) :: rest

/-- The table with a value at a key, whatever was there. -/
def insert (key : κ) (value : α) (t : SortedTable κ α) : SortedTable κ α :=
  upsert key (fun _ => value) t

/-- The table with a value at a key, unless there is one. -/
def insertIfNew (key : κ) (value : α) (t : SortedTable κ α) : SortedTable κ α :=
  upsert key (·.getD value) t

/-- The keys of a table, in order. -/
def keys (t : SortedTable κ α) : List κ := t.map Prod.fst

/-- A key of the changed table is a key of the table or the one at which it was changed. -/
theorem mem_keys_upsert {key k : κ} {f : Option α → α} {t : SortedTable κ α}
    (h : k ∈ keys (upsert key f t)) : k = key ∨ k ∈ keys t := by
  induction t with
  | nil => simpa [upsert, keys] using h
  | cons entry rest ih =>
    obtain ⟨k', v⟩ := entry
    simp only [upsert] at h
    split at h
    · simpa [keys] using h
    · split at h
      · rcases List.mem_cons.1 h with rfl | h
        · exact .inr (List.mem_cons_self ..)
        · exact (ih h).imp_right (List.mem_cons_of_mem _)
      · exact .inr (by simpa [keys] using h)

/-- A change keeps the keys in ascending order. -/
theorem keys_upsert_pairwise (htrans : ∀ {a b c : κ}, a < b → b < c → a < c)
    {key : κ} {f : Option α → α} {t : SortedTable κ α} (h : (keys t).Pairwise (· < ·)) :
    (keys (upsert key f t)).Pairwise (· < ·) := by
  induction t with
  | nil => simp [upsert, keys]
  | cons entry rest ih =>
    obtain ⟨k, v⟩ := entry
    obtain ⟨hk, hrest⟩ := List.pairwise_cons.1 h
    simp only [upsert]
    split
    · next hlt =>
      refine List.pairwise_cons.2 ⟨fun k' hk' => ?_, h⟩
      rcases List.mem_cons.1 hk' with rfl | hk'
      · exact hlt
      · exact htrans hlt (hk k' hk')
    · split
      · next hgt =>
        refine List.pairwise_cons.2 ⟨fun k' hk' => ?_, ih hrest⟩
        rcases mem_keys_upsert hk' with rfl | hk'
        · exact hgt
        · exact hk k' hk'
      · exact h

end SortedTable

end KernelListing
