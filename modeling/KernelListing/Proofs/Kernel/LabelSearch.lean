import Mathlib.Data.Finset.Card
import Mathlib.Order.Interval.Finset.Nat
import KernelListing.Proofs.Kernel.Labels

/-!
# The search for a synthetic label ends

A synthetic label is searched for by raising a counter as long as the candidate of that counter is
used. `Search` is this loop, with the number of times that it raises the counter; nothing in it
bounds that number. Since candidates are distinct, there cannot be more used ones than used labels,
and so the loop ends before it runs out of them, with the label that `firstUnused` gives
(`synthetic_fresh`).
-/

namespace KernelListing.Label

/-- `Search base used n k label`: from the counter `n` on, the search raises the counter `k` times
and then ends with `label`. -/
inductive Search (base : String) (used : List String) : Nat → Nat → String → Prop
  | stop {n : Nat} : candidate base n ∉ used → Search base used n 0 (candidate base n)
  | next {n k : Nat} {label : String} : candidate base n ∈ used →
      Search base used (n + 1) k label → Search base used n (k + 1) label

namespace Search

variable {base : String} {used : List String} {n k : Nat} {label : String}

theorem unique (h : Search base used n k label) {k' : Nat} {label' : String}
    (h' : Search base used n k' label') : k' = k ∧ label' = label := by
  induction h generalizing k' with
  | stop hunused =>
    cases h' with
    | stop _ => exact ⟨rfl, rfl⟩
    | next hused _ => exact absurd hused hunused
  | next hused _ ih =>
    cases h' with
    | stop hunused => exact absurd hused hunused
    | next _ hrest =>
      obtain ⟨rfl, rfl⟩ := ih hrest
      exact ⟨rfl, rfl⟩

/-- A used label that is a candidate of an earlier counter does not concern the search. -/
theorem of_erase {m : Nat} (h : Search base (used.erase (candidate base m)) n k label)
    (hm : m < n) : Search base used n k label := by
  have hne : ∀ n', m < n' → candidate base n' ≠ candidate base m := fun n' hn' =>
    (candidate_injective base).ne (Nat.ne_of_gt hn')
  induction h with
  | @stop n hunused => exact .stop fun hused => hunused ((List.mem_erase_of_ne (hne n hm)).2 hused)
  | next hused _ ih => exact .next (List.mem_of_mem_erase hused) (ih (Nat.lt_succ_of_lt hm))

theorem mem_used (h : Search base used n k label) {m : Nat} (hm : n ≤ m) (hm' : m < n + k) :
    candidate base m ∈ used := by
  induction h with
  | stop _ => exact absurd hm (Nat.not_le.2 hm')
  | @next n k label hused _ ih =>
    rcases Nat.eq_or_lt_of_le hm with rfl | hlt
    · exact hused
    · exact ih hlt (by omega)

/-- The search raises its counter at most once for each used label. -/
theorem le_card (h : Search base used n k label) : k ≤ used.toFinset.card := by
  have hsubset : (Finset.Ico n (n + k)).image (candidate base) ⊆ used.toFinset := by
    intro l hl
    obtain ⟨m, hm, rfl⟩ := Finset.mem_image.1 hl
    obtain ⟨hm, hm'⟩ := Finset.mem_Ico.1 hm
    exact List.mem_toFinset.2 (h.mem_used hm hm')
  calc k = (Finset.Ico n (n + k)).card := by rw [Nat.card_Ico, Nat.add_sub_cancel_left]
    _ = ((Finset.Ico n (n + k)).image (candidate base)).card :=
      (Finset.card_image_of_injective _ (candidate_injective base)).symm
    _ ≤ used.toFinset.card := Finset.card_le_card hsubset

end Search

/-- The search ends, and with the label that is found by striking the used candidates off. -/
theorem exists_search (base : String) (used : List String) (n : Nat) :
    ∃ k, Search base used n k (firstUnused base used n) := by
  fun_induction firstUnused base used n with
  | case1 used n hused _ ih =>
    obtain ⟨k, hk⟩ := ih
    exact ⟨k + 1, .next hused (hk.of_erase (Nat.lt_succ_self n))⟩
  | case2 used n hunused => exact ⟨0, .stop hunused⟩

/-- The search for the label of a block ends after raising its counter at most as many times as
there are labels, the label that it ends with is none of them, and blocks at other positions get
other labels. -/
theorem synthetic_fresh (used : List String) (position : Nat) :
    (∃ k ≤ used.toFinset.card, ∀ k' label,
      Search ("$__Block_" ++ toString position) used 0 k' label ↔
        k' = k ∧ label = synthetic used position) ∧
    synthetic used position ∉ used ∧
    ∀ position', position' ≠ position → synthetic used position' ≠ synthetic used position := by
  refine ⟨?_, synthetic_not_mem used position, fun position' hne => ?_⟩
  · obtain ⟨k, hk⟩ := exists_search ("$__Block_" ++ toString position) used 0
    refine ⟨k, hk.le_card, fun k' label => ⟨hk.unique, ?_⟩⟩
    rintro ⟨rfl, rfl⟩
    exact hk
  · exact (synthetic_injective used).ne hne

/-- Labels that take the names of the first block, with and without a counter, and one that starts
like them. -/
def imitations : List String := ["$__Block_1", "$__Block_1_1", "$__Block_11", "$__Block_1_1"]

theorem synthetic_fresh_imitations :
    synthetic imitations 1 = "$__Block_1_2" ∧ 11 ≠ 1 ∧
      synthetic imitations 11 ≠ synthetic imitations 1 := by
  obtain ⟨⟨k, -, hsearch⟩, -, hpositions⟩ := synthetic_fresh imitations 1
  have hrun : Search ("$__Block_" ++ toString 1) imitations 0 2 "$__Block_1_2" :=
    .next (by decide) (.next (by decide) (.stop (by decide)))
  exact ⟨((hsearch 2 _).1 hrun).2.symm, by decide, hpositions 11 (by decide)⟩

end KernelListing.Label
