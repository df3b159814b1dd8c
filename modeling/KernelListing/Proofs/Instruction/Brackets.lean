import Mathlib.Data.List.Infix
import KernelListing.Proofs.Instruction.Arguments

/-!
# Splitting undoes joining

The depth of a text is how many brackets it opens less how many it closes. `Bracketed` says that it
is never negative in front of any place of the text, and not zero in front of a comma. Texts of this
kind, each with depth zero at its end but the last, are the arguments that `splitArguments` finds
when they are joined by commas (`splitArguments_joined`). Arguments that it has found once, however
their brackets stand, it finds again.
-/

namespace KernelListing.Instruction

open Text

/-- How many brackets a text opens less how many it closes. -/
def signedDepth (cs : List Char) : Int :=
  cs.countP (· ∈ ['{', '[']) - cs.countP (· ∈ ['}', ']'])

/-- A text closes no bracket that it has not opened, and its commas stand inside brackets. -/
structure Bracketed (cs : List Char) : Prop where
  nonneg : ∀ front, front <+: cs → 0 ≤ signedDepth front
  comma : ∀ front, front ++ [','] <+: cs → signedDepth front ≠ 0

theorem bracketed_iff_inits {cs : List Char} : Bracketed cs ↔
    (∀ front ∈ cs.inits, 0 ≤ signedDepth front) ∧
      ∀ front ∈ cs.inits, front ++ [','] <+: cs → signedDepth front ≠ 0 := by
  simp only [List.mem_inits]
  constructor
  · intro h
    exact ⟨h.nonneg, fun front _ => h.comma front⟩
  · rintro ⟨hnonneg, hcomma⟩
    exact ⟨hnonneg, fun front hfront =>
      hcomma front ((List.prefix_append front [',']).trans hfront) hfront⟩

instance (cs : List Char) : Decidable (Bracketed cs) := decidable_of_iff _ bracketed_iff_inits.symm

/-- Texts that can be joined by commas and told apart again. -/
structure Joinable (ts : List (List Char)) : Prop where
  ne_nil : ∀ t ∈ ts, t ≠ []
  trimmed : ∀ t ∈ ts, Trimmed t
  bracketed : ∀ t ∈ ts, Bracketed t
  closed : ∀ t ∈ ts.dropLast, signedDepth t = 0

theorem signedDepth_cons (c : Char) (cs : List Char) :
    signedDepth (c :: cs) = signedDepth [c] + signedDepth cs := by
  simp only [signedDepth, List.countP_cons, List.countP_nil]
  omega

theorem depthAfter_eq {n : Nat} {c : Char} (h : 0 ≤ n + signedDepth [c]) :
    (depthAfter n c : Int) = n + signedDepth [c] := by
  by_cases hopening : c = '{' ∨ c = '['
  · have hvalue : signedDepth [c] = 1 := by rcases hopening with rfl | rfl <;> rfl
    rw [depthAfter, if_pos hopening, hvalue, Int.natCast_succ]
  · by_cases hclosing : c = '}' ∨ c = ']'
    · have hvalue : signedDepth [c] = -1 := by rcases hclosing with rfl | rfl <;> rfl
      rw [hvalue] at h ⊢
      rw [depthAfter, if_neg hopening, if_pos hclosing]
      omega
    · have hvalue : signedDepth [c] = 0 := by simp [signedDepth, hopening, hclosing]
      rw [depthAfter, if_neg hopening, if_neg hclosing, hvalue, Int.add_zero]

/-- Where no bracket is closed before it has been opened, counting the brackets that are open is
counting them with their signs. -/
theorem depthBehind_eq {n : Nat} {cs : List Char}
    (h : ∀ front, front <+: cs → 0 ≤ n + signedDepth front) :
    (depthBehind n cs : Int) = n + signedDepth cs := by
  induction cs generalizing n with
  | nil => exact (Int.add_zero _).symm
  | cons c cs ih =>
    -- What the first character adds moves from the signed depth to the brackets in front.
    have hfirst := depthAfter_eq (h [c] (List.prefix_append [c] cs))
    have hrest : ∀ front, front <+: cs → 0 ≤ (depthAfter n c : Int) + signedDepth front := by
      intro front hfront
      have hnonneg := h (c :: front) (List.cons_prefix_cons.2 ⟨rfl, hfront⟩)
      rwa [signedDepth_cons, ← Int.add_assoc, ← hfirst] at hnonneg
    calc (depthBehind n (c :: cs) : Int)
        = depthBehind (depthAfter n c) cs := rfl
      _ = depthAfter n c + signedDepth cs := ih hrest
      _ = n + signedDepth (c :: cs) := by rw [hfirst, signedDepth_cons c cs, Int.add_assoc]

/-- A text is solid exactly if brackets are open in front of each of its commas. -/
theorem solid_iff {n : Nat} {cs : List Char} :
    Solid n cs ↔ ∀ front, front ++ [','] <+: cs → depthBehind n front ≠ 0 := by
  induction cs generalizing n with
  | nil => exact iff_of_true trivial fun front h => absurd (List.prefix_nil.1 h) (by simp)
  | cons c cs ih =>
    rw [Solid, ih]
    constructor
    · rintro ⟨hc, hcs⟩ front hfront
      cases front with
      | nil =>
        obtain rfl : ',' = c := (List.cons_prefix_cons.1 hfront).1
        exact fun hn => hc ⟨rfl, hn⟩
      | cons c' front =>
        obtain ⟨rfl, hrest⟩ := List.cons_prefix_cons.1 hfront
        exact hcs front hrest
    · refine fun h => ⟨?_, fun front hfront => ?_⟩
      · rintro ⟨rfl, hn⟩
        exact h [] (List.prefix_append [','] cs) hn
      · exact h (c :: front) (List.cons_prefix_cons.2 ⟨rfl, hfront⟩)

namespace Bracketed

variable {cs : List Char}

theorem depthBehind_eq_signedDepth (h : Bracketed cs) {front : List Char} (hfront : front <+: cs) :
    (depthBehind 0 front : Int) = signedDepth front := by
  have hnonneg : ∀ front', front' <+: front → 0 ≤ ((0 : Nat) : Int) + signedDepth front' :=
    fun front' hfront' => by simpa using h.nonneg front' (hfront'.trans hfront)
  simpa using depthBehind_eq hnonneg

theorem solid (h : Bracketed cs) : Solid 0 cs := by
  rw [solid_iff]
  intro front hfront hzero
  refine h.comma front hfront ?_
  rw [← h.depthBehind_eq_signedDepth ((List.prefix_append front [',']).trans hfront), hzero,
    Int.natCast_zero]

theorem depthBehind_eq_zero (h : Bracketed cs) (hdepth : signedDepth cs = 0) :
    depthBehind 0 cs = 0 := by
  have heq := h.depthBehind_eq_signedDepth (List.prefix_refl cs)
  rw [hdepth] at heq
  exact Int.natCast_eq_zero.1 heq

end Bracketed

theorem pieces_of_bracketed {ts : List (List Char)} (h : ∀ t ∈ ts, Bracketed t)
    (hclosed : ∀ t ∈ ts.dropLast, signedDepth t = 0) : Pieces 0 ts := by
  induction ts with
  | nil => trivial
  | cons t ts ih =>
    obtain ⟨ht, hts⟩ := List.forall_mem_cons.1 h
    by_cases hne : ts = []
    · subst hne
      exact ht.solid
    · rw [List.dropLast_cons_of_ne_nil hne, List.forall_mem_cons] at hclosed
      rw [pieces_cons hne]
      exact ⟨ht.solid, ht.depthBehind_eq_zero hclosed.1, ih hts hclosed.2⟩

theorem Joinable.arguments {ts : List (List Char)} (h : Joinable ts) : Arguments ts :=
  ⟨h.trimmed, pieces_of_bracketed h.bracketed h.closed⟩

/-- Texts that can be joined are the arguments of the text that they are joined to, and the
arguments of any text are those of their own joining. -/
theorem splitArguments_joined :
    (∀ ts, Joinable ts → splitArguments ([',', ' '].intercalate ts) = ts) ∧
      ∀ cs, splitArguments ([',', ' '].intercalate (splitArguments cs)) = splitArguments cs := by
  constructor
  · intro ts h
    refine splitArguments_intercalate_iff.2 ⟨h.arguments, ?_⟩
    rintro rfl
    exact h.ne_nil [] (List.mem_singleton_self []) rfl
  · intro cs
    exact splitArguments_intercalate_iff.2 ⟨(splitArguments_spec cs).1, splitArguments_ne_blank cs⟩

/-- A vector, an address whose brackets are of two kinds, and a text that does not close its
brackets. -/
def unfinished : List (List Char) :=
  ["\x7b%r1, %r2\x7d".toList, "[a, b\x7d".toList, "\x7b%r3, [%r4,".toList]

theorem splitArguments_joined_unfinished : Joinable unfinished ∧
    splitArguments ([',', ' '].intercalate unfinished) = unfinished := by
  have h : Joinable unfinished := by
    refine ⟨by decide, ?_, by decide, by decide⟩
    simp only [unfinished, List.forall_mem_cons]
    exact ⟨⟨by decide, by decide⟩, ⟨by decide, by decide⟩, ⟨by decide, by decide⟩,
      List.forall_mem_nil _⟩
  exact ⟨h, splitArguments_joined.1 unfinished h⟩

end KernelListing.Instruction
