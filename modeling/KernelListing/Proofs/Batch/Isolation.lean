import Mathlib.Data.List.ReduceOption
import KernelListing.Batch.Run

/-!
# A file that fails costs no other file its listing

The output of a run is put together from segments, one for each file. A segment depends on the
options, the position of its file, and what the file is read as (`listing?`), and on nothing that
came of the files in front. What the standard input is read as is the one thing that they share:
`contentAt` says it by position, without the state that a run carries along.
-/

namespace KernelListing.Batch

/-! ## Arguments -/

def isOption (argument : String) : Bool := argument ≠ "-" ∧ argument.toList.head? = some '-'

/-- The arguments that are neither options nor the text of a banner. -/
def positional : List String → List String
  | [] => []
  | argument :: rest =>
    if argument = "--banner" then
      match rest with
      | [] => []
      | _ :: rest => positional rest
    else if isOption argument then positional rest
    else argument :: positional rest

theorem positional_option {argument : String} (h : isOption argument = true)
    (hne : argument ≠ "--banner") (rest : List String) :
    positional (argument :: rest) = positional rest := by
  rw [positional.eq_def]
  dsimp only
  rw [if_neg hne, if_pos h]

theorem positional_file {argument : String} (h : isOption argument = false)
    (hne : argument ≠ "--banner") (rest : List String) :
    positional (argument :: rest) = argument :: positional rest := by
  rw [positional.eq_def]
  dsimp only
  rw [if_neg hne, h, if_neg Bool.false_ne_true]

/-- The files of a run are its positional arguments, in their order. -/
theorem files_parse {o o' : Options} {arguments : List String}
    (h : o.parse arguments = .ok o') : o'.files = o.files ++ positional arguments := by
  fun_induction Options.parse o arguments with
  | case1 => cases h
  | case2 => cases h; exact (List.append_nil _).symm
  | case3 o rest ih => rw [ih h, positional_option (by decide) (by decide)]
  | case4 o rest _ ih => rw [ih h, positional_option (by decide) (by decide)]
  | case5 o argument rest _ _ hverbose ih =>
    rcases hverbose with rfl | rfl
    · rw [ih h, positional_option (by decide) (by decide)]
    · rw [ih h, positional_option (by decide) (by decide)]
  | case6 => cases h
  | case7 o text rest _ _ _ ih => rw [ih h, positional, if_pos rfl]
  | case8 => cases h
  | case9 o argument rest _ _ _ hbanner hfile ih =>
    have hoption : isOption argument = false := by simpa [isOption] using hfile
    rw [ih h, positional_file hoption hbanner, List.append_assoc, List.singleton_append]

/-! ## Contents -/

/-- What a path names outside. -/
def Inputs.source? (inputs : Inputs) (path : String) : Option ByteArray :=
  if path = "-" then some inputs.standard else inputs.file? path

/-- What the file at a position among some files is read as. The standard input is empty for all
but the first that names it. -/
def contentAt (inputs : Inputs) (files : List String) (i : Nat) : Option ByteArray := do
  let path ← files[i]?
  if path = "-" ∧ "-" ∈ files.take i then some .empty else inputs.source? path

/-- The standard input is empty for the files behind one that it has been read for. -/
theorem contentAt_cons_succ (inputs : Inputs) (path : String) (files : List String) (i : Nat) :
    contentAt inputs (path :: files) (i + 1) =
      contentAt (if path = "-" then { inputs with standard := .empty } else inputs) files i := by
  unfold contentAt
  rw [List.getElem?_cons_succ, List.take_succ_cons]
  cases files[i]? with
  | none => rfl
  | some path' =>
    by_cases hpath : path = "-"
    · by_cases hpath' : path' = "-"
      · simp [hpath, hpath', Inputs.source?]
      · simp [hpath, hpath', Inputs.source?]
    · simp [hpath, Ne.symm hpath]

theorem contentsOf_eq (inputs : Inputs) (files : List String) :
    contentsOf inputs files = (List.range files.length).map (contentAt inputs files) := by
  induction files generalizing inputs with
  | nil => rfl
  | cons path files ih =>
    rw [List.length_cons, List.range_succ_eq_map, List.map_cons, List.map_map]
    simp only [Function.comp_def, contentAt_cons_succ, ← ih]
    by_cases hpath : path = "-"
    · simp [contentsOf, contentAt, hpath, Inputs.source?]
    · simp [contentsOf, contentAt, hpath, Inputs.source?]

theorem contentAt_congr {inputs inputs' : Inputs} {files : List String} {i : Nat}
    (h : ∀ path, files[i]? = some path → inputs'.source? path = inputs.source? path) :
    contentAt inputs' files i = contentAt inputs files i := by
  unfold contentAt
  cases hpath : files[i]? with
  | none => rfl
  | some path => simp [h path hpath]

/-! ## Segments -/

/-- The kernel that the contents of a file describe, if they can be read without an error. -/
def kernel? (contents : Option ByteArray) : Option Kernel := do
  let bytes ← contents
  let text ← String.fromUTF8? bytes
  if (Source.read text).errors = [] then
    (Kernel.ofStatements (Source.read text).statements).toOption
  else none

/-- The listing of a file, if its contents describe a kernel. -/
def listing? (o : Options) (kernelId : Nat) (contents : Option ByteArray) : Option String :=
  (kernel? contents).map fun k => (prepare o kernelId k).listing o.banner

/-- What each file adds to the output of a run, if it does not fail. -/
def segments (o : Options) (inputs : Inputs) : List (Option String) :=
  (List.range o.files.length).map fun i => listing? o i (contentAt inputs o.files i)

/-- A file fails exactly if its contents describe no kernel. -/
theorem processFile_eq (o : Options) (path : String) (contents : Option ByteArray)
    (kernelId : Nat) :
    match kernel? contents with
    | some k => processFile o path contents kernelId = .success o path kernelId k
    | none => ∃ errors e, processFile o path contents kernelId = .failure path errors e := by
  cases contents with
  | none => exact ⟨_, _, rfl⟩
  | some bytes =>
    cases htext : String.fromUTF8? bytes with
    | none =>
      have hkernel : kernel? (some bytes) = none := by simp [kernel?, htext]
      rw [hkernel]
      exact ⟨[], .notText, by simp [processFile, htext]⟩
    | some text =>
      by_cases herrors : (Source.read text).errors = []
      · have hkernel : kernel? (some bytes) =
            (Kernel.ofStatements (Source.read text).statements).toOption := by
          simp [kernel?, htext, herrors]
        rw [hkernel]
        cases hk : Kernel.ofStatements (Source.read text).statements with
        | error e => exact ⟨[], .build e, by simp [processFile, htext, herrors, hk]⟩
        | ok k => simp [processFile, htext, herrors, hk, Except.toOption]
      · have hkernel : kernel? (some bytes) = none := by simp [kernel?, htext, herrors]
        rw [hkernel]
        exact ⟨_, _, by simp only [processFile, htext, List.isEmpty_iff, herrors]; rfl⟩

theorem report_processFile (o : Options) (path : String) (contents : Option ByteArray)
    (kernelId : Nat) :
    (processFile o path contents kernelId).listing = (listing? o kernelId contents).getD "" ∧
      (processFile o path contents kernelId).failed = (listing? o kernelId contents).isNone := by
  have h := processFile_eq o path contents kernelId
  unfold listing?
  cases hk : kernel? contents with
  | none =>
    rw [hk] at h
    obtain ⟨errors, e, h⟩ := h
    rw [h]
    exact ⟨rfl, rfl⟩
  | some k =>
    rw [hk] at h
    rw [h]
    exact ⟨rfl, rfl⟩

theorem map_fileReports {α : Type} {o : Options} {f : FileReport → α} {g : Option String → α}
    (h : ∀ path contents kernelId,
      f (processFile o path contents kernelId) = g (listing? o kernelId contents))
    (inputs : Inputs) : (fileReports o inputs).map f = (segments o inputs).map g := by
  refine List.ext_getElem ?_ fun i _ _ => ?_
  · simp [fileReports, segments, contentsOf_eq]
  · simp [fileReports, segments, contentsOf_eq, h]

/-! ## Runs -/

theorem join_reduceOption (l : List (Option String)) :
    String.join (l.map (·.getD "")) = String.join l.reduceOption := by
  induction l with
  | nil => rfl
  | cons s l ih =>
    cases s with
    | none => simpa using ih
    | some text => simp [ih]

/-- A run writes the listings of its files that have one, in their order and each with the position
of its file as kernel id. It succeeds if each of them has one. A change to what one path names
changes no other segment. -/
theorem run_isolates {arguments : List String} {verbose : Bool} {o : Options}
    (h : Options.parse { verbose } arguments = .ok o) (inputs : Inputs) :
    o.files = positional arguments ∧
    (run arguments verbose inputs).output = String.join (segments o inputs).reduceOption ∧
    ((run arguments verbose inputs).exitCode = 0 ↔ none ∉ segments o inputs) ∧
    ∀ (inputs' : Inputs) (path : String),
      (∀ path' ≠ path, inputs'.source? path' = inputs.source? path') →
      ∀ i : Nat, o.files[i]? ≠ some path → (segments o inputs')[i]? = (segments o inputs)[i]? := by
  have hrun : run arguments verbose inputs =
      .ofFiles inputs.render o.verbose (fileReports o inputs) := by
    rw [run, h]
  refine ⟨files_parse h, ?_, ?_, fun inputs' path hpath i hi => ?_⟩
  · rw [hrun, ← join_reduceOption, ← map_fileReports fun path contents kernelId =>
      (report_processFile o path contents kernelId).1]
    rfl
  · -- A run fails if a file does, and a file fails exactly if it has no segment.
    have hfailed := congrArg (·.any id) (map_fileReports (fun path contents kernelId =>
      (report_processFile o path contents kernelId).2) inputs)
    simp only [List.any_map] at hfailed
    have hcode : (Report.ofFiles inputs.render o.verbose (fileReports o inputs)).exitCode =
        if (segments o inputs).any Option.isNone then 1 else 0 :=
      congrArg (fun failed : Bool => if failed then (1 : UInt8) else 0) hfailed
    rw [hrun, hcode]
    split
    · next hany => simpa using hany
    · next hany => simpa using hany
  · unfold segments
    rw [List.getElem?_map, List.getElem?_map]
    refine Option.map_congr fun j hj => ?_
    obtain rfl : i = j := by simpa using (List.getElem?_eq_some_iff.1 hj).2
    rw [contentAt_congr fun path' hpath' => hpath path' fun heq => hi (heq ▸ hpath')]

/-- A kernel on the standard input, and no file. -/
def piped : Inputs where
  file? _ := none
  standard := "exit;\n".toUTF8

theorem run_isolates_piped :
    (run ["--canonical", "absent", "-", "-"] false piped).output =
        ".entry ()\n\x7b\n    $BB_1_0002:\n        exit;\n\x7d\n" ∧
      (run ["--canonical", "absent", "-", "-"] false piped).exitCode ≠ 0 := by
  have hparse : Options.parse {} ["--canonical", "absent", "-", "-"] =
      .ok { files := ["absent", "-", "-"], canonical := true } := by decide
  obtain ⟨-, houtput, hcode, -⟩ := run_isolates hparse piped
  have hsegments : segments { files := ["absent", "-", "-"], canonical := true } piped =
      [none, some ".entry ()\n\x7b\n    $BB_1_0002:\n        exit;\n\x7d\n", none] := by
    decide +kernel
  rw [houtput, Ne, hcode, hsegments]
  decide

end KernelListing.Batch
