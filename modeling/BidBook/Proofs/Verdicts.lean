import BidBook.Report

/-! # What a report lets pass

A report on files and the compiler read a document in the same way, but not an empty one. To the compiler
a file that says null declares nothing. The report takes everything for an empty document that counts as
false, and so it finds no fault with some files that the compiler refuses.

* `Value.Hollow` — what only the report takes for an empty document.
* `Report.problem?_eq_told` — about any other document the two say the same.
* `Report.problem?_eq_none_iff` — the files with which a report finds no fault.
* `Report.hollow_not_reported` — one of them declares nothing that could be compiled.
-/

namespace BidBook

namespace Value

def isEmptyDocument : Value → Bool
  | null => true
  | map entries => entries.isEmpty
  | _ => false

/-- The value counts as false, but it is no empty document: false, zero, or an empty text or sequence. -/
def Hollow (v : Value) : Prop := v.isTruthy = false ∧ v.isEmptyDocument = false

instance : DecidablePred Hollow := fun v =>
  inferInstanceAs (Decidable (v.isTruthy = false ∧ v.isEmptyDocument = false))

end Value

theorem Document.build_of_hollow [Pattern.Judge] {v : Value} (hollow : v.Hollow)
    (shorthands : List Shorthand) :
    build shorthands v = refuse "" (.rootNotMapping v) := by
  cases v with
  | map entries =>
    -- a mapping counts as false only if it has no entries
    obtain ⟨untrue, entry⟩ := hollow
    cases entries with
    | nil => cases entry
    | cons e rest => cases untrue
  | _ => rfl

namespace Report

/-- What a report tells of an attempt to build a document. -/
def told : Except IngestionFault Document.Draft → Except IngestionFault (Option String)
  | .ok _ => .ok none
  | .error fault => if fault.isReported then .ok (some fault.message) else .error fault

theorem told_eq_none_iff {built : Except IngestionFault Document.Draft} :
    told built = .ok none ↔ ∃ draft, built = .ok draft := by
  cases built with
  | ok draft => exact iff_of_true rfl ⟨draft, rfl⟩
  | error fault =>
    refine iff_of_false (fun silent => ?_) nofun
    rw [told] at silent
    cases reported : fault.isReported <;> simp [reported] at silent

section

variable [Yaml.Loader] [Pattern.Judge] {f : Folder} {p : FilePath} {v : Value}

theorem problem?_of_error {fault : IngestionFault} (unread : f.document p = .error fault) :
    problem? p (f.file? p) = told (f.build [] p) := by
  rw [Folder.document] at unread
  rw [problem?, Folder.build, Folder.document, unread]
  rfl

theorem problem?_of_ok (read : f.document p = .ok v) : problem? p (f.file? p) =
    told ((Document.build [] (if v.isTruthy then v else .map [])).mapError .ofDocument) := by
  rw [Folder.document] at read
  rw [problem?, read]
  rfl

/-- The compiler takes null alone for an empty document, which it then builds. -/
theorem folder_build_of_ok (read : f.document p = .ok v) : f.build [] p =
    (Document.build [] (if v.isEmptyDocument then .map [] else v)).mapError .ofDocument := by
  rw [Folder.build, read]
  cases v with
  | map entries => cases entries <;> rfl
  | _ => rfl

/-- Unless a document is hollow, a report tells what comes of compiling it. -/
theorem problem?_eq_told (solid : ∀ v, f.document p = .ok v → ¬ v.Hollow) :
    problem? p (f.file? p) = told (f.build [] p) := by
  cases read : f.document p with
  | error fault => exact problem?_of_error read
  | ok v =>
    have same : (if v.isTruthy then v else .map []) = if v.isEmptyDocument then .map [] else v := by
      have solid := solid v read
      cases v with
      | null => rfl
      | map entries => cases entries <;> rfl
      | _ => simp_all [Value.Hollow, Value.isEmptyDocument]
    rw [problem?_of_ok read, folder_build_of_ok read, same]

/-- The report takes a hollow document for an empty one. -/
theorem problem?_of_hollow (read : f.document p = .ok v) (hollow : v.Hollow) :
    problem? p (f.file? p) = .ok none := by
  rw [problem?_of_ok read, hollow.1]
  rfl

/-- The compiler does not. -/
theorem folder_build_of_hollow (read : f.document p = .ok v) (hollow : v.Hollow) :
    f.build [] p = .error (.malformed ⟨"", .rootNotMapping v⟩) := by
  rw [folder_build_of_ok read, hollow.2, if_neg Bool.false_ne_true, Document.build_of_hollow hollow]
  rfl

/-- A report finds no fault with a file exactly if the compiler builds it, or if it holds a hollow
document, which the compiler refuses. -/
theorem problem?_eq_none_iff (f : Folder) (p : FilePath) : problem? p (f.file? p) = .ok none ↔
    (∃ draft, f.build [] p = .ok draft) ∨
      ∃ v, f.document p = .ok v ∧ v.Hollow ∧ f.build [] p = .error (.malformed ⟨"", .rootNotMapping v⟩) := by
  by_cases solid : ∀ v, f.document p = .ok v → ¬ v.Hollow
  · rw [problem?_eq_told solid, told_eq_none_iff]
    exact ⟨.inl, fun passed => passed.resolve_right fun ⟨v, read, hollow, _⟩ => solid v read hollow⟩
  · -- a hollow document passes the report, and the compiler refuses it
    simp only [Classical.not_forall, Classical.not_not] at solid
    obtain ⟨v, read, hollow⟩ := solid
    exact iff_of_true (problem?_of_hollow read hollow)
      (.inr ⟨v, read, hollow, folder_build_of_hollow read hollow⟩)

end

def emptyList : Folder := .ofFiles [(.ofText "list.yaml", .text "[]")]

/-- An empty sequence is no document that the compiler accepts, but nothing is said about it. -/
theorem hollow_not_reported :
    problem? (.ofText "list.yaml") (emptyList.file? (.ofText "list.yaml")) = .ok none ∧
      ¬ ∃ draft, emptyList.build [] (.ofText "list.yaml") = .ok draft := by
  have computed : (emptyList.document (.ofText "list.yaml")).toOption.any (decide ·.Hollow) = true := by
    decide +kernel
  cases read : emptyList.document (.ofText "list.yaml") with
  | error fault => rw [read] at computed; cases computed
  | ok v =>
    rw [read] at computed
    have hollow : v.Hollow := of_decide_eq_true computed
    refine ⟨problem?_of_hollow read hollow, ?_⟩
    rw [folder_build_of_hollow read hollow]
    exact nofun

end Report

end BidBook
