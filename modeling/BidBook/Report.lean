import BidBook.Library

/-! # Checking settings and files

A report for the command line: are the settings in order, can they be overridden, and is each of several
files a document that declares a bidding system.

* `Report.problem?` — what is wrong with a file.
* `Report.run` — the lines of the report, and how it ends.
-/

namespace BidBook

namespace Settings

/-- The settings that come with the program. They say the same as the defaults. -/
def shipped : Value :=
  let suits (ss : List String) : Value := .list (ss.map .text)
  .map [
    (.text "expansion", .map [
      (.text "major_suits", suits ["H", "S"]),
      (.text "minor_suits", suits ["C", "D"]),
      (.text "any_suits", suits ["C", "D", "H", "S"]),
      (.text "relay_alertable", .bool true)]),
    (.text "prune", .map [
      (.text "prune_illegal", .bool true),
      (.text "prune_empty", .bool true)]),
    (.text "render", .map [
      (.text "suit_symbols", .bool false),
      (.text "sequence_separator", .text "-")]),
    (.text "logging", .map [
      (.text "level", .text "INFO"),
      (.text "format_json", .bool false)])]

end Settings

namespace Report

variable [Yaml.Loader] [Pattern.Judge]

/-- Settings that override those that come with the program, for a trial. -/
def trial : Value :=
  .map [
    (.text "expansion", .map [(.text "major_suits", .list [.text "S"])]),
    (.text "render", .map [(.text "suit_symbols", .bool true)])]

def settingsFaults (overrides : Value) : List FieldFault :=
  Settings.check (Settings.layered Settings.shipped overrides)

/-- What is wrong with the document in a file, given what was found there. One that says nothing declares
nothing. Some faults are no problem of this kind, but stop the report. -/
def problem? (p : FilePath) (found : Except Excess (Option Contents)) :
    Except IngestionFault (Option String) :=
  let draft := do
    let v ← Contents.documentOf p found
    (Document.build [] (if v.isTruthy then v else .map [])).mapError .ofDocument
  match draft with
  | .ok _ => .ok none
  | .error fault => if fault.isReported then .ok (some fault.message) else .error fault

def settingsLines (faults : List FieldFault) : List String :=
  if faults.isEmpty then ["✅ Compiler configuration is valid"]
  else s!"❌ Found {faults.length} validation errors:"
    :: faults.map fun e => s!"  • {e.field}: {e.message} (value: {e.value.shown})"

def overrideLines (faults : List FieldFault) : List String :=
  if faults.isEmpty then ["✅ Override validation passed"]
  else "❌ Override validation failed:" :: faults.map fun e => s!"  • {e.field}: {e.message}"

def announcement (name : String) : List String := ["", s!"📄 Validating {name}..."]

def finding (name : String) : Option String → String
  | some problem => s!"❌ {problem}"
  | none => s!"✅ {name} is a well-formed convention document"

def closing (valid : Bool) : List String :=
  ["", if valid then "🎉 All validation passed!" else "❌ Validation failed!"]

inductive Verdict where
  | valid
  | invalid
  | stopped (fault : IngestionFault)

structure Outcome where
  lines : List String
  verdict : Verdict

/-- The report as it is printed. A line that tells a name may be broken where the name is. -/
def Outcome.text (o : Outcome) : String := String.join (o.lines.map (· ++ "\n"))

/-- The part of a report about files, given by name with what was found there. `valid` says whether
everything before them is in order. -/
def checkFiles : Bool → List (String × Except Excess (Option Contents)) → Outcome
  | valid, [] => ⟨closing valid, if valid then .valid else .invalid⟩
  | valid, (name, found) :: rest =>
    match problem? (.ofText name) found with
    | .error fault => ⟨announcement name, .stopped fault⟩
    | .ok problem =>
      let after := checkFiles (valid && problem.isNone) rest
      { after with lines := announcement name ++ finding name problem :: after.lines }

def run (files : List (String × Except Excess (Option Contents))) : Outcome :=
  let faults := settingsFaults .null
  let trialFaults := settingsFaults trial
  let after := checkFiles (faults.isEmpty && trialFaults.isEmpty) files
  { after with
    lines := "🔍 Validating Conventor configuration..." :: settingsLines faults
      ++ ["", "📋 Testing per-call overrides..."] ++ overrideLines trialFaults ++ after.lines }

end Report

end BidBook
