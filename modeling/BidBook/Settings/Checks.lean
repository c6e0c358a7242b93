import BidBook.Settings.Layers

/-! # Checks of settings

Which values a field may have. A field that a mapping does not mention is not checked.

* `Settings.check` — everything that is wrong with a mapping.
-/

namespace BidBook

/-- A field with a value that it may not have. -/
structure FieldFault where
  field : String
  message : String
  value : Value

namespace Settings

inductive FieldKind where
  /-- One or more different suits out of these. -/
  | suits (allowed : List String)
  | flag
  /-- A text that is not empty. -/
  | separator
  /-- The name of a level of reports, in upper or lower case. -/
  | level

/-- The checked fields, by section. -/
def fieldKinds : List (String × List (String × FieldKind)) :=
  [("expansion",
      [("major_suits", .suits ["H", "S"]), ("minor_suits", .suits ["C", "D"]),
        ("any_suits", .suits ["C", "D", "H", "S"]), ("relay_alertable", .flag)]),
    ("prune", [("prune_illegal", .flag), ("prune_empty", .flag)]),
    ("render", [("suit_symbols", .flag), ("sequence_separator", .separator)]),
    ("logging", [("level", .level), ("format_json", .flag)])]

def levels : List String := ["DEBUG", "INFO", "WARNING", "ERROR", "CRITICAL"]

/-- Upper case, as far as the names of levels need it: the dotless `ı` has the capital of `i`. -/
def upperCase (s : String) : String := s.map fun c => if c = 'ı' then 'I' else c.toUpper

def enumerated (ss : List String) : String :=
  String.ofList (Text.joinWith [',', ' '] (ss.map String.toList))

def listed? : Value → Option (List Value)
  | .list items => some items
  | .tuple items => some items
  | _ => none

def suitsFault? (allowed : List String) (v : Value) : Option String :=
  match listed? v with
  | none => some "Must be a non-empty list of suits"
  | some [] => some "Must be a non-empty list of suits"
  | some items =>
    if items.any fun i => !(i.text?.any allowed.contains) then
      some s!"Suits must be drawn from {enumerated allowed}"
    else if !decide (texts v).Nodup then some "Suits must not repeat"
    else none

def FieldKind.fault? : FieldKind → Value → Option String
  | suits allowed, v => suitsFault? allowed v
  | flag, .bool _ => none
  | flag, _ => some "Must be a boolean"
  | separator, v => if v.text?.any (· != "") then none else some "Must be a non-empty string"
  | level, v =>
    if v.text?.any fun s => levels.contains (upperCase s) then none
    else some s!"Must be one of {enumerated levels}"

/-- Everything that is wrong with a mapping. -/
def check (config : Value) : List FieldFault :=
  fieldKinds.flatMap fun (name, known) =>
    known.filterMap fun (field, kind) => do
      let v ← Value.lookup? field (sectionEntries config name)
      let message ← kind.fault? v
      return ⟨field, message, v⟩

end Settings

end BidBook
