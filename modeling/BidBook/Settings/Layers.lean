import BidBook.Settings
import BidBook.Value

/-! # Layers of settings

Settings are written as a mapping of sections, each a mapping of fields. Three layers are laid over one
another: the defaults, those of a file, and those given for one occasion. What a layer does not mention
shows through from the one below it.

* `Settings.defaults` — the bottom layer.
* `Settings.overlay` — one layer over another.
* `Settings.effective` — what a mapping says about each known field.
* `Settings.ofValue` — the settings that a mapping of the right shape describes.
-/

namespace BidBook

namespace Settings

/-- The known fields with their defaults, by section. -/
def fields : List (String × List (String × Value)) :=
  let texts (ss : List String) : Value := .tuple (ss.map .text)
  [("expansion",
      [("major_suits", texts ["H", "S"]), ("minor_suits", texts ["C", "D"]),
        ("any_suits", texts ["C", "D", "H", "S"]), ("relay_alertable", .bool true)]),
    ("prune", [("prune_illegal", .bool true), ("prune_empty", .bool true)]),
    ("render", [("suit_symbols", .bool false), ("sequence_separator", .text "-")]),
    ("logging", [("level", .text "INFO"), ("format_json", .bool false)])]

def sectionValue (fields : List (String × Value)) : Value :=
  .map (fields.map fun f => (.text f.1, f.2))

/-- The bottom layer. -/
def defaults : Value := .map (fields.map fun s => (.text s.1, sectionValue s.2))

/-- Gives an entry a value, at its place if the key is known, and behind all others if it is not. -/
def putEntry (key value : Value) : List (Value × Value) → List (Value × Value)
  | [] => [(key, value)]
  | (k, v) :: rest => if k.same key then (k, value) :: rest else (k, v) :: putEntry key value rest

def valueAt? (key : Value) (entries : List (Value × Value)) : Option Value :=
  (entries.find? fun e => e.1.same key).map (·.2)

mutual

/-- A value over another. Mappings are laid over one another entry by entry; any other value hides what
is below it. -/
def overlay : Value → Value → Value
  | .map top, .map base => .map (overlayEntries top base)
  | top, _ => top

def overlayEntries : List (Value × Value) → List (Value × Value) → List (Value × Value)
  | [], base => base
  | (key, value) :: rest, base =>
    overlayEntries rest (putEntry key (overlay value ((valueAt? key base).getD .null)) base)

end

/-- All layers. A file that says nothing, and an empty mapping, leave what is below as it is. -/
def layered (file overrides : Value) : Value :=
  let lay (top base : Value) : Value := if top.isTruthy then overlay top base else base
  lay overrides (lay file defaults)

/-- The fields of a section; one that is missing, or says nothing, has none. -/
def sectionEntries (config : Value) (name : String) : List (Value × Value) :=
  ((config.entries?.bind (Value.lookup? name)).bind Value.entries?).getD []

/-- A list given for a field counts as a tuple. -/
def frozen : Value → Value
  | .list items => .tuple items
  | v => v

/-- What a mapping says about each known field; the default, if it says nothing. -/
def effective (config : Value) : List (String × List (String × Value)) :=
  fields.map fun (name, known) =>
    (name, known.map fun (field, default) =>
      (field, ((Value.lookup? field (sectionEntries config name)).map frozen).getD default))

def isDefault (config : Value) : Bool :=
  (effective config).all fun s =>
    s.2.all fun f => (((fields.lookup s.1).getD []).lookup f.1).any (·.same f.2)

def field (config : Value) (name field : String) : Value :=
  ((((effective config).lookup name).getD []).lookup field).getD .null

def texts (v : Value) : List String := (v.items?.getD []).filterMap Value.text?

/-- The settings that a mapping describes. Values of a wrong shape have been refused before. -/
def ofValue (config : Value) : Settings where
  expansion := {
    majorSuits := texts (field config "expansion" "major_suits")
    minorSuits := texts (field config "expansion" "minor_suits")
    anySuits := texts (field config "expansion" "any_suits")
    relayAlertable := (field config "expansion" "relay_alertable").isTruthy }
  pruning := {
    illegal := (field config "prune" "prune_illegal").isTruthy
    empty := (field config "prune" "prune_empty").isTruthy }
  display := {
    suitSymbols := (field config "render" "suit_symbols").isTruthy
    separator := ((field config "render" "sequence_separator").text?).getD "-" }

end Settings

end BidBook
