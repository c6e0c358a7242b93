import BidBook.Settings.Layers

/-! # What layered settings say

The defaults are written out as a mapping of sections, the other layers are laid over it, and the fields
are looked up in the result. All in all a field has the value that the uppermost layer gives it, out of
those that do, however the layers overlap; sections and keys that are not known do not matter.

* `Settings.lookup?_overlayEntries` — what is found in entries laid over others.
* `Settings.held?` — the value that a layer gives to a field.
* `Settings.IsLayer` — layers of the right shape.
* `Settings.held?_laidOver` — a layer over another, field by field.
* `Settings.trimmed` — a layer without what is not known.
* `Settings.effective_layered` — the values of all fields.
-/

namespace BidBook

/-! ## Entries over entries -/

namespace Value

def isMap (v : Value) : Bool := v.entries?.isSome

/-- No text is the key of two entries. -/
def Once (entries : List (Value × Value)) : Prop := (entries.filterMap (·.1.text?)).Nodup

instance (entries : List (Value × Value)) : Decidable (Once entries) :=
  inferInstanceAs (Decidable (List.Nodup _))

variable {k key v : Value} {name : String} {entries top base : List (Value × Value)}

theorem isMap_iff : v.isMap = true ↔ ∃ entries, v = .map entries := by
  cases v <;> simp [isMap, entries?]

theorem same_text (v : Value) (name : String) : v.same (.text name) = v.isText name := by
  cases v <;> rfl

/-- Equal keys are the same text, or neither is a text. -/
theorem isText_of_same (alike : k.same key = true) (name : String) : k.isText name = key.isText name := by
  cases key with
  | text s =>
    rw [same_text, isText_iff] at alike
    rw [alike]
  | _ =>
    cases k with
    | text s => cases alike
    | _ => rfl

theorem lookup?_cons (name : String) (e : Value × Value) (entries : List (Value × Value)) :
    lookup? name (e :: entries) = if e.1.isText name then some e.2 else lookup? name entries := by
  rw [lookup?, List.find?_cons]
  cases e.1.isText name <;> rfl

theorem lookup?_filter {keeps : Value × Value → Bool}
    (kept : ∀ e : Value × Value, e.1.isText name = true → keeps e = true)
    (entries : List (Value × Value)) : lookup? name (entries.filter keeps) = lookup? name entries := by
  induction entries with
  | nil => rfl
  | cons e entries ih =>
    rw [List.filter_cons, lookup?_cons]
    by_cases here : e.1.isText name = true
    · rw [if_pos (kept e here), lookup?_cons, if_pos here, if_pos here]
    · rw [if_neg here, ← ih]
      split
      · rw [lookup?_cons, if_neg here]
      · rfl

theorem lookup?_map (change : Value → Value → Value) (name : String) (entries : List (Value × Value)) :
    lookup? name (entries.map fun e => (e.1, change e.1 e.2)) =
      (lookup? name entries).map (change (.text name)) := by
  induction entries with
  | nil => rfl
  | cons e entries ih =>
    rw [List.map_cons, lookup?_cons, lookup?_cons, ih]
    by_cases here : e.1.isText name = true
    · rw [if_pos here, if_pos here, Option.map_some, isText_iff.1 here]
    · rw [if_neg here, if_neg here]

theorem lookup?_eq_none_iff : lookup? name entries = none ↔ name ∉ entries.filterMap (·.1.text?) := by
  induction entries with
  | nil => simp [lookup?]
  | cons e entries ih =>
    obtain ⟨k, v⟩ := e
    rw [lookup?_cons]
    cases k with
    | text s =>
      by_cases same : s = name
      · simp [isText, text?, same]
      · simpa [isText, text?, same, Ne.symm same] using ih
    | _ => simpa [isText, text?] using ih

theorem Once.sublist (once : Once entries) {fewer : List (Value × Value)} (among : fewer.Sublist entries) :
    Once fewer := List.Nodup.sublist (among.filterMap _) once

/-- Behind an entry with a text as its key there is no other. -/
theorem Once.lookup?_eq_none (once : Once ((.text name, v) :: entries)) : lookup? name entries = none :=
  lookup?_eq_none_iff.2 (List.nodup_cons.1 once).1

end Value

namespace Settings

open Value

theorem valueAt?_text (name : String) (entries : List (Value × Value)) :
    valueAt? (.text name) entries = lookup? name entries := by
  simp only [valueAt?, same_text, lookup?]

theorem lookup?_putEntry (key v : Value) (name : String) (entries : List (Value × Value)) :
    lookup? name (putEntry key v entries) = if key.isText name then some v else lookup? name entries := by
  induction entries with
  | nil => exact lookup?_cons name (key, v) []
  | cons e entries ih =>
    rw [putEntry]
    split
    · next alike =>
      rw [lookup?_cons, lookup?_cons, isText_of_same alike]
      split <;> rfl
    · next other =>
      rw [lookup?_cons, lookup?_cons, ih]
      by_cases here : e.1.isText name = true
      · have apart : key.isText name = false := by
          rw [Bool.eq_false_iff]
          intro text
          rw [isText_iff.1 here, isText_iff.1 text, same_text] at other
          simp [isText] at other
        rw [if_pos here, if_neg (by simp [apart]), if_pos here]
      · rw [if_neg here, if_neg here]

/-- Entries over others, each text being a key once: what both say something about is overlaid. -/
theorem lookup?_overlayEntries (once : Once top) (name : String) (base : List (Value × Value)) :
    lookup? name (overlayEntries top base) =
      ((lookup? name top).map fun v => overlay v ((lookup? name base).getD .null)).or
        (lookup? name base) := by
  -- the entries are laid over one after another, and none of the later ones touches the first
  induction top generalizing base with
  | nil => rw [overlayEntries]; rfl
  | cons e top ih =>
    obtain ⟨key, value⟩ := e
    rw [overlayEntries, ih (once.sublist (List.sublist_cons_self _ _)), lookup?_putEntry, lookup?_cons]
    by_cases here : key.isText name = true
    · obtain rfl := isText_iff.1 here
      rw [once.lookup?_eq_none, if_pos here, if_pos here, valueAt?_text]
      rfl
    · rw [if_neg here, if_neg here]

theorem overlay_of_not_isMap {v : Value} (plain : v.isMap = false) (base : Value) : overlay v base = v := by
  unfold overlay
  split
  · cases plain
  · rfl

/-! ## Fields of layers -/

/-- The section that a layer has under a name. -/
def sectionAt? (layer : Value) (name : String) : Option Value := layer.entries?.bind (lookup? name)

/-- The value that a layer gives to a field. -/
def held? (layer : Value) (name field : String) : Option Value :=
  lookup? field (sectionEntries layer name)

/-- A layer over another. One that says nothing leaves it as it is. -/
def laidOver (top base : Value) : Value := if top.isTruthy then overlay top base else base

/-- Unless it says nothing, a layer is a mapping, and so are its known sections, while the values of
known fields are none. -/
structure IsLayer (layer : Value) : Prop where
  whole : layer.isTruthy = true → layer.isMap = true
  once : Once (layer.entries?.getD [])
  sections : ∀ s ∈ fields, ∀ v ∈ sectionAt? layer s.1, v.isMap = true
  onceWithin : ∀ s ∈ fields, Once (sectionEntries layer s.1)
  plain : ∀ s ∈ fields, ∀ f ∈ s.2, ∀ v ∈ held? layer s.1 f.1, v.isMap = false

instance (layer : Value) : Decidable (IsLayer layer) :=
  decidable_of_iff
    ((layer.isTruthy = true → layer.isMap = true) ∧ Once (layer.entries?.getD []) ∧
      (∀ s ∈ fields, ∀ v ∈ sectionAt? layer s.1, v.isMap = true) ∧
      (∀ s ∈ fields, Once (sectionEntries layer s.1)) ∧
      ∀ s ∈ fields, ∀ f ∈ s.2, ∀ v ∈ held? layer s.1 f.1, v.isMap = false)
    ⟨fun ⟨whole, once, sections, onceWithin, plain⟩ => ⟨whole, once, sections, onceWithin, plain⟩,
      fun h => ⟨h.whole, h.once, h.sections, h.onceWithin, h.plain⟩⟩

variable {top base : Value} {s : String × List (String × Value)} {f : String × Value}

theorem sectionEntries_of_sectionAt? {v : Value} {name : String} {entries : List (Value × Value)}
    (there : sectionAt? v name = some (.map entries)) : sectionEntries v name = entries := by
  rw [sectionEntries, ← sectionAt?, there]
  rfl

theorem sectionAt?_of_not_isTruthy (silent : top.isTruthy = false) (name : String) :
    sectionAt? top name = none := by
  cases top with
  | map entries =>
    have noEntry : entries = [] := by simpa [isTruthy] using silent
    rw [noEntry]
    rfl
  | _ => rfl

/-- A layer over another that has a section lays its entries over those of that section. -/
theorem sectionAt?_laidOver (layer : IsLayer top) (known : s ∈ fields) {entries : List (Value × Value)}
    (there : sectionAt? base s.1 = some (.map entries)) :
    sectionAt? (laidOver top base) s.1 = some (.map (overlayEntries (sectionEntries top s.1) entries)) := by
  rw [laidOver, sectionEntries, ← sectionAt?]
  by_cases loud : top.isTruthy = true
  · obtain ⟨above, rfl⟩ := isMap_iff.1 (layer.whole loud)
    obtain ⟨below, rfl⟩ : ∃ below, base = .map below := by
      cases base with
      | map below => exact ⟨below, rfl⟩
      | _ => cases there
    have found : sectionAt? (overlay (.map above) (.map below)) s.1 =
        ((sectionAt? (.map above) s.1).map fun v => overlay v (.map entries)).or (some (.map entries)) := by
      have once : Once above := layer.once
      have there' : lookup? s.1 below = some (.map entries) := there
      rw [overlay]
      show lookup? s.1 (overlayEntries above below) = _
      rw [lookup?_overlayEntries once, there']
      rfl
    rw [if_pos loud, found]
    cases own : sectionAt? (.map above) s.1 with
    | none => rw [Option.map_none, Option.none_or]; rfl
    | some v =>
      obtain ⟨inner, rfl⟩ := isMap_iff.1 (layer.sections s known v own)
      rw [Option.map_some, Option.some_or, overlay]
      rfl
  · rw [if_neg loud, there, sectionAt?_of_not_isTruthy (by simpa using loud)]
    rfl

/-- A layer over another, field by field. -/
theorem held?_laidOver (layer : IsLayer top) (known : s ∈ fields) (of : f ∈ s.2)
    (there : ∃ entries, sectionAt? base s.1 = some (.map entries)) :
    held? (laidOver top base) s.1 f.1 = (held? top s.1 f.1).or (held? base s.1 f.1) := by
  obtain ⟨entries, there⟩ := there
  have kept : (held? top s.1 f.1).map (fun v => overlay v ((lookup? f.1 entries).getD .null)) =
      held? top s.1 f.1 := by
    cases held : held? top s.1 f.1 with
    | none => rfl
    | some v => rw [Option.map_some, overlay_of_not_isMap (layer.plain s known f of v held)]
  rw [held?, sectionEntries_of_sectionAt? (sectionAt?_laidOver layer known there),
    lookup?_overlayEntries (layer.onceWithin s known), ← held?, kept, held?, held?,
    sectionEntries_of_sectionAt? there]

/-! ## All layers -/

variable {file overrides : Value}

theorem layered_eq (file overrides : Value) :
    layered file overrides = laidOver overrides (laidOver file defaults) := rfl

theorem sectionAt?_defaults (known : s ∈ fields) : sectionAt? defaults s.1 = some (sectionValue s.2) := by
  have table : ∀ s ∈ fields, sectionAt? defaults s.1 = some (sectionValue s.2) := by
    simp only [fields, List.forall_mem_cons]
    exact ⟨rfl, rfl, rfl, rfl, nofun⟩
  exact table s known

/-- The bottom layer holds every field, and no default is a list. -/
theorem held?_defaults (known : s ∈ fields) (of : f ∈ s.2) :
    held? defaults s.1 f.1 = some f.2 ∧ frozen f.2 = f.2 := by
  have table : ∀ s ∈ fields, ∀ f ∈ s.2, held? defaults s.1 f.1 = some f.2 ∧ frozen f.2 = f.2 := by
    simp only [fields, List.forall_mem_cons]
    refine ⟨⟨⟨rfl, rfl⟩, ⟨rfl, rfl⟩, ⟨rfl, rfl⟩, ⟨rfl, rfl⟩, nofun⟩, ?_⟩
    exact ⟨⟨⟨rfl, rfl⟩, ⟨rfl, rfl⟩, nofun⟩, ⟨⟨rfl, rfl⟩, ⟨rfl, rfl⟩, nofun⟩,
      ⟨⟨rfl, rfl⟩, ⟨rfl, rfl⟩, nofun⟩, nofun⟩
  exact table s known f of

theorem held?_layered (below : IsLayer file) (above : IsLayer overrides) (known : s ∈ fields)
    (of : f ∈ s.2) :
    held? (layered file overrides) s.1 f.1 =
      (held? overrides s.1 f.1).or ((held? file s.1 f.1).or (some f.2)) := by
  have bottom : sectionAt? defaults s.1 = some (.map (s.2.map fun f => (.text f.1, f.2))) :=
    sectionAt?_defaults known
  have middle := sectionAt?_laidOver below known bottom
  rw [layered_eq, held?_laidOver above known of ⟨_, middle⟩, held?_laidOver below known of ⟨_, bottom⟩,
    (held?_defaults known of).1]

/-- The values that two layers over the defaults give to all fields. -/
def prevailing (file overrides : Value) : List (String × List (String × Value)) :=
  fields.map fun (name, known) =>
    (name, known.map fun (field, default) =>
      (field, (((held? overrides name field).or (held? file name field)).map frozen).getD default))

theorem effective_eq_prevailing (below : IsLayer file) (above : IsLayer overrides) :
    effective (layered file overrides) = prevailing file overrides := by
  refine List.map_congr_left fun s known => Prod.ext rfl (List.map_congr_left fun f of => Prod.ext rfl ?_)
  show ((held? (layered file overrides) s.1 f.1).map frozen).getD f.2 = _
  rw [held?_layered below above known of, ← Option.or_assoc]
  cases held : (held? overrides s.1 f.1).or (held? file s.1 f.1) with
  | some v => simp only [held, Option.some_or]
  | none => simp [held, (held?_defaults known of).2]

/-! ## What is not known -/

def knownFields? (key : Value) : Option (List (String × Value)) := key.text?.bind (fields.lookup ·)

/-- A section without keys that are not known. -/
def trimmedSection (known : List (String × Value)) : Value → Value
  | .map entries => .map (entries.filter fun e => e.1.text?.any fun field => (known.lookup field).isSome)
  | v => v

/-- A layer without sections and keys that are not known. -/
def trimmed : Value → Value
  | .map sections =>
    .map ((sections.filter fun e => (knownFields? e.1).isSome).map fun e =>
      (e.1, trimmedSection ((knownFields? e.1).getD []) e.2))
  | v => v

theorem knownFields?_text (known : s ∈ fields) : knownFields? (.text s.1) = some s.2 := by
  have table : ∀ s ∈ fields, knownFields? (.text s.1) = some s.2 := by
    simp only [fields, List.forall_mem_cons]
    exact ⟨rfl, rfl, rfl, rfl, nofun⟩
  exact table s known

theorem sectionAt?_trimmed (known : s ∈ fields) (layer : Value) :
    sectionAt? (trimmed layer) s.1 = (sectionAt? layer s.1).map (trimmedSection s.2) := by
  cases layer with
  | map sections =>
    have kept : ∀ e : Value × Value, e.1.isText s.1 = true → (knownFields? e.1).isSome = true := by
      intro e here
      rw [isText_iff.1 here, knownFields?_text known]
      rfl
    show lookup? s.1 (List.map _ _) = (lookup? s.1 sections).map _
    rw [lookup?_map fun key v => trimmedSection ((knownFields? key).getD []) v, lookup?_filter kept,
      knownFields?_text known]
    rfl
  | _ => rfl

/-- The entries of a known section that are left. -/
theorem sectionEntries_trimmed (known : s ∈ fields) (layer : Value) :
    sectionEntries (trimmed layer) s.1 =
      (sectionEntries layer s.1).filter fun e => e.1.text?.any fun field => (s.2.lookup field).isSome := by
  rw [sectionEntries, ← sectionAt?, sectionAt?_trimmed known, sectionEntries, ← sectionAt?]
  cases sectionAt? layer s.1 with
  | none => rfl
  | some v => cases v <;> rfl

theorem held?_trimmed (known : s ∈ fields) (of : f ∈ s.2) (layer : Value) :
    held? (trimmed layer) s.1 f.1 = held? layer s.1 f.1 := by
  have there : (s.2.lookup f.1).isSome = true := by
    have table : ∀ s ∈ fields, ∀ f ∈ s.2, (s.2.lookup f.1).isSome = true := by decide
    exact table s known f of
  rw [held?, sectionEntries_trimmed known, lookup?_filter, held?]
  intro e here
  rw [isText_iff.1 here]
  exact there

theorem IsLayer.trimmed {layer : Value} (shaped : IsLayer layer) : IsLayer (trimmed layer) where
  whole loud := by
    cases layer with
    | map sections => rfl
    | _ => exact shaped.whole loud
  once := by
    cases layer with
    | map sections =>
      have once : Once sections := shaped.once
      show Once (List.map _ _)
      rw [Once, List.filterMap_map]
      exact once.sublist List.filter_sublist
    | _ => exact shaped.once
  sections s known v there := by
    rw [sectionAt?_trimmed known, Option.mem_def, Option.map_eq_some_iff] at there
    obtain ⟨v, own, rfl⟩ := there
    obtain ⟨entries, rfl⟩ := isMap_iff.1 (shaped.sections s known v own)
    rfl
  onceWithin s known := by
    rw [sectionEntries_trimmed known]
    exact (shaped.onceWithin s known).sublist List.filter_sublist
  plain s known f of v held := by
    rw [held?_trimmed known of] at held
    exact shaped.plain s known f of v held

/-- Every field has the value that the uppermost layer gives it, out of those that do. Sections and keys that
are not known make no difference, and without layers there are only the defaults. -/
theorem effective_layered (below : IsLayer file) (above : IsLayer overrides) :
    effective (layered file overrides) = prevailing file overrides ∧
    effective (layered (trimmed file) (trimmed overrides)) = effective (layered file overrides) ∧
    effective (layered .null .null) = fields ∧ ofValue (layered .null .null) = {} := by
  refine ⟨effective_eq_prevailing below above, ?_, rfl, rfl⟩
  rw [effective_eq_prevailing below.trimmed above.trimmed, effective_eq_prevailing below above]
  refine List.map_congr_left fun s known => Prod.ext rfl (List.map_congr_left fun f of => ?_)
  simp only [held?_trimmed known of]

/-- A file with a list of suits, a field that the layer above it holds as well, and unknown entries. -/
def filed : Value := .map [
  (.text "expansion", .map [
    (.text "major_suits", .list [.text "S"]), (.text "relay_alertable", .bool false),
    (.text "colours", .map [(.text "S", .int 1)])]),
  (.text "render", .map [(.text "sequence_separator", .text " ")]),
  (.text "window", .int 3), (.int 1, .null)]

/-- Overrides with another section, an empty one, and unknown entries. -/
def given : Value := .map [
  (.text "prune", .map [(.text "prune_empty", .bool false)]),
  (.text "expansion", .map [(.text "relay_alertable", .null), (.text "colours", .bool true)]),
  (.text "logging", .map []), (.text "cards", .map [(.text "major_suits", .list [])])]

theorem effective_layered_filed : IsLayer filed ∧ IsLayer given ∧ effective (layered filed given) =
    [("expansion",
        [("major_suits", .tuple [.text "S"]), ("minor_suits", .tuple [.text "C", .text "D"]),
          ("any_suits", .tuple [.text "C", .text "D", .text "H", .text "S"]), ("relay_alertable", .null)]),
      ("prune", [("prune_illegal", .bool true), ("prune_empty", .bool false)]),
      ("render", [("suit_symbols", .bool false), ("sequence_separator", .text " ")]),
      ("logging", [("level", .text "INFO"), ("format_json", .bool false)])] ∧
    effective (layered (trimmed filed) (trimmed given)) = effective (layered filed given) := by
  have below : IsLayer filed := by decide
  have above : IsLayer given := by decide
  obtain ⟨values, unknown, -, -⟩ := effective_layered below above
  exact ⟨below, above, values, unknown⟩

end Settings

end BidBook
