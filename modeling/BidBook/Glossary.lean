import BidBook.Pattern.Reading

/-! # Glossaries

Descriptions are written with shorthands, and a position may carry a glossary of them. A shorthand is
a pattern and the text that stands for it; the text is taken literally.

* `Shorthand.expand` — a text with one shorthand written out.
* `Glossary` — shorthands in order, each once.
* `Glossary.expand` — a text with all of them written out, one after another.
-/

namespace BidBook

/-- A pattern and the text that its matches are written out as. -/
structure Shorthand where
  pattern : String
  replacement : String
  deriving DecidableEq, Repr

/-- The text with every match written out. It fails if the pattern is none. -/
def Shorthand.expand [Pattern.CharNames] (s : Shorthand) (text : String) : Except Pattern.Fault String :=
  Pattern.replace s.pattern s.replacement text

/-- Shorthands in the order in which they apply, each once. -/
structure Glossary where
  entries : List Shorthand
  nodup : entries.Nodup
  deriving DecidableEq

namespace Glossary

def empty : Glossary := ⟨[], List.nodup_nil⟩

instance : Inhabited Glossary := ⟨empty⟩

instance : Membership Shorthand Glossary := ⟨fun g s => s ∈ g.entries⟩

instance (s : Shorthand) (g : Glossary) : Decidable (s ∈ g) :=
  inferInstanceAs (Decidable (s ∈ g.entries))

/-- Puts a shorthand at the end, unless it is there already. -/
def add (g : Glossary) (s : Shorthand) : Glossary :=
  if h : s ∈ g.entries then g
  else
    { entries := g.entries ++ [s]
      nodup := List.nodup_append.2 ⟨g.nodup, by simp, fun a ha b hb e => by
        rw [List.mem_singleton] at hb
        exact h (hb ▸ e ▸ ha)⟩ }

def addAll (g : Glossary) (ss : List Shorthand) : Glossary := ss.foldl add g

/-- The glossary of a list of shorthands; of equal ones the first counts. -/
def ofList (ss : List Shorthand) : Glossary := empty.addAll ss

def size (g : Glossary) : Nat := g.entries.length

def misses (g : Glossary) (ss : List Shorthand) : Bool := ss.any fun s => decide (s ∉ g)

/-- The text with every shorthand written out in turn. -/
def expand [Pattern.CharNames] (g : Glossary) (text : String) : Except Pattern.Fault String :=
  g.entries.foldlM (fun text s => s.expand text) text

theorem mem_iff {g : Glossary} {s : Shorthand} : s ∈ g ↔ s ∈ g.entries := Iff.rfl

theorem entries_add (g : Glossary) (s : Shorthand) :
    (g.add s).entries = if s ∈ g.entries then g.entries else g.entries ++ [s] := by
  unfold add
  split <;> rfl

theorem add_of_mem {g : Glossary} {s : Shorthand} (h : s ∈ g.entries) : g.add s = g := by
  unfold add
  rw [dif_pos h]

theorem mem_add {g : Glossary} {s t : Shorthand} : t ∈ g.add s ↔ t ∈ g ∨ t = s := by
  rw [mem_iff, entries_add, mem_iff]
  split
  · next h => exact ⟨Or.inl, fun h' => h'.elim id fun e => e ▸ h⟩
  · simp

end Glossary

end BidBook
