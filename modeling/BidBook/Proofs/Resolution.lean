import BidBook.Proofs.Placeholders
import BidBook.Text.Digit

/-! # Resolving placeholders

Descriptions are resolved from the inside out. Where every shorthand on the way is a placeholder,
the nearest position that knows a placeholder decides what it stands for: it might as well have been
filled in from the beginning.

* `Placeholder.fillAll` — a text with several placeholders filled in, one after another.
* `Glossary.Plain`, `Glossary.Leaves`, `Glossary.Decides` — which placeholders a position knows.
* `resolveFrom_eq_of_filled` — what the nearest position decides.
-/

namespace BidBook

namespace Placeholder

variable {table ps : List Placeholder} {a b : List Char}

def fillAll (ps : List Placeholder) (cs : List Char) : List Char := ps.foldl (fun cs p => p.fill cs) cs

theorem filled_fillAll (known : ∀ q ∈ table, Known q) (members : ∀ p ∈ ps, p ∈ table)
    (filled : Filled table a b) : Filled table a (fillAll ps b) := by
  induction ps generalizing b with
  | nil => exact filled
  | cons p ps ih =>
    rw [List.forall_mem_cons] at members
    exact ih members.2 (filled.fill_right known members.1)

/-- Filling in placeholders in both texts takes away the differences that they made. -/
theorem Filled.fillAll (known : ∀ q ∈ table, Known q) (named : ∀ p ∈ ps, p.name ∈ names)
    (consistent : ∀ p ∈ ps, ∀ q ∈ table, q.name = p.name → q = p) (filled : Filled table a b) :
    Filled (table.filter (· ∉ ps)) (fillAll ps a) (fillAll ps b) := by
  induction ps generalizing table a b with
  | nil => simpa [Placeholder.fillAll] using filled
  | cons p ps ih =>
    rw [List.forall_mem_cons] at named consistent
    have first := filled.fill known named.1 consistent.1
    have rest := ih (fun q member => known q (List.mem_filter.1 member).1) named.2
      (fun p' member q inside => consistent.2 p' member q (List.mem_filter.1 inside).1) first
    rw [List.filter_filter] at rest
    have same : (table.filter fun q => decide (q ∉ ps) && decide (q ≠ p)) =
        table.filter (· ∉ p :: ps) := by
      refine List.filter_congr fun q _ => ?_
      simp [Bool.and_comm]
    rwa [same] at rest

theorem Filled.fillAll_of_absent (known : ∀ q ∈ table, Known q) (named : ∀ p ∈ ps, p.name ∈ names)
    (absent : ∀ p ∈ ps, ∀ q ∈ table, q.name ≠ p.name) (filled : Filled table a b) :
    Filled table (Placeholder.fillAll ps a) (Placeholder.fillAll ps b) := by
  have rest := filled.fillAll known named
    fun p member q inside same => absurd same (absent p member q inside)
  rwa [List.filter_eq_self.2 fun q inside => by
    simpa using fun member => absent q member q inside rfl] at rest

/-- Once all placeholders are filled in, the texts are the same. -/
theorem Filled.fillAll_eq (known : ∀ q ∈ table, Known q) (named : ∀ p ∈ ps, p.name ∈ names)
    (consistent : ∀ p ∈ ps, ∀ q ∈ table, q.name = p.name → q = p) (all : ∀ q ∈ table, q ∈ ps)
    (filled : Filled table a b) : Placeholder.fillAll ps a = Placeholder.fillAll ps b := by
  have rest := filled.fillAll known named consistent
  rw [List.filter_eq_nil_iff.2 fun q inside => by simpa using all q inside] at rest
  exact rest.eq_of_nil

end Placeholder

open Placeholder

/-! ## One position -/

/-- All shorthands are placeholders. -/
def Glossary.Plain (g : Glossary) : Prop := ∀ s ∈ g, ∃ p, Known p ∧ s = p.shorthand

/-- No shorthand is for a placeholder with one of these names. -/
def Glossary.Leaves (g : Glossary) (table : List Placeholder) : Prop :=
  ∀ p : Placeholder, p.shorthand ∈ g → ∀ q ∈ table, q.name ≠ p.name

/-- There are shorthands for these placeholders, and no others with their names. -/
structure Glossary.Decides (g : Glossary) (table : List Placeholder) : Prop where
  present : ∀ q ∈ table, q.shorthand ∈ g
  only : ∀ p : Placeholder, p.shorthand ∈ g → ∀ q ∈ table, q.name = p.name → q = p

theorem Glossary.Plain.exists_placeholders {g : Glossary} (plain : g.Plain) :
    ∃ ps : List Placeholder, g.entries = ps.map shorthand ∧ ∀ p ∈ ps, Known p := by
  have all : ∀ ss : List Shorthand, (∀ s ∈ ss, ∃ p, Known p ∧ s = p.shorthand) →
      ∃ ps : List Placeholder, ss = ps.map shorthand ∧ ∀ p ∈ ps, Known p := by
    intro ss
    induction ss with
    | nil => exact fun _ => ⟨[], rfl, by simp⟩
    | cons s ss ih =>
      intro each
      rw [List.forall_mem_cons] at each
      obtain ⟨⟨p, known, rfl⟩, rest⟩ := each
      obtain ⟨ps, rfl, knowns⟩ := ih rest
      exact ⟨p :: ps, rfl, List.forall_mem_cons.2 ⟨known, knowns⟩⟩
  exact all g.entries plain

theorem Glossary.expand_eq [Pattern.CharNames] {g : Glossary} {ps : List Placeholder}
    (entries : g.entries = ps.map shorthand) (known : ∀ p ∈ ps, Known p) (text : String) :
    g.expand text = .ok (String.ofList (fillAll ps text.toList)) := by
  rw [expand, entries]
  clear entries
  induction ps generalizing text with
  | nil => simp [fillAll, pure, Except.pure]
  | cons p ps ih =>
    rw [List.forall_mem_cons] at known
    rw [List.map_cons, List.foldlM_cons, expand_shorthand known.1.name]
    show List.foldlM _ _ _ = _
    rw [ih known.2, String.toList_ofList]
    rfl

theorem isDigit_of_mem_toString (distance : Nat) :
    ∀ c ∈ (toString distance).toList, Text.isDigit c = true := by
  intro c member
  rw [Nat.toString_eq_ofList_toDigits, String.toList_ofList] at member
  exact Text.isDigit_of_isDigit (Nat.isDigit_of_mem_toDigits (by decide) (by decide) member)

theorem toList_toString_ne_nil (distance : Nat) : (toString distance).toList ≠ [] := by
  rw [Nat.toString_eq_ofList_toDigits, String.toList_ofList]
  exact Nat.toDigits_ne_nil

section Place

variable {table ps : List Placeholder} {place : Place} {a b : String}

theorem resolveAt_eq [Pattern.CharNames] (entries : place.glossary.entries = ps.map shorthand)
    (known : ∀ p ∈ ps, Known p) (distance : Nat) (text : String) :
    resolveAt distance place text = .ok (String.ofList
      (replaceDepth (toString distance).toList place.strainText.toList 0 (fillAll ps text.toList))) := by
  rw [resolveAt, Glossary.expand_eq entries known]
  show Except.ok _ = _
  rw [String.toList_ofList]

/-- A position that knows none of the placeholders leaves them to those above. -/
theorem resolveAt_of_leaves [Pattern.CharNames] (known : ∀ q ∈ table, Known q) (plain : place.glossary.Plain)
    (leaves : place.glossary.Leaves table) (distance : Nat) (filled : Filled table a.toList b.toList) :
    ∃ a' b', resolveAt distance place a = .ok a' ∧ resolveAt distance place b = .ok b' ∧
      Filled table a'.toList b'.toList := by
  obtain ⟨ps, entries, knowns⟩ := plain.exists_placeholders
  have unknown : ∀ p ∈ ps, ∀ q ∈ table, q.name ≠ p.name := fun p member => leaves p (by
    rw [Glossary.mem_iff, entries]
    exact List.mem_map_of_mem member)
  refine ⟨_, _, resolveAt_eq entries knowns distance a, resolveAt_eq entries knowns distance b, ?_⟩
  rw [String.toList_ofList, String.toList_ofList]
  exact (filled.fillAll_of_absent known (fun p member => (knowns p member).name) unknown).replaceDepth known
    (toList_toString_ne_nil distance) (isDigit_of_mem_toString distance) _

/-- A position that knows all of the placeholders decides what they stand for. -/
theorem resolveAt_eq_of_decides [Pattern.CharNames] (known : ∀ q ∈ table, Known q)
    (plain : place.glossary.Plain)
    (decides : place.glossary.Decides table) (distance : Nat) (filled : Filled table a.toList b.toList) :
    resolveAt distance place a = resolveAt distance place b := by
  obtain ⟨ps, entries, knowns⟩ := plain.exists_placeholders
  have consistent : ∀ p ∈ ps, ∀ q ∈ table, q.name = p.name → q = p := fun p member =>
    decides.only p (by
      rw [Glossary.mem_iff, entries]
      exact List.mem_map_of_mem member)
  have all : ∀ q ∈ table, q ∈ ps := by
    intro q inside
    have member := decides.present q inside
    rw [Glossary.mem_iff, entries, List.mem_map] at member
    obtain ⟨p, member, same⟩ := member
    exact shorthand_injective same ▸ member
  rw [resolveAt_eq entries knowns, resolveAt_eq entries knowns,
    filled.fillAll_eq known (fun p member => (knowns p member).name) consistent all]

end Place

/-! ## All positions -/

theorem exists_resolveFrom [Pattern.CharNames] {places : List Place}
    (plain : ∀ place ∈ places, place.glossary.Plain) (distance : Nat) (text : String) :
    ∃ out, resolveFrom distance places text = .ok out := by
  induction places generalizing distance text with
  | nil => exact ⟨text, rfl⟩
  | cons place places ih =>
    rw [List.forall_mem_cons] at plain
    obtain ⟨ps, entries, knowns⟩ := plain.1.exists_placeholders
    obtain ⟨out, resolved⟩ := ih plain.2 (distance + 1) (String.ofList
      (replaceDepth (toString distance).toList place.strainText.toList 0 (fillAll ps text.toList)))
    refine ⟨out, ?_⟩
    rw [resolveFrom, resolveAt_eq entries knowns]
    exact resolved

/-- The nearest position that knows placeholders decides what they stand for. -/
theorem resolveFrom_eq_of_filled [Pattern.CharNames] {table : List Placeholder}
    {near far : List Place} {place : Place} (known : ∀ q ∈ table, Known q)
    (plain : ∀ p ∈ near ++ place :: far, p.glossary.Plain) (leaves : ∀ p ∈ near, p.glossary.Leaves table)
    (decides : place.glossary.Decides table) (distance : Nat) {a b : String}
    (filled : Filled table a.toList b.toList) : ∃ out,
      resolveFrom distance (near ++ place :: far) a = .ok out ∧
        resolveFrom distance (near ++ place :: far) b = .ok out := by
  -- places that leave the placeholders alone change nothing in either text
  induction near generalizing distance a b with
  | nil =>
    rw [List.nil_append] at plain ⊢
    obtain ⟨out, resolved⟩ := exists_resolveFrom plain distance a
    refine ⟨out, resolved, ?_⟩
    rw [← resolved, resolveFrom, resolveFrom, resolveAt_eq_of_decides known
      (plain place List.mem_cons_self) decides distance filled]
  | cons first near ih =>
    rw [List.cons_append, List.forall_mem_cons] at plain
    rw [List.forall_mem_cons] at leaves
    obtain ⟨a', b', left, right, filled⟩ :=
      resolveAt_of_leaves known plain.1 leaves.1 distance filled
    rw [List.cons_append, resolveFrom, resolveFrom, left, right]
    exact ih plain.2 leaves.2 (distance + 1) filled

theorem resolve_fillAll [Pattern.CharNames] {table : List Placeholder} {near far : List Place} {place : Place}
    (known : ∀ q ∈ table, Known q)
    (plain : ∀ p ∈ near ++ place :: far, p.glossary.Plain) (leaves : ∀ p ∈ near, p.glossary.Leaves table)
    (decides : place.glossary.Decides table) (text : String) : ∃ out,
      resolve (near ++ place :: far) text = .ok out ∧
        resolve (near ++ place :: far) (String.ofList (fillAll table text.toList)) = .ok out := by
  have filled : Filled table text.toList (String.ofList (fillAll table text.toList)).toList := by
    rw [String.toList_ofList]
    exact filled_fillAll known (fun _ member => member) (.refl _)
  obtain ⟨out, left, right⟩ :=
    resolveFrom_eq_of_filled known plain leaves decides 0 filled
  refine ⟨Text.strip out, ?_, ?_⟩
  · rw [resolve, left]
    rfl
  · rw [resolve, right]
    rfl

end BidBook
