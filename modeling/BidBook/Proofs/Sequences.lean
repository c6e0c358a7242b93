import BidBook.Auction
import BidBook.Proofs.Spelled

/-! # Sequences end to end

A sequence is taken apart at its dashes, and a slash is a dash, a pass and a dash again. Spaces vanish and
empty parts are left out, so nothing that stands at either end of a text makes a difference where two
texts meet: the parts of both are the parts of the one and behind them those of the other.

* `splitChars_append_dash`, `splitChars_append_slash` — the parts of two texts with a dash or a slash
  between them.
* `splitChars_eq` — dashes in front of a text make no parts.
* `split_join_iff` — which lists are the parts of what they make when joined.
* `split_homomorphic` — all of it for texts.
-/

namespace BidBook

namespace Sequence

/-! ## Characters -/

variable (cs ds : List Char)

theorem writeOutPasses_append : writeOutPasses (cs ++ ds) = writeOutPasses cs ++ writeOutPasses ds :=
  List.flatMap_append

theorem splitChars_append_dash : splitChars (cs ++ '-' :: ds) = splitChars cs ++ splitChars ds := by
  have dash : writeOutPasses ('-' :: ds) = '-' :: writeOutPasses ds := rfl
  rw [splitChars, writeOutPasses_append, dash, List.filter_append, List.filter_cons_of_pos (by decide),
    Text.splitAt_append_sep, List.filter_append]
  rfl

theorem splitChars_append_slash :
    splitChars (cs ++ '/' :: ds) = splitChars cs ++ ['P'] :: splitChars ds := by
  -- written out, the slash is a pass between two dashes
  have slash : splitChars (cs ++ '/' :: ds) = splitChars (cs ++ '-' :: 'P' :: '-' :: ds) := by
    rw [splitChars, splitChars, writeOutPasses_append, writeOutPasses_append]
    rfl
  have pass : splitChars ('P' :: '-' :: ds) = ['P'] :: splitChars ds := splitChars_append_dash ['P'] ds
  rw [slash, splitChars_append_dash, pass]

/-- Dashes in front of a text make no parts, so it does not matter whether they are taken off before. -/
theorem splitChars_eq : splitChars cs =
    (Text.splitAt '-' (((writeOutPasses cs).filter (· != ' ')).dropWhile (· == '-'))).filter
      (!·.isEmpty) := by
  rw [splitChars]
  induction (writeOutPasses cs).filter (· != ' ') with
  | nil => rfl
  | cons c rest ih =>
    by_cases dash : c = '-'
    · rw [dash, List.dropWhile_cons_of_pos (by decide), ← ih]
      rfl
    · rw [List.dropWhile_cons_of_neg (by simpa using dash)]

theorem ne_nil_of_mem_splitChars {cs part : List Char} (member : part ∈ splitChars cs) : part ≠ [] := by
  simpa using (List.mem_filter.1 member).2

/-! ## Texts -/

theorem split_append_dash (a b : String) : split (a ++ "-" ++ b) = split a ++ split b := by
  have chars : (a ++ "-" ++ b).toList = a.toList ++ '-' :: b.toList := by simp
  rw [split, chars, splitChars_append_dash, List.map_append]
  rfl

theorem split_append_slash (a b : String) : split (a ++ "/" ++ b) = split a ++ ["P"] ++ split b := by
  have chars : (a ++ "/" ++ b).toList = a.toList ++ '/' :: b.toList := by simp
  rw [split, chars, splitChars_append_slash, List.map_append, List.map_cons, List.append_assoc]
  rfl

theorem ne_empty_of_mem_split {text part : String} (member : part ∈ split text) : part ≠ "" := by
  obtain ⟨cs, listed, rfl⟩ := List.mem_map.1 member
  intro empty
  exact ne_nil_of_mem_splitChars listed (by simpa using congrArg String.toList empty)

/-- A list is made of the parts of what it makes when joined if its members are such as a sequence is
made of, and only then. -/
theorem split_join_iff {parts : List String} :
    split (join "-" parts) = parts ↔ ∀ part ∈ parts, part ≠ "" ∧ Single part := by
  constructor
  · intro same part member
    rw [← same] at member
    exact ⟨ne_empty_of_mem_split member, single_of_mem_split member⟩
  · intro good
    refine split_join (fun part member => (good part member).2) fun part member empty => ?_
    exact (good part member).1 (String.toList_eq_nil_iff.1 empty)

/-- Two texts with a dash between them have the parts of both, with a slash between them a pass in the
middle as well. Each part is a text that a sequence leaves in one piece, and whatever is made of such
texts comes apart into them. -/
theorem split_homomorphic (a b : String) (parts : List String) :
    split (a ++ "-" ++ b) = split a ++ split b ∧
      split (a ++ "/" ++ b) = split a ++ ["P"] ++ split b ∧
      (∀ part ∈ split a, part ≠ "" ∧ Single part) ∧
      (split (join "-" parts) = parts ↔ ∀ part ∈ parts, part ≠ "" ∧ Single part) :=
  ⟨split_append_dash a b, split_append_slash a b,
    fun _ member => ⟨ne_empty_of_mem_split member, single_of_mem_split member⟩, split_join_iff⟩

/-- Dashes, slashes and spaces on both sides of the seam. -/
theorem split_homomorphic_ragged :
    split "- 1C/ -/ 2 NT-" = ["1C", "P", "P", "2NT"] ∧ ("P" ≠ "" ∧ Single "P") ∧
      split (join "-" ["1C!", "2NT[a,b]"]) = ["1C!", "2NT[a,b]"] := by
  obtain ⟨dash, _, parts, joined⟩ := split_homomorphic "- 1C/ " "/ 2 NT-" ["1C!", "2NT[a,b]"]
  have first : split "- 1C/ " = ["1C", "P"] := by decide +kernel
  have second : split "/ 2 NT-" = ["P", "2NT"] := by decide +kernel
  rw [first, second] at dash
  exact ⟨dash, parts "P" (by simp [first]), joined.2 (by decide)⟩

end Sequence

end BidBook
