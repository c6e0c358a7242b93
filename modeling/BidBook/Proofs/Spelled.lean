import BidBook.Proofs.Written

/-! # Spelled tokens

A token in a tree comes from one part of a sequence, from one branch of a choice, or from a call. So its
text holds none of the characters at which sequences are taken apart, and what is written stays within
the limits.

* `Text.splitAt_append_sep` — a text is split at each occurrence on its own.
* `Sequence.Single`, `Sequence.split_join` — texts that a sequence leaves in one piece.
* `Token.Spelled` — tokens that can be read from a sequence again.
* `Token.spelled_of_read`, `Token.spelled_ofCall`, `Token.Spelled.of_mem_alternatives` — where they come from.
-/

namespace BidBook

namespace Text

theorem mem_of_mem_splitAt {sep c : Char} {cs part : List Char} (member : part ∈ splitAt sep cs)
    (inside : c ∈ part) : c ∈ cs := by
  induction cs generalizing part with
  | nil =>
    rw [splitAt, List.mem_singleton] at member
    exact member ▸ inside
  | cons d rest ih =>
    rw [splitAt] at member
    split at member
    · rcases List.mem_cons.1 member with rfl | later
      · cases inside
      · exact List.mem_cons_of_mem _ (ih later inside)
    · split at member
      · next noParts => exact absurd noParts (splitAt_ne_nil sep rest)
      · next first parts split =>
        rcases List.mem_cons.1 member with rfl | later
        · rcases List.mem_cons.1 inside with rfl | within
          · exact List.mem_cons_self
          · exact List.mem_cons_of_mem _ (ih (split ▸ List.mem_cons_self) within)
        · exact List.mem_cons_of_mem _ (ih (split ▸ List.mem_cons_of_mem _ later) inside)

/-- A text is split at each occurrence of the character on its own. -/
theorem splitAt_append_sep (sep : Char) (cs rest : List Char) :
    splitAt sep (cs ++ sep :: rest) = splitAt sep cs ++ splitAt sep rest := by
  induction cs with
  | nil => simp [splitAt]
  | cons c cs ih =>
    by_cases same : c = sep
    · simp [splitAt, same, ih]
    · have other : (c == sep) = false := by simpa using same
      cases split : splitAt sep cs with
      | nil => exact absurd split (splitAt_ne_nil sep cs)
      | cons part parts => simp [splitAt, other, ih, split]

theorem splitAt_append_cons {sep : Char} {part : List Char} (absent : sep ∉ part) (rest : List Char) :
    splitAt sep (part ++ sep :: rest) = part :: splitAt sep rest := by
  rw [splitAt_append_sep, splitAt_of_not_mem absent, List.singleton_append]

/-- Parts joined by a character that none of them has are split at it again. -/
theorem splitAt_joinWith {sep : Char} {parts : List (List Char)} (nonempty : parts ≠ [])
    (absent : ∀ part ∈ parts, sep ∉ part) : splitAt sep (joinWith [sep] parts) = parts := by
  induction parts with
  | nil => exact absurd rfl nonempty
  | cons part rest ih =>
    rw [List.forall_mem_cons] at absent
    cases rest with
    | nil => exact splitAt_of_not_mem absent.1
    | cons next rest =>
      rw [joinWith, List.append_assoc, List.singleton_append, splitAt_append_cons absent.1,
        ih (List.cons_ne_nil _ _) absent.2]
      simp

theorem mem_joinWith {c : Char} {sep : List Char} {parts : List (List Char)}
    (member : c ∈ joinWith sep parts) : c ∈ sep ∨ ∃ part ∈ parts, c ∈ part := by
  fun_induction joinWith sep parts with
  | case1 => cases member
  | case2 part => exact .inr ⟨part, List.mem_singleton_self _, member⟩
  | case3 part rest more ih =>
    rw [List.append_assoc, List.mem_append, List.mem_append] at member
    rcases member with here | between | later
    · exact .inr ⟨part, List.mem_cons_self, here⟩
    · exact .inl between
    · refine (ih later).imp_right ?_
      rintro ⟨part', place, inside⟩
      exact ⟨part', List.mem_cons_of_mem _ place, inside⟩

end Text

namespace Sequence

/-- The characters that mean something in a sequence, wherever they stand. -/
def breaks : List Char := ['-', '/', ' ']

/-- The text has none of these characters. -/
def Single (text : String) : Prop := ∀ a ∈ text.toList, a ∉ breaks

instance (text : String) : Decidable (Single text) :=
  decidable_of_iff ((text.toList.all fun a => !breaks.contains a) = true) (by simp [Single])

theorem slash_not_mem_writeOutPasses (cs : List Char) : '/' ∉ writeOutPasses cs := by
  rw [writeOutPasses, List.mem_flatMap]
  rintro ⟨c, _, inside⟩
  split at inside
  · simp at inside
  · next other => exact other (by simpa using (List.mem_singleton.1 inside).symm)

/-- The parts of a sequence are left in one piece. -/
theorem single_of_mem_split {text part : String} (member : part ∈ split text) : Single part := by
  obtain ⟨cs, listed, rfl⟩ := List.mem_map.1 member
  rw [splitChars, List.mem_filter] at listed
  intro a inside among
  rw [String.toList_ofList] at inside
  obtain ⟨there, noSpace⟩ := List.mem_filter.1 (Text.mem_of_mem_splitAt listed.1 inside)
  simp only [breaks, List.mem_cons, List.not_mem_nil, or_false] at among
  rcases among with rfl | rfl | rfl
  · exact Text.not_mem_of_mem_splitAt listed.1 inside
  · exact slash_not_mem_writeOutPasses _ there
  · simp at noSpace

theorem writeOutPasses_of_not_mem {cs : List Char} (absent : '/' ∉ cs) : writeOutPasses cs = cs := by
  induction cs with
  | nil => rfl
  | cons a rest ih =>
    rw [List.mem_cons, not_or] at absent
    have other : (a == '/') = false := by simpa using fun same : a = '/' => absent.1 same.symm
    have here := ih absent.2
    rw [writeOutPasses] at here ⊢
    rw [List.flatMap_cons, here, other]
    rfl

/-- Texts in one piece, joined by dashes, are the parts of a sequence again. -/
theorem split_join {parts : List String} (single : ∀ part ∈ parts, Single part)
    (nonempty : ∀ part ∈ parts, part.toList ≠ []) : split (join "-" parts) = parts := by
  have absent : ∀ a ∈ breaks, a ∉ "-".toList → a ∉ Text.joinWith "-".toList (parts.map String.toList) := by
    intro a among other member
    rcases Text.mem_joinWith member with between | ⟨part, place, inside⟩
    · exact other between
    · obtain ⟨text, listed, rfl⟩ := List.mem_map.1 place
      exact single text listed a inside among
  have spaces : (Text.joinWith "-".toList (parts.map String.toList)).filter (· != ' ') =
      Text.joinWith "-".toList (parts.map String.toList) := by
    rw [List.filter_eq_self]
    intro a member
    simpa using fun same : a = ' ' => absent ' ' (by decide) (by decide) (same ▸ member)
  cases parts with
  | nil => rfl
  | cons part rest =>
    have dashes : ∀ cs ∈ (part :: rest).map String.toList, '-' ∉ cs := by
      rw [List.forall_mem_map]
      exact fun text listed dash => single text listed '-' dash (by decide)
    have kept : ((part :: rest).map String.toList).filter (!·.isEmpty) =
        (part :: rest).map String.toList := by
      rw [List.filter_eq_self, List.forall_mem_map]
      intro text listed
      simpa using nonempty text listed
    rw [split, splitChars, join, String.toList_ofList,
      writeOutPasses_of_not_mem (absent '/' (by decide) (by decide)), spaces]
    change ((Text.splitAt '-' (Text.joinWith ['-'] _)).filter _).map _ = _
    rw [Text.splitAt_joinWith (by simp) dashes, kept, List.map_map]
    simp [Function.comp_def]

end Sequence

namespace Token

/-- The token can be read from a sequence again: its own text writes it, in one piece and within the
limits. -/
structure Spelled (t : Token) : Prop where
  written : t.Written
  single : Sequence.Single t.raw
  within : excess? t.raw = none

variable {t u : Token} {raw : String}

theorem Spelled.read_raw (spelled : t.Spelled) : read t.raw = .ok (some t) := by
  rw [read, spelled.within, spelled.written]

theorem excess?_raw (h : parse? raw = some t) : excess? t.raw = excess? raw := by
  rw [excess?, excess?, raw_of_parseChars? h, Text.stripChars_stripChars]

theorem spelled_of_parse? (h : parse? raw = some t) (single : Sequence.Single raw)
    (within : excess? raw = none) : t.Spelled := by
  refine ⟨written_of_parse? h, fun a inside => single a ?_, (excess?_raw h).trans within⟩
  rw [raw_of_parseChars? h] at inside
  exact Text.mem_of_mem_stripChars inside

/-- Whatever is read from a text in one piece. -/
theorem spelled_of_read (h : read raw = .ok (some t)) (single : Sequence.Single raw) : t.Spelled := by
  rw [read] at h
  split at h
  · cases h
  · next within => exact spelled_of_parse? (Except.ok.inj h) single within

theorem spelled_ofCall (c : Call) : (ofCall c).Spelled := by
  have table : ∀ c ∈ Call.all,
      (ofCall c).Written ∧ Sequence.Single c.text ∧ excess? c.text = none := by decide +kernel
  obtain ⟨written, single, within⟩ := table c c.mem_all
  exact ⟨written, single, within⟩

theorem Spelled.nonempty (spelled : t.Spelled) : t.raw.toList ≠ [] := by
  intro empty
  have read := spelled.written
  rw [Written, parse?, empty] at read
  cases read

/-- The limits of a text with bars are those of its branches. -/
theorem excess?_branch {part : List Char} (written : t.Written) (within : excess? t.raw = none)
    (place : part ∈ Text.splitAt '|' t.raw.toList) (nonempty : Text.stripChars part ≠ []) :
    excess? (String.ofList (Text.stripChars part)) = none := by
  have noBar : '|' ∉ Text.stripChars part := fun bar =>
    Text.not_mem_of_mem_splitAt place (Text.mem_of_mem_stripChars bar)
  have single : excess? (String.ofList (Text.stripChars part)) = excessOf? (Text.stripChars part) := by
    simp [excess?, Text.stripChars_stripChars, noBar]
  rw [single]
  rw [excess?, ← raw_of_parseChars? written] at within
  by_cases bar : '|' ∈ t.raw.toList
  · rw [if_pos (by simpa using bar), List.findSome?_eq_none_iff] at within
    apply within
    rw [branchTexts, List.mem_filter]
    exact ⟨List.mem_map_of_mem place, by simpa using nonempty⟩
  · rw [if_neg (by simpa using bar)] at within
    rw [Text.splitAt_of_not_mem bar, List.mem_singleton] at place
    rw [place, ← raw_of_parseChars? written, within]

theorem Spelled.of_mem_alternatives (spelled : t.Spelled) (member : u ∈ t.alternatives) : u.Spelled := by
  obtain ⟨part, place, nonempty, rfl⟩ := exists_branch_of_mem_alternatives spelled.written member
  refine ⟨spelled.written.of_mem_alternatives member, ?_, ?_⟩
  · intro a inside
    rw [raw_parseSingle, String.toList_ofList] at inside
    exact spelled.single a (Text.mem_of_mem_splitAt place (Text.mem_of_mem_stripChars inside))
  · rw [raw_parseSingle]
    exact excess?_branch spelled.written spelled.within place nonempty

end Token

end BidBook
