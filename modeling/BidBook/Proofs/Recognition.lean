import BidBook.Proofs.Closed

/-! # Where open suits are recognized

Reading takes the marks out of a call before it looks for an open suit, while the kinds of a text, its
test for being concrete and its binding look at the text with marks. So they differ on a level and a letter
that only marks part, and on nothing else: neither blanks nor a tag make a difference, and binding does
away with every open suit but those.

* `Wildcard.parted_bindChars_iff` — binding neither parts nor joins.
* `Token.ReadsOpen` — reading a text gives an open suit.
* `recognized_alike`, `not_recognized_alike` — where the recognizers agree, and where they do not.
-/

namespace BidBook

/-! ## Binding -/

namespace Wildcard

variable {a : Char} {cs : List Char} {suit? : Wildcard → Option String}

theorem head?_bindChars (suit? : Wildcard → Option String) (cs : List Char) :
    (bindChars suit? cs).head? = cs.head? := by
  fun_cases bindChars suit? cs <;> rfl

theorem bindChars_mark_cons (suit? : Wildcard → Option String) (cs : List Char) :
    bindChars suit? ('!' :: cs) = '!' :: bindChars suit? cs := by
  cases cs with
  | nil => rfl
  | cons b rest =>
    have noLevel : ofPair? '!' b = none := if_neg (by decide)
    rw [bindChars, noLevel]

theorem dropWhile_bindChars (suit? : Wildcard → Option String) (cs : List Char) :
    (bindChars suit? cs).dropWhile (· == '!') = bindChars suit? (cs.dropWhile (· == '!')) := by
  induction cs with
  | nil => rfl
  | cons c cs ih =>
    by_cases mark : c = '!'
    · rw [mark, bindChars_mark_cons, List.dropWhile_cons_of_pos rfl, List.dropWhile_cons_of_pos rfl, ih]
    · rw [List.dropWhile_cons_of_neg (by simpa using mark)]
      obtain ⟨rest, begins⟩ := List.head?_eq_some_iff.1 (head?_bindChars suit? (c :: cs))
      rw [begins, List.dropWhile_cons_of_neg (by simpa using mark)]

/-- Behind a letter nothing is parted that is not parted in the rest. -/
theorem parted_cons_of_not_isLevelDigit (noLevel : isLevelDigit a = false) :
    Parted (a :: cs) ↔ Parted cs := by
  rw [parted_cons_iff, noLevel]
  simp

/-- Marks behind a letter do not part it from the level before it. -/
theorem parted_cons_cons_iff {b : Char} (noMark : b ≠ '!') (noLevel : isLevelDigit b = false) :
    Parted (a :: b :: cs) ↔ Parted cs := by
  rw [parted_cons_iff, parted_cons_of_not_isLevelDigit noLevel]
  simp [noMark]

/-- Binding writes letters in place of letters, so it neither parts nor joins. -/
theorem parted_bindChars_iff (lettered : Lettered suit?) : Parted (bindChars suit? cs) ↔ Parted cs := by
  fun_induction bindChars suit? cs with
  | case1 a b rest w pair s chosen ih =>
    obtain ⟨x, letter, rfl⟩ := lettered w s chosen
    obtain ⟨_, rfl⟩ := ofPair?_eq_some pair
    have table : (Placeholder.suitLetters.all fun x => x != '!' && !isLevelDigit x) = true := by decide
    obtain ⟨noMark, noLevel⟩ : x ≠ '!' ∧ isLevelDigit x = false := by
      simpa using List.all_eq_true.1 table x letter
    rw [String.toList_ofList, List.singleton_append, parted_cons_cons_iff noMark noLevel, ih,
      parted_cons_cons_iff (letter_ne_mark w) (not_isLevelDigit_letter w)]
  | case2 a b rest w pair unbound ih =>
    obtain ⟨_, rfl⟩ := ofPair?_eq_some pair
    rw [parted_cons_cons_iff (letter_ne_mark w) (not_isLevelDigit_letter w), ih,
      parted_cons_cons_iff (letter_ne_mark w) (not_isLevelDigit_letter w)]
  | case3 a b rest pair ih =>
    rw [parted_cons_iff, @parted_cons_iff a (b :: rest), dropWhile_bindChars, head?_bindChars,
      head?_bindChars, ih]
  | case4 => rfl

end Wildcard

namespace Token

variable {raw : String} {suit? : Wildcard → Option String}

/-! ## Reading -/

/-- Reading a text gives an open suit. -/
def ReadsOpen (raw : String) : Prop := ∃ t, read raw = .ok (some t) ∧ t.wildcard?.isSome = true

theorem wildcard?_parseSingle_isSome_iff {cs : List Char} :
    (parseSingle cs).wildcard?.isSome = true ↔ Wildcard.list (plainChars cs) ≠ [] := by
  rw [wildcard?_parseSingle, Option.isSome_map, Option.isSome_iff_ne_none, ne_eq,
    Wildcard.first?_eq_none_iff]

/-- What is read into an open suit exceeds no limit, for its level is one digit. -/
theorem readsOpen_iff_of_not_mem (single : '|' ∉ raw.toList) :
    ReadsOpen raw ↔ Wildcard.list (plainChars (Text.stripChars raw.toList)) ≠ [] := by
  have single' : (Text.stripChars raw.toList).contains '|' = false := by
    simpa using fun bar => single (Text.mem_of_mem_stripChars bar)
  have parsed : parse? raw = if (Text.stripChars raw.toList).isEmpty then none
      else some (parseSingle (Text.stripChars raw.toList)) := by
    rw [parse?, parseChars?]
    simp only [single', Bool.false_eq_true, if_false]
  constructor
  · rintro ⟨t, known, wildcard⟩
    rw [read, parsed] at known
    split at known
    · cases known
    · split at known
      · cases known
      · have same := Option.some.inj (Except.ok.inj known)
        exact wildcard?_parseSingle_isSome_iff.1 (same ▸ wildcard)
  · intro written
    have solid : (Text.stripChars raw.toList).isEmpty = false := by
      rw [List.isEmpty_eq_false_iff]
      intro empty
      rw [empty] at written
      exact written rfl
    have short : excess? raw = none := by
      have first : (Wildcard.first? (plainChars (Text.stripChars raw.toList))).isSome = true := by
        rwa [Option.isSome_iff_ne_none, ne_eq, Wildcard.first?_eq_none_iff]
      simp only [excess?, single', Bool.false_eq_true, if_false, excessOf?, first, if_true]
    refine ⟨parseSingle (Text.stripChars raw.toList), ?_, wildcard?_parseSingle_isSome_iff.2 written⟩
    rw [read, short, parsed, solid]
    rfl

/-- Blanks around a text make no difference to what is written in it without marks. -/
theorem list_plainChars_stripChars (cs : List Char) : Wildcard.list (plainChars (Text.stripChars cs)) =
    Wildcard.list ((beforeTag cs).filter (· != '!')) := by
  obtain ⟨before, after, eq, left, right⟩ := exists_beforeTag_stripChars cs
  have solid : ∀ {blanks : List Char}, (∀ c ∈ blanks, Text.isBlank c = true) →
      ∀ c ∈ blanks.filter (· != '!'), Text.isBlank c = true :=
    fun blank c member => blank c (List.mem_filter.1 member).1
  rw [plainChars, Wildcard.list_stripChars, eq, List.filter_append, List.filter_append,
    Wildcard.list_append_blanks _ _ _ (solid left) (solid right)]

/-! ## Where the recognizers agree -/

/-- Before the tag, marks part a level from the letter of a kind. -/
def Parted (raw : String) : Prop := Wildcard.Parted (beforeTag raw.toList)

theorem kinds_ne_nil_iff (single : '|' ∉ raw.toList) :
    kinds raw ≠ [] ↔ Wildcard.list (beforeTag raw.toList) ≠ [] := by
  rw [ne_eq, kinds_eq_nil_iff, wildcardsIn_of_not_mem single]

theorem isConcrete_eq_false_iff (single : '|' ∉ raw.toList) : isConcrete raw = false ↔ kinds raw ≠ [] := by
  have noBar : raw.toList.contains '|' = false := by simpa using single
  rw [kinds_ne_nil_iff single, isConcrete, noBar, ne_eq, ← Wildcard.first?_eq_none_iff, ← ne_eq,
    ← Option.isSome_iff_ne_none]
  simp

theorem readsOpen_iff (single : '|' ∉ raw.toList) : ReadsOpen raw ↔ kinds raw ≠ [] ∨ Parted raw := by
  rw [readsOpen_iff_of_not_mem single, list_plainChars_stripChars, Wildcard.list_filter_ne_nil_iff,
    kinds_ne_nil_iff single, Parted]

theorem bar_not_mem_bind (lettered : Wildcard.Lettered suit?) (single : '|' ∉ raw.toList) :
    '|' ∉ (bind suit? raw).toList := fun bar => (mem_bind lettered bar).elim single (by decide)

theorem parted_bind_iff (lettered : Wildcard.Lettered suit?) : Parted (bind suit? raw) ↔ Parted raw := by
  rw [Parted, beforeTag_bind lettered, Wildcard.parted_bindChars_iff lettered, Parted]

theorem kinds_bind (lettered : Wildcard.Lettered suit?) (all : ∀ w, ∃ s, suit? w = some s)
    (single : '|' ∉ raw.toList) : kinds (bind suit? raw) = [] := by
  rw [kinds_eq_nil_iff, wildcardsIn_of_not_mem (bar_not_mem_bind lettered single), beforeTag_bind lettered]
  exact Wildcard.list_bindChars lettered fun w _ => all w

theorem lettered_of_suits {suits : Wildcard → String} (known : ∀ w, suits w ∈ ["C", "D", "H", "S"]) :
    Wildcard.Lettered (some ∘ suits) := by
  intro w s chosen
  obtain rfl := Option.some.inj chosen
  have letters : (["C", "D", "H", "S"].all fun s =>
      Placeholder.suitLetters.any fun x => s == String.ofList [x]) = true := by decide
  simpa using List.all_eq_true.1 letters (suits w) (known w)

/-- A text without bars is concrete if and only if it has no kinds. It is read into an open suit if it has
one, or if marks part a level from the letter of a kind. Binding all kinds leaves none, and an open suit is
read from the bound text only in the latter case. -/
theorem recognized_alike (single : '|' ∉ raw.toList) :
    (isConcrete raw = false ↔ kinds raw ≠ []) ∧ (ReadsOpen raw ↔ kinds raw ≠ [] ∨ Parted raw) ∧
    ∀ suits : Wildcard → String, (∀ w, suits w ∈ ["C", "D", "H", "S"]) →
      kinds (bind (some ∘ suits) raw) = [] ∧ (ReadsOpen (bind (some ∘ suits) raw) ↔ Parted raw) := by
  refine ⟨isConcrete_eq_false_iff single, readsOpen_iff single, fun suits known => ?_⟩
  have lettered := lettered_of_suits known
  have bound : kinds (bind (some ∘ suits) raw) = [] := kinds_bind lettered (fun w => ⟨suits w, rfl⟩) single
  refine ⟨bound, ?_⟩
  rw [readsOpen_iff (bar_not_mem_bind lettered single), parted_bind_iff lettered]
  simp [bound]

/-- A major suit is bound and a minor suit behind a mark is not; what is in the tag does not count. -/
theorem recognized_alike_twoBids : '|' ∉ "1M 2!m[3X]".toList ∧ kinds "1M 2!m[3X]" = [.major] ∧
    isConcrete "1M 2!m[3X]" = false ∧ ReadsOpen "1M 2!m[3X]" ∧
    kinds (bind (some ∘ fun _ => "H") "1M 2!m[3X]") = [] ∧
    ReadsOpen (bind (some ∘ fun _ => "H") "1M 2!m[3X]") := by
  have single : '|' ∉ "1M 2!m[3X]".toList := by decide
  have major : kinds "1M 2!m[3X]" = [.major] := by decide
  have there : kinds "1M 2!m[3X]" ≠ [] := by simp [major]
  have parted : Parted "1M 2!m[3X]" := ⟨['1', 'M', ' '], '2', ['!'], .minor, [], rfl, rfl, by simp, by simp⟩
  obtain ⟨concrete, reads, bound⟩ := recognized_alike single
  obtain ⟨gone, stays⟩ := bound (fun _ => "H") (by simp)
  exact ⟨single, major, concrete.2 there, reads.2 (.inl there), gone, stays.2 parted⟩

/-- A mark between the level and the letter of a kind: the text is read into an open suit, but has no
kinds, and binding leaves it as it is. -/
theorem not_recognized_alike : ¬ ∀ raw : String, '|' ∉ raw.toList → Text.strip raw ≠ "" →
    (ReadsOpen raw ↔ kinds raw ≠ []) ∧ (kinds raw ≠ [] ↔ isConcrete raw = false) ∧
    ∀ suits : Wildcard → String, (∀ w, suits w ∈ ["C", "D", "H", "S"]) →
      ¬ ReadsOpen (bind (some ∘ suits) raw) ∧ kinds (bind (some ∘ suits) raw) = [] := by
  intro law
  have opens : ReadsOpen "1!M" := ⟨_, rfl, rfl⟩
  have noKinds : kinds "1!M" = [] := by decide
  exact (law "1!M" (by decide) (by decide)).1.1 opens noKinds

end Token

end BidBook
