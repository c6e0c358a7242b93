import BidBook.Proofs.OpenSuits
import BidBook.Proofs.Spelled

/-! # Closed tokens

A token is closed if nothing about it is left to be chosen: neither a branch nor a suit. Binding closes
every token that is no choice, provided that it chooses a suit for each kind that is written. For this it
is essential that a suit is written as one letter, which together with its neighbours writes no new
wildcard.

* `Wildcard.Parted`, `list_filter_ne_nil_iff` — the wildcards that come about once marks are taken out.
* `Wildcard.list_bindChars` — no wildcards are left in a text whose wildcards are bound.
* `Token.exists_parse?_bind` — a token that is bound can still be read.
* `Token.Closed`, `closed_bindToken` — closed tokens, and that binding yields them.
-/

namespace BidBook

/-! ## Wildcards of a text -/

namespace Wildcard

variable {a : Char} {cs : List Char}

theorem first?_eq_none_iff : first? cs = none ↔ list cs = [] := by
  fun_induction list cs with
  | case1 a b rest w pair ih => simp [first?, pair]
  | case2 a b rest pair ih => simp [first?, pair, ih]
  | case3 cs short =>
    rcases cs with _ | ⟨a, _ | ⟨b, rest⟩⟩
    · simp [first?]
    · simp [first?]
    · exact absurd rfl (short a b rest)

theorem list_stripChars (cs : List Char) : list (Text.stripChars cs) = list cs := by
  obtain ⟨before, after, eq, left, right⟩ := Text.exists_stripChars cs
  conv => rhs; rw [eq]
  exact (list_append_blanks before _ after left right).symm

theorem not_isLevelDigit_letter (w : Wildcard) : isLevelDigit w.letter = false := by
  cases w <;> decide

theorem letter_ne_mark (w : Wildcard) : w.letter ≠ '!' := by
  cases w <;> decide

theorem ofPair?_isSome_iff {b : Char} :
    (ofPair? a b).isSome = true ↔ isLevelDigit a = true ∧ ∃ w : Wildcard, b = w.letter := by
  constructor
  · intro pair
    obtain ⟨w, pair⟩ := Option.isSome_iff_exists.1 pair
    obtain ⟨digit, letter⟩ := ofPair?_eq_some pair
    exact ⟨digit, w, letter⟩
  · rintro ⟨digit, w, rfl⟩
    rw [ofPair?_letter digit]
    rfl

/-- A text writes a wildcard at its beginning or further on. -/
theorem list_cons_ne_nil_iff : list (a :: cs) ≠ [] ↔
    (isLevelDigit a = true ∧ ∃ w : Wildcard, cs.head? = some w.letter) ∨ list cs ≠ [] := by
  cases cs with
  | nil => simp [list]
  | cons b rest =>
    simp only [List.head?_cons, Option.some.injEq]
    rw [← ofPair?_isSome_iff, list]
    cases pair : ofPair? a b with
    | none => simp
    | some w => simp

/-! ## Marks among them -/

/-- Somewhere marks, and nothing else, part a level from the letter of a kind. -/
def Parted (cs : List Char) : Prop :=
  ∃ (before : List Char) (a : Char) (marks : List Char) (w : Wildcard) (after : List Char),
    cs = before ++ a :: (marks ++ w.letter :: after) ∧ isLevelDigit a = true ∧
      marks ≠ [] ∧ ∀ c ∈ marks, c = '!'

theorem parted_cons_iff : Parted (a :: cs) ↔
    (isLevelDigit a = true ∧ cs.head? = some '!' ∧
      ∃ w : Wildcard, (cs.dropWhile (· == '!')).head? = some w.letter) ∨ Parted cs := by
  constructor
  · rintro ⟨before, b, marks, w, after, eq, digit, marked, only⟩
    cases before with
    | nil =>
      obtain ⟨rfl, rfl⟩ := List.cons.inj eq
      refine .inl ⟨digit, ?_, w, ?_⟩
      · cases marks with
        | nil => exact absurd rfl marked
        | cons m marks => simp [only m List.mem_cons_self]
      · rw [List.dropWhile_append_of_pos fun c member => by simpa using only c member,
          List.dropWhile_cons_of_neg (by simpa using letter_ne_mark w), List.head?_cons]
    | cons c before =>
      obtain ⟨rfl, rfl⟩ := List.cons.inj eq
      exact .inr ⟨before, b, marks, w, after, rfl, digit, marked, only⟩
  · rintro (⟨digit, mark, w, letter⟩ | ⟨before, b, marks, w, after, rfl, rest⟩)
    · obtain ⟨after, behind⟩ := List.head?_eq_some_iff.1 letter
      refine ⟨[], a, cs.takeWhile (· == '!'), w, after, ?_, digit, ?_, ?_⟩
      · rw [← behind, List.takeWhile_append_dropWhile, List.nil_append]
      · obtain ⟨rest, rfl⟩ := List.head?_eq_some_iff.1 mark
        simp
      · exact fun c member => by simpa using List.mem_takeWhile_imp member
    · exact ⟨a :: before, b, marks, w, after, rfl, rest⟩

theorem head?_filter_mark (cs : List Char) :
    (cs.filter (· != '!')).head? = (cs.dropWhile (· == '!')).head? := by
  induction cs with
  | nil => rfl
  | cons c cs ih => by_cases mark : c = '!' <;> simp [mark, ih]

/-- A letter that comes next but for marks comes next, or there are marks before it. -/
theorem exists_letter_iff :
    (∃ w : Wildcard, (cs.dropWhile (· == '!')).head? = some w.letter) ↔
      (∃ w : Wildcard, cs.head? = some w.letter) ∨
        cs.head? = some '!' ∧ ∃ w : Wildcard, (cs.dropWhile (· == '!')).head? = some w.letter := by
  cases cs with
  | nil => simp
  | cons c cs =>
    by_cases mark : c = '!'
    · simp [mark, fun w : Wildcard => (letter_ne_mark w).symm]
    · simp [mark]

/-- Once the marks are taken out of a text, it writes what it wrote before and what the marks parted. -/
theorem list_filter_ne_nil_iff : list (cs.filter (· != '!')) ≠ [] ↔ list cs ≠ [] ∨ Parted cs := by
  induction cs with
  | nil => simp [list, Parted]
  | cons a cs ih =>
    rw [parted_cons_iff, list_cons_ne_nil_iff]
    by_cases mark : a = '!'
    · have noLevel : isLevelDigit a = false := by rw [mark]; decide
      simp only [mark, bne_self_eq_false, Bool.false_eq_true, not_false_eq_true, List.filter_cons_of_neg, ih,
        mark ▸ noLevel, false_and, false_or]
    · rw [List.filter_cons_of_pos (by simpa using mark), list_cons_ne_nil_iff, head?_filter_mark, ih]
      have next : (isLevelDigit a = true ∧ ∃ w : Wildcard, (cs.dropWhile (· == '!')).head? = some w.letter) ↔
          (isLevelDigit a = true ∧ ∃ w : Wildcard, cs.head? = some w.letter) ∨
            isLevelDigit a = true ∧ cs.head? = some '!' ∧
              ∃ w : Wildcard, (cs.dropWhile (· == '!')).head? = some w.letter := by
        rw [← and_or_left, ← exists_letter_iff]
      rw [next]
      exact or_or_or_comm

/-! ## Bound texts -/

variable {suit? : Wildcard → Option String}

/-- Every suit that is chosen is written as one letter. -/
def Lettered (suit? : Wildcard → Option String) : Prop :=
  ∀ w s, suit? w = some s → ∃ x ∈ Placeholder.suitLetters, s = String.ofList [x]

/-- A bound text is made of the characters that were there and letters of suits. -/
theorem mem_bindChars (lettered : Lettered suit?) {cs : List Char} {c : Char}
    (member : c ∈ bindChars suit? cs) : c ∈ cs ∨ c ∈ Placeholder.suitLetters := by
  fun_induction bindChars suit? cs with
  | case1 a b rest w pair s chosen ih =>
    obtain ⟨x, letter, rfl⟩ := lettered w s chosen
    rw [String.toList_ofList, List.singleton_append, List.mem_cons, List.mem_cons] at member
    rcases member with rfl | rfl | later
    · exact .inl List.mem_cons_self
    · exact .inr letter
    · exact (ih later).imp_left fun there => List.mem_cons_of_mem _ (List.mem_cons_of_mem _ there)
  | case2 a b rest w pair unbound ih =>
    rw [List.mem_cons, List.mem_cons] at member
    rcases member with rfl | rfl | later
    · exact .inl List.mem_cons_self
    · exact .inl (List.mem_cons_of_mem _ List.mem_cons_self)
    · exact (ih later).imp_left fun there => List.mem_cons_of_mem _ (List.mem_cons_of_mem _ there)
  | case3 a b rest pair ih =>
    rcases List.mem_cons.1 member with rfl | later
    · exact .inl List.mem_cons_self
    · exact (ih later).imp_left fun there => List.mem_cons_of_mem _ there
  | case4 cs short => exact .inl member

/-- A blank text had no wildcards to be bound. -/
theorem bindChars_of_blank {cs : List Char} (blank : ∀ c ∈ bindChars suit? cs, Text.isBlank c = true) :
    bindChars suit? cs = cs := by
  fun_induction bindChars suit? cs with
  | case1 a b rest w pair s chosen ih =>
    rw [List.forall_mem_cons, isBlank_of_isLevelDigit (ofPair?_eq_some pair).1] at blank
    cases blank.1
  | case2 a b rest w pair unbound ih =>
    rw [List.forall_mem_cons, List.forall_mem_cons] at blank
    rw [ih blank.2.2]
  | case3 a b rest pair ih =>
    rw [List.forall_mem_cons] at blank
    rw [ih blank.2]
  | case4 cs short => rfl

/-- Behind a letter a wildcard begins no earlier than in the rest. -/
theorem list_letter_cons {x : Char} (letter : x ∈ Placeholder.suitLetters) (cs : List Char) :
    list (x :: cs) = list cs := by
  have noLevel : isLevelDigit x = false := by
    have table : (Placeholder.suitLetters.all fun x => !isLevelDigit x) = true := by decide
    simpa using List.all_eq_true.1 table x letter
  cases cs with
  | nil => rfl
  | cons b rest => simp [list, ofPair?, noLevel]

theorem ofPair?_suitLetter {a x : Char} (letter : x ∈ Placeholder.suitLetters) : ofPair? a x = none := by
  have table : (Placeholder.suitLetters.all fun x => (ofLetter? x).isNone) = true := by decide
  have noLetter : ofLetter? x = none := by simpa using List.all_eq_true.1 table x letter
  simp [ofPair?, noLetter]

/-- What is bound to the letters of suits has no wildcards left. -/
theorem list_bindChars (lettered : Lettered suit?) {cs : List Char}
    (chosen : ∀ w ∈ list cs, ∃ s, suit? w = some s) : list (bindChars suit? cs) = [] := by
  fun_induction list cs with
  | case1 a b rest w pair ih =>
    rw [List.forall_mem_cons] at chosen
    obtain ⟨s, here⟩ := chosen.1
    obtain ⟨x, letter, rfl⟩ := lettered w s here
    have bound : bindChars suit? (a :: b :: rest) = a :: x :: bindChars suit? rest := by
      simp [bindChars, pair, here]
    rw [bound, list, ofPair?_suitLetter letter]
    dsimp only
    rw [list_letter_cons letter, ih chosen.2]
  | case2 a b rest pair ih =>
    -- the character behind stays what it is, so no pair comes about
    obtain ⟨behind, same⟩ : ∃ behind, bindChars suit? (b :: rest) = b :: behind := by
      cases rest with
      | nil => exact ⟨[], rfl⟩
      | cons c rest =>
        unfold bindChars
        split
        · split <;> exact ⟨_, rfl⟩
        · exact ⟨_, rfl⟩
    have later := ih chosen
    have bound : bindChars suit? (a :: b :: rest) = a :: bindChars suit? (b :: rest) := by
      simp [bindChars, pair]
    rw [bound, same, list, pair]
    dsimp only
    rwa [← same]
  | case3 cs short =>
    rcases cs with _ | ⟨a, _ | ⟨b, rest⟩⟩
    · rfl
    · rfl
    · exact absurd rfl (short a b rest)

end Wildcard

/-! ## Bound tokens -/

namespace Token

variable {t u : Token} {w : Wildcard} {suit? : Wildcard → Option String}

theorem bracket_not_mem_beforeTag (cs : List Char) : '[' ∉ beforeTag cs := fun member => by
  simpa using List.mem_takeWhile_imp member

theorem toList_bind (suit? : Wildcard → Option String) (raw : String) : (bind suit? raw).toList =
    Wildcard.bindChars suit? (beforeTag raw.toList) ++ raw.toList.dropWhile (· != '[') :=
  String.toList_ofList

theorem mem_bind (lettered : Wildcard.Lettered suit?) {c : Char} {raw : String}
    (member : c ∈ (bind suit? raw).toList) : c ∈ raw.toList ∨ c ∈ Placeholder.suitLetters := by
  rw [toList_bind, List.mem_append] at member
  rcases member with front | tag
  · exact (Wildcard.mem_bindChars lettered front).imp_left fun there =>
      (List.takeWhile_sublist _).subset there
  · exact .inl ((List.dropWhile_sublist _).subset tag)

theorem blank_of_parse?_eq_none {raw : String} (read : parse? raw = none) :
    ∀ c ∈ raw.toList, Text.isBlank c = true := by
  have empty : Text.stripChars raw.toList = [] := by
    rw [parse?, parseChars?] at read
    split at read
    · next empty => simpa using empty
    · split at read <;> cases read
  obtain ⟨before, after, eq, left, right⟩ := Text.exists_stripChars raw.toList
  rw [empty, List.append_nil] at eq
  rw [eq, List.forall_mem_append]
  exact ⟨left, right⟩

/-- A token that is bound can still be read. -/
theorem exists_parse?_bind (written : t.Written) (suit? : Wildcard → Option String) :
    ∃ u, parse? (bind suit? t.raw) = some u := by
  cases read : parse? (bind suit? t.raw) with
  | some u => exact ⟨u, rfl⟩
  | none =>
    -- only a blank text cannot be read, but then nothing was bound
    have blank := blank_of_parse?_eq_none read
    rw [toList_bind, List.forall_mem_append] at blank
    have same : bind suit? t.raw = t.raw := by
      rw [bind, Wildcard.bindChars_of_blank blank.1, beforeTag, List.takeWhile_append_dropWhile,
        String.ofList_toList]
    rw [same, written] at read
    cases read

/-! ## Closed tokens -/

/-- Nothing about the token is left to be chosen. -/
structure Closed (t : Token) : Prop where
  written : t.Written
  isChoice : t.isChoice = false
  kinds : kinds t.raw = []

theorem kinds_eq_nil_iff {raw : String} : kinds raw = [] ↔ wildcardsIn raw = [] := by
  rw [kinds, List.filter_eq_nil_iff, List.eq_nil_iff_forall_not_mem]
  simp [Wildcard.mem_all]

theorem Closed.within (closed : t.Closed) : t.Within fun _ => false :=
  ⟨closed.written, by simp [kinds_eq_nil_iff.1 closed.kinds]⟩

theorem Within.closed (within : t.Within fun _ => false) (single : t.isChoice = false) : t.Closed := by
  refine ⟨within.1, single, kinds_eq_nil_iff.2 ?_⟩
  rw [List.eq_nil_iff_forall_not_mem]
  exact fun w here => Bool.false_ne_true (within.2 w here)

theorem wildcardsIn_of_not_mem {raw : String} (plain : '|' ∉ raw.toList) :
    wildcardsIn raw = Wildcard.list (beforeTag raw.toList) := by
  rw [wildcardsIn, Text.splitAt_of_not_mem plain, List.flatMap_singleton]

theorem list_beforeTag_of_plainChars {cs : List Char} (noWildcard : Wildcard.first? (plainChars cs) = none) :
    Wildcard.list (beforeTag cs) = [] := by
  rw [Wildcard.first?_eq_none_iff, plainChars, Wildcard.list_stripChars] at noWildcard
  exact by_contra fun listed => Wildcard.list_filter_ne_nil_iff.2 (.inl listed) noWildcard

/-- A text with bars but without branches has no wildcards, for it is blank between the bars. -/
theorem wildcardsIn_of_branchTexts {raw : String} (noBranch : branchTexts raw.toList = []) :
    wildcardsIn raw = [] := by
  rw [wildcardsIn, List.flatMap_eq_nil_iff]
  intro part member
  rw [branchTexts, List.filter_eq_nil_iff] at noBranch
  have blank : Text.stripChars part = [] := by simpa using noBranch _ (List.mem_map_of_mem member)
  rw [← list_beforeTag_stripChars, blank]
  rfl

/-- A single token that is no bid of an open suit writes no wildcard. -/
theorem closed_of_wildcard?_eq_none (written : t.Written) (single : t.isChoice = false)
    (known : t.wildcard? = none) : t.Closed := by
  refine ⟨written, single, kinds_eq_nil_iff.2 ?_⟩
  by_cases bar : '|' ∈ t.raw.toList
  · apply wildcardsIn_of_branchTexts
    have h := written
    rw [Written, parse?, parseChars?, ← raw_of_parseChars? written] at h
    split at h
    · cases h
    · rw [if_pos (by simpa using bar)] at h
      have reading := congrArg Token.isChoice (Option.some.inj h)
      rw [single] at reading
      by_contra branches
      simp [isChoice, branches] at reading
  · rw [wildcardsIn_of_not_mem bar]
    apply list_beforeTag_of_plainChars
    have eq := eq_parseSingle_of_not_mem written bar
    rw [eq, wildcard?_parseSingle, Option.map_eq_none_iff] at known
    exact known

theorem closed_ofCall (c : Call) : (ofCall c).Closed := by
  have table : ∀ c ∈ Call.all, kinds (ofCall c).raw = [] := by decide +kernel
  exact ⟨(spelled_ofCall c).written, rfl, table c c.mem_all⟩

theorem beforeTag_bind (lettered : Wildcard.Lettered suit?) (raw : String) :
    beforeTag (bind suit? raw).toList = Wildcard.bindChars suit? (beforeTag raw.toList) := by
  have noBracket : '[' ∉ Wildcard.bindChars suit? (beforeTag raw.toList) := fun bracket =>
    (Wildcard.mem_bindChars lettered bracket).elim (bracket_not_mem_beforeTag _) (by decide)
  rw [toList_bind]
  refine (beforeTag_append noBracket ?_).1
  cases tag : raw.toList.dropWhile (· != '[') with
  | nil => exact .inl rfl
  | cons x rest =>
    have first := List.head?_dropWhile_not (· != '[') raw.toList
    rw [tag] at first
    exact .inr (by simpa using first)

/-- Binding closes a token whose wildcards all get a suit. -/
theorem closed_of_bind (lettered : Wildcard.Lettered suit?) (written : t.Written)
    (wildcard : t.wildcard? = some w) (chosen : ∀ w ∈ wildcardsIn t.raw, ∃ s, suit? w = some s)
    (read : parse? (bind suit? t.raw) = some u) : u.Closed := by
  have noBar := bar_not_mem_of_wildcard? written wildcard
  have plain : '|' ∉ u.raw.toList := by
    rw [raw_of_parseChars? read]
    exact fun bar => (mem_bind lettered (Text.mem_of_mem_stripChars bar)).elim noBar (by decide)
  refine ⟨written_of_parse? read, ?_, kinds_eq_nil_iff.2 ?_⟩
  · rw [eq_parseSingle_of_not_mem (written_of_parse? read) plain]
    exact isChoice_parseSingle _
  · rw [wildcardsIn_of_not_mem noBar] at chosen
    rw [wildcardsIn_of_not_mem plain, raw_of_parseChars? read, list_beforeTag_stripChars,
      beforeTag_bind lettered]
    exact Wildcard.list_bindChars lettered chosen

end Token

namespace Node

variable {settings : ExpansionSettings} {occurs : Wildcard → Bool} {b : Binding} {t : Token}

theorem bindToken_eq (written : t.Written) (b : Binding) : (t.wildcard? = none ∧ bindToken b t = t) ∨
    ∃ w, t.wildcard? = some w ∧ Token.parse? (Token.bind b.suit? t.raw) = some (bindToken b t) := by
  cases wildcard : t.wildcard? with
  | none => exact .inl ⟨rfl, bindToken_of_wildcard?_eq_none wildcard⟩
  | some w =>
    obtain ⟨u, read⟩ := Token.exists_parse?_bind written b.suit?
    exact .inr ⟨w, rfl, by simp [bindToken, wildcard, read]⟩

theorem lettered_of_mem_enumerate (accepted : settings.Accepted)
    (member : b ∈ Binding.enumerate settings occurs) : Wildcard.Lettered b.suit? := fun _ _ chosen =>
  Token.exists_letter_of_mem_suits accepted (Binding.suit_mem_of_mem_enumerate member chosen)

/-- A binding of all kinds that occur closes every single token. -/
theorem closed_bindToken (accepted : settings.Accepted) (member : b ∈ Binding.enumerate settings occurs)
    (within : t.Within occurs) (single : t.isChoice = false) : (bindToken b t).Closed := by
  rcases bindToken_eq within.1 b with ⟨known, same⟩ | ⟨w, wildcard, read⟩
  · rw [same]
    exact Token.closed_of_wildcard?_eq_none within.1 single known
  · exact Token.closed_of_bind (lettered_of_mem_enumerate accepted member) within.1 wildcard
      (fun v here => Binding.suit?_isSome_of_mem_enumerate member (within.2 v here)) read

end Node

end BidBook
