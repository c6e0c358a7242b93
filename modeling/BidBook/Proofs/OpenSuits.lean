import BidBook.Proofs.Bindings
import BidBook.Proofs.Placeholders

/-! # Open suits in plain form

A bid of an open suit is plain if it is a level and the letter of a kind, with nothing behind it but
marks and a tag. Such a bid has one wildcard, and binding makes it a bid of the suit chosen for
that.

* `Token.Plain` — the plain form.
* `Token.wildcardsIn_of_plain` — its only wildcard.
* `exists_call_of_plain` — the bid that binding makes of it.
-/

namespace BidBook

namespace Token

/-- A bid of an open suit that is a level and a letter, but for marks, a tag and blanks. -/
def Plain (t : Token) : Prop :=
  t.wildcard?.isSome = true → plainChars t.raw.toList = t.raw.toList.take 2

instance (t : Token) : Decidable t.Plain :=
  inferInstanceAs (Decidable (t.wildcard?.isSome = true → plainChars t.raw.toList = t.raw.toList.take 2))

theorem eq_parseSingle_of_not_mem {t : Token} (written : t.Written) (plain : '|' ∉ t.raw.toList) :
    t = parseSingle t.raw.toList := by
  have h := written
  rw [Written, parse?, parseChars?, ← raw_of_parseChars? written] at h
  split at h
  · cases h
  · split at h
    · next bar => exact absurd (by simpa using bar) plain
    · exact (Option.some.inj h).symm

theorem wildcard?_parseSingle (cs : List Char) :
    (parseSingle cs).wildcard? = (Wildcard.first? (plainChars cs)).map Prod.snd := by
  unfold parseSingle
  dsimp only
  cases Wildcard.first? (plainChars cs) with
  | some found => rfl
  | none => cases callOf? (plainChars cs) <;> rfl

theorem first?_of_wildcard? {t : Token} {w : Wildcard} (written : t.Written)
    (wildcard : t.wildcard? = some w) :
    ∃ level, Wildcard.first? (plainChars t.raw.toList) = some (level, w) := by
  have eq := eq_parseSingle_of_not_mem written (bar_not_mem_of_wildcard? written wildcard)
  rw [eq, wildcard?_parseSingle, Option.map_eq_some_iff] at wildcard
  obtain ⟨⟨level, _⟩, first, rfl⟩ := wildcard
  exact ⟨level, first⟩

end Token

namespace Wildcard

theorem ofPair?_eq_some {a c : Char} {w : Wildcard} (pair : ofPair? a c = some w) :
    isLevelDigit a = true ∧ c = w.letter := by
  unfold ofPair? at pair
  split at pair
  · next digit =>
    refine ⟨digit, ?_⟩
    unfold ofLetter? at pair
    split at pair
    · cases pair; rfl
    · cases pair; rfl
    · cases pair; rfl
    · cases pair
  · cases pair

theorem ofPair?_letter {a : Char} (digit : isLevelDigit a = true) (w : Wildcard) :
    ofPair? a w.letter = some w := by
  rw [ofPair?, if_pos digit, ofLetter?_letter]

/-- Without a level there is no wildcard. -/
theorem list_eq_nil {cs : List Char} (noLevel : ∀ c ∈ cs, isLevelDigit c = false) : list cs = [] := by
  fun_induction list cs with
  | case1 a b rest w pair ih =>
    have digit := (ofPair?_eq_some pair).1
    rw [noLevel a List.mem_cons_self] at digit
    cases digit
  | case2 a b rest pair ih => exact ih fun c member => noLevel c (List.mem_cons_of_mem _ member)
  | case3 => rfl

theorem bindChars_of_list_eq_nil (suit? : Wildcard → Option String) {cs : List Char}
    (noPair : list cs = []) : bindChars suit? cs = cs := by
  have unbound : bindChars suit? cs = bindChars (fun _ => none) cs := bindChars_congr (by simp [noPair])
  rw [unbound, bindChars_none]

def levelDigits : List Char := ['1', '2', '3', '4', '5', '6', '7']

theorem mem_of_isLevelDigit {a : Char} (digit : isLevelDigit a = true) :
    a ∈ levelDigits := by
  simp only [isLevelDigit, Bool.and_eq_true, decide_eq_true_eq] at digit
  have low : 49 ≤ a.toNat := digit.1
  have high : a.toNat ≤ 55 := digit.2
  have value : a.toNat = 49 ∨ a.toNat = 50 ∨ a.toNat = 51 ∨ a.toNat = 52 ∨ a.toNat = 53 ∨
    a.toNat = 54 ∨ a.toNat = 55 := by omega
  have known : ∀ c : Char, a.toNat = c.toNat → a = c := fun c => Char.toNat_inj.1
  simp only [levelDigits, List.mem_cons, List.not_mem_nil, or_false]
  rcases value with h | h | h | h | h | h | h
  · exact .inl (known '1' h)
  · exact .inr (.inl (known '2' h))
  · exact .inr (.inr (.inl (known '3' h)))
  · exact .inr (.inr (.inr (.inl (known '4' h))))
  · exact .inr (.inr (.inr (.inr (.inl (known '5' h)))))
  · exact .inr (.inr (.inr (.inr (.inr (.inl (known '6' h))))))
  · exact .inr (.inr (.inr (.inr (.inr (.inr (known '7' h))))))

theorem isBlank_of_isLevelDigit {a : Char} (digit : isLevelDigit a = true) : Text.isBlank a = false := by
  have solid : levelDigits.any Text.isBlank = false := by decide
  simpa using List.any_eq_false.1 solid a (mem_of_isLevelDigit digit)

end Wildcard

namespace Token

theorem isBlank_of_stripChars {a c : Char} {cs : List Char} (solid : Text.isBlank a = false)
    (stripped : Text.stripChars (a :: c :: cs) = [a, c]) : ∀ x ∈ cs, Text.isBlank x = true := by
  obtain ⟨before, after, eq, left, right⟩ := Text.exists_stripChars (a :: c :: cs)
  rw [stripped] at eq
  cases before with
  | nil =>
    simp only [List.nil_append, List.cons_append, List.cons.injEq, true_and] at eq
    exact eq ▸ right
  | cons b before =>
    simp only [List.cons_append, List.cons.injEq] at eq
    rw [← eq.1] at left
    rw [left a List.mem_cons_self] at solid
    cases solid

theorem stripChars_of_isBlank {a c : Char} {cs : List Char} (solid : Text.isBlank a = false)
    (solid' : Text.isBlank c = false) (blank : ∀ x ∈ cs, Text.isBlank x = true) :
    Text.stripChars (a :: c :: cs) = [a, c] := by
  have right : Text.stripRight (a :: c :: cs) = [a, c] := by
    rw [Text.stripRight, List.reverse_cons, List.reverse_cons, List.append_assoc,
      List.dropWhile_append_of_pos fun x member => blank x (List.mem_reverse.1 member)]
    simp [solid']
  rw [Text.stripChars, List.dropWhile_cons_of_neg (by simp [solid]), right]

/-- The parts of a plain bid: its level, the letter, marks or blanks, and the tag. -/
theorem exists_parts_of_plain {t : Token} {w : Wildcard} (written : t.Written) (plain : t.Plain)
    (wildcard : t.wildcard? = some w) :
    ∃ a marks tag, t.raw.toList = a :: w.letter :: (marks ++ tag) ∧ Wildcard.isLevelDigit a = true ∧
      (∀ c ∈ marks, c ≠ '[' ∧ (c = '!' ∨ Text.isBlank c = true)) ∧ (tag = [] ∨ tag.head? = some '[') := by
  obtain ⟨level, first⟩ := first?_of_wildcard? written wildcard
  have short := plain (by rw [wildcard]; rfl)
  rw [short] at first
  match raw : t.raw.toList with
  | [] => rw [raw] at first; cases first
  | [a] => rw [raw] at first; cases first
  | a :: c :: rest =>
    rw [raw] at first short
    -- the first two characters are the level and the letter
    have pair : Wildcard.ofPair? a c = some w := by
      simp only [List.take_succ_cons, List.take_zero, Wildcard.first?] at first
      cases pair : Wildcard.ofPair? a c with
      | none => rw [pair] at first; cases first
      | some v =>
        rw [pair] at first
        cases first
        rfl
    obtain ⟨digit, rfl⟩ := Wildcard.ofPair?_eq_some pair
    have solid := Wildcard.isBlank_of_isLevelDigit digit
    -- neither of them is taken for a mark, or for the beginning of the tag
    have noBracket : ∀ x ∈ [a, w.letter], (x != '[') = true ∧ (x != '!') = true := by
      have digits : (Wildcard.levelDigits.all fun c => c != '[' && c != '!') = true := by decide
      intro x member
      simp only [List.mem_cons, List.not_mem_nil, or_false] at member
      rcases member with rfl | rfl
      · simpa using List.all_eq_true.1 digits x (Wildcard.mem_of_isLevelDigit digit)
      · cases w <;> decide
    have head := noBracket a (by simp)
    have second := noBracket w.letter (by simp)
    refine ⟨a, rest.takeWhile (· != '['), rest.dropWhile (· != '['), ?_, digit, ?_, ?_⟩
    · rw [List.takeWhile_append_dropWhile]
    · -- what is left before the tag is stripped away, except for marks
      have before : beforeTag (a :: w.letter :: rest) =
          a :: w.letter :: rest.takeWhile (· != '[') := by
        simp only [beforeTag, List.takeWhile_cons, head.1, second.1, if_true]
      simp only [plainChars, before, List.filter_cons, head.2, second.2, if_true] at short
      have blank := isBlank_of_stripChars solid short
      intro x member
      refine ⟨by simpa using List.mem_takeWhile_imp member, ?_⟩
      by_cases mark : x = '!'
      · exact .inl mark
      · exact .inr (blank x (List.mem_filter.2 ⟨member, by simpa using mark⟩))
    · cases tag : rest.dropWhile (· != '[') with
      | nil => exact .inl rfl
      | cons x tag' =>
        have := List.head?_dropWhile_not (· != '[') rest
        rw [tag] at this
        exact .inr (by simpa using this)

theorem list_eq_nil_of_marks {marks : List Char}
    (h : ∀ c ∈ marks, c ≠ '[' ∧ (c = '!' ∨ Text.isBlank c = true)) : Wildcard.list marks = [] := by
  refine Wildcard.list_eq_nil fun c member => ?_
  cases digit : Wildcard.isLevelDigit c with
  | false => rfl
  | true =>
    rcases (h c member).2 with rfl | blank
    · revert digit
      decide
    · rw [Wildcard.isBlank_of_isLevelDigit digit] at blank
      cases blank

theorem bracket_not_mem_of_plain {a c : Char} {marks : List Char} (digit : Wildcard.isLevelDigit a = true)
    (letter : c ≠ '[') (h : ∀ c ∈ marks, c ≠ '[' ∧ (c = '!' ∨ Text.isBlank c = true)) :
    '[' ∉ a :: c :: marks := by
  simp only [List.mem_cons, not_or]
  refine ⟨?_, letter.symm, fun member => (h '[' member).1 rfl⟩
  rintro rfl
  revert digit
  decide

variable {t : Token} {w : Wildcard}

theorem wildcardsIn_of_plain (written : t.Written) (plain : t.Plain) (wildcard : t.wildcard? = some w) :
    wildcardsIn t.raw = [w] := by
  obtain ⟨a, marks, tag, raw, digit, marksOnly, bracket⟩ := exists_parts_of_plain written plain wildcard
  have noBracket := bracket_not_mem_of_plain digit (c := w.letter) (by cases w <;> decide) marksOnly
  rw [wildcardsIn_of_wildcard? written wildcard, raw, ← List.cons_append, ← List.cons_append,
    (beforeTag_append noBracket bracket).1]
  simp only [Wildcard.list, Wildcard.ofPair?_letter digit, list_eq_nil_of_marks marksOnly]

theorem kinds_of_plain (written : t.Written) (plain : t.Plain) (wildcard : t.wildcard? = some w) :
    kinds t.raw = [w] := by
  rw [kinds, wildcardsIn_of_plain written plain wildcard]
  cases w <;> rfl

theorem bind_of_plain (written : t.Written) (plain : t.Plain) (wildcard : t.wildcard? = some w)
    {suit? : Wildcard → Option String} {s : String} (chosen : suit? w = some s) :
    ∃ a marks tag, (bind suit? t.raw).toList = a :: (s.toList ++ (marks ++ tag)) ∧
      t.raw.toList = a :: w.letter :: (marks ++ tag) ∧ Wildcard.isLevelDigit a = true ∧
      (∀ c ∈ marks, c ≠ '[' ∧ (c = '!' ∨ Text.isBlank c = true)) ∧ (tag = [] ∨ tag.head? = some '[') := by
  obtain ⟨a, marks, tag, raw, digit, marksOnly, bracket⟩ := exists_parts_of_plain written plain wildcard
  have noBracket := bracket_not_mem_of_plain digit (c := w.letter) (by cases w <;> decide) marksOnly
  obtain ⟨before, behind⟩ := beforeTag_append noBracket bracket
  refine ⟨a, marks, tag, ?_, raw, digit, marksOnly, bracket⟩
  rw [bind, String.toList_ofList, raw, ← List.cons_append, ← List.cons_append, before, behind]
  simp [Wildcard.bindChars, Wildcard.ofPair?_letter digit, chosen,
    Wildcard.bindChars_of_list_eq_nil suit? (list_eq_nil_of_marks marksOnly)]

theorem exists_letter_of_mem_suits {settings : ExpansionSettings} {suit : String}
    (accepted : settings.Accepted) (member : suit ∈ settings.suits w) :
    ∃ x ∈ Placeholder.suitLetters, suit = String.ofList [x] := by
  have letters : (({} : ExpansionSettings).suits w).all
      (fun suit => Placeholder.suitLetters.any fun x => suit == String.ofList [x]) = true := by
    cases w <;> decide
  simpa using List.all_eq_true.1 letters suit (accepted.drawn w suit member)

theorem exists_callOf? {a x : Char} (digit : Wildcard.isLevelDigit a = true)
    (letter : x ∈ Placeholder.suitLetters) :
    Wildcard.first? [a, x] = none ∧ ∃ c, callOf? [a, x] = some c ∧ c.strainText = String.ofList [x] := by
  have all : (Wildcard.levelDigits.all fun a => Placeholder.suitLetters.all fun x =>
      (Wildcard.first? [a, x]).isNone &&
        (callOf? [a, x]).any fun c => c.strainText == String.ofList [x]) = true := by decide +kernel
  have here := List.all_eq_true.1
    (List.all_eq_true.1 all a (Wildcard.mem_of_isLevelDigit digit)) x letter
  rw [Bool.and_eq_true, Option.isNone_iff_eq_none] at here
  obtain ⟨c, known, strain⟩ := (Option.any_eq_true _ _).1 here.2
  exact ⟨here.1, c, known, by simpa using strain⟩

/-- Whether blanks are to be stripped does not depend on a letter in the middle. -/
theorem stripChars_eq_self {a c x : Char} {rest : List Char} (solid : Text.isBlank a = false)
    (solid' : Text.isBlank x = false) (stripped : Text.stripChars (a :: c :: rest) = a :: c :: rest) :
    Text.stripChars (a :: x :: rest) = a :: x :: rest := by
  rw [Text.stripChars, List.dropWhile_cons_of_neg (by simp [solid]), Text.stripRight_eq_rdropWhile,
    List.rdropWhile_eq_self_iff] at stripped ⊢
  intro nonempty
  have last := stripped (by simp)
  cases rest with
  | nil => simpa using solid'
  | cons y rest => simpa using last

end Token

/-- Binding makes a plain bid one of the suit that is chosen. -/
theorem exists_call_of_plain {t : Token} {w : Wildcard} (written : t.Written) (plain : t.Plain)
    (wildcard : t.wildcard? = some w) {b : Binding} {x : Char} (letter : x ∈ Placeholder.suitLetters)
    (chosen : b.suit? w = some (String.ofList [x])) :
    ∃ c, (Node.bindToken b t).key = .call c ∧ c.strainText = String.ofList [x] := by
  obtain ⟨a, marks, tag, bound, raw, digit, marksOnly, bracket⟩ :=
    Token.bind_of_plain written plain wildcard chosen
  rw [String.toList_ofList, List.singleton_append] at bound
  obtain ⟨first, c, call, strain⟩ := Token.exists_callOf? digit letter
  -- no suit and no level is a blank or a special sign
  have suits : (Placeholder.suitLetters.all fun x =>
      !Text.isBlank x && x != '[' && x != '!' && x != '|') = true := by decide
  have levels : (Wildcard.levelDigits.all fun a => a != '!' && a != '|') = true := by decide
  obtain ⟨⟨⟨solid', noBracket'⟩, noMark'⟩, noBar'⟩ :
      ((Text.isBlank x = false ∧ x ≠ '[') ∧ x ≠ '!') ∧ x ≠ '|' := by
    simpa using List.all_eq_true.1 suits x letter
  obtain ⟨noMark, noBar⟩ : a ≠ '!' ∧ a ≠ '|' := by
    simpa using List.all_eq_true.1 levels a (Wildcard.mem_of_isLevelDigit digit)
  have solid := Wildcard.isBlank_of_isLevelDigit digit
  -- the bound text is read as a single bid: no blanks around it, nothing but marks behind, no bar
  have stripped : Text.stripChars (a :: x :: (marks ++ tag)) = a :: x :: (marks ++ tag) := by
    refine Token.stripChars_eq_self (c := w.letter) solid solid' ?_
    rw [← raw]
    exact (Token.raw_of_parseChars? written).symm
  have plainChars : Token.plainChars (a :: x :: (marks ++ tag)) = [a, x] := by
    have noBracket := Token.bracket_not_mem_of_plain digit noBracket' marksOnly
    rw [Token.plainChars, ← List.cons_append, ← List.cons_append,
      (Token.beforeTag_append noBracket bracket).1, List.filter_cons_of_pos (by simpa using noMark),
      List.filter_cons_of_pos (by simpa using noMark')]
    refine Token.stripChars_of_isBlank solid solid' fun y member => ?_
    obtain ⟨place, noMark⟩ := List.mem_filter.1 member
    exact (marksOnly y place).2.resolve_left (by simpa using noMark)
  have bar : '|' ∉ a :: x :: (marks ++ tag) := by
    have original := Token.bar_not_mem_of_wildcard? written wildcard
    rw [raw] at original
    simp only [List.mem_cons, not_or] at original ⊢
    exact ⟨noBar.symm, noBar'.symm, original.2.2⟩
  have parsed : Token.parse? (Token.bind b.suit? t.raw) =
      some (Token.parseSingle (a :: x :: (marks ++ tag))) := by
    rw [Token.parse?, bound, Token.parseChars?, stripped]
    simp [bar]
  refine ⟨c, ?_, strain⟩
  rw [Node.bindToken, wildcard, parsed]
  simp [Token.parseSingle, plainChars, first, call, Token.key, Token.call?]

end BidBook
