import Mathlib.Data.List.DropRight
import BidBook.Expansion.Binding

/-! # Written tokens

A token that was read from a text is read again from its own text. So a position's key tells everything
about how its token goes on: as a choice between branches, or as a bid of an open suit.

* `Text.stripChars_stripChars` — nothing is left to strip from a stripped text.
* `Token.Written` — tokens that their own text writes.
* `Token.written_of_parse?`, `Token.Written.of_mem_alternatives` — where they come from.
* `Token.Written.parse?_of_key` — a token without a call is known by its key.
* `Token.mem_wildcardsIn_of_mem_alternatives` — a choice has the wildcards of its branches.
-/

namespace BidBook

/-! ## Stripped texts -/

namespace Text

theorem stripRight_eq_rdropWhile (cs : List Char) : stripRight cs = cs.rdropWhile isBlank := rfl

theorem dropWhile_stripRight {cs : List Char} (h : cs.dropWhile isBlank = cs) :
    (stripRight cs).dropWhile isBlank = stripRight cs := by
  cases cs with
  | nil => rfl
  | cons c rest =>
    have start : isBlank c = false := by
      by_contra blank
      have shorter := List.length_dropWhile_le isBlank rest
      rw [List.dropWhile_cons_of_pos (by simpa using blank)] at h
      rw [h, List.length_cons] at shorter
      omega
    cases result : stripRight (c :: rest) with
    | nil => rfl
    | cons d rest' =>
      have begins : d :: rest' <+: c :: rest := result ▸ List.rdropWhile_prefix isBlank (c :: rest)
      rw [List.cons_prefix_cons] at begins
      rw [List.dropWhile_cons_of_neg (by simp [begins.1, start])]

theorem stripChars_stripChars (cs : List Char) : stripChars (stripChars cs) = stripChars cs := by
  have left : (cs.dropWhile isBlank).dropWhile isBlank = cs.dropWhile isBlank :=
    List.dropWhile_idempotent isBlank cs
  rw [stripChars, stripChars, dropWhile_stripRight left]
  exact List.rdropWhile_idempotent isBlank _

/-- What is stripped away at the end of a text is blank. -/
theorem exists_stripRight (cs : List Char) :
    ∃ after, cs = stripRight cs ++ after ∧ ∀ c ∈ after, isBlank c = true := by
  refine ⟨(cs.reverse.takeWhile isBlank).reverse, ?_, fun c member => ?_⟩
  · rw [stripRight, ← List.reverse_append, List.takeWhile_append_dropWhile, List.reverse_reverse]
  · exact List.mem_takeWhile_imp (List.mem_reverse.1 member)

/-- A stripped text is the text without blanks before and after it. -/
theorem exists_stripChars (cs : List Char) :
    ∃ before after, cs = before ++ stripChars cs ++ after ∧ (∀ c ∈ before, isBlank c = true) ∧
      ∀ c ∈ after, isBlank c = true := by
  obtain ⟨after, right, blank⟩ := exists_stripRight (cs.dropWhile isBlank)
  refine ⟨cs.takeWhile isBlank, after, ?_, fun c member => List.mem_takeWhile_imp member, blank⟩
  rw [List.append_assoc, stripChars, ← right, List.takeWhile_append_dropWhile]

theorem mem_of_mem_stripChars {c : Char} {cs : List Char} (member : c ∈ stripChars cs) : c ∈ cs := by
  obtain ⟨before, after, eq, _, _⟩ := exists_stripChars cs
  rw [eq]
  simp [member]

theorem not_mem_of_mem_splitAt {sep : Char} {cs part : List Char} (member : part ∈ splitAt sep cs) :
    sep ∉ part := by
  induction cs generalizing part with
  | nil =>
    simp only [splitAt, List.mem_singleton] at member
    simp [member]
  | cons c rest ih =>
    unfold splitAt at member
    split at member
    · rcases List.mem_cons.1 member with rfl | later
      · simp
      · exact ih later
    · next other =>
      have other' : sep ≠ c := fun e => other (by simp [e])
      split at member
      · simp_all
      · next part' parts split =>
        rcases List.mem_cons.1 member with rfl | later
        · simp only [List.mem_cons, other', false_or]
          exact ih (split ▸ List.mem_cons_self)
        · exact ih (split ▸ List.mem_cons_of_mem _ later)

theorem splitAt_of_not_mem {sep : Char} {cs : List Char} (absent : sep ∉ cs) :
    splitAt sep cs = [cs] := by
  induction cs with
  | nil => rfl
  | cons c rest ih =>
    simp only [List.mem_cons, not_or] at absent
    have other : (c == sep) = false := by simpa using fun e : c = sep => absent.1 e.symm
    simp [splitAt, other, ih absent.2]

end Text

/-! ## Wildcards in a stripped text -/

namespace Wildcard

theorem ofPair?_of_isBlank_left {a : Char} (b : Char) (blank : Text.isBlank a = true) :
    ofPair? a b = none := by
  have low : ('1' ≤ a) ↔ 49 ≤ a.toNat := Iff.rfl
  have high : (a ≤ '7') ↔ a.toNat ≤ 55 := Iff.rfl
  simp only [ofPair?, isLevelDigit, low, high, Bool.and_eq_true, decide_eq_true_eq]
  rw [if_neg]
  intro digit
  simp only [Text.isBlank, Bool.or_eq_true, Bool.and_eq_true, decide_eq_true_eq, beq_iff_eq] at blank
  omega

theorem ofPair?_of_isBlank_right (a : Char) {b : Char} (blank : Text.isBlank b = true) :
    ofPair? a b = none := by
  have noLetter : ofLetter? b = none := by
    unfold ofLetter?
    split
    · exact absurd blank (by decide)
    · exact absurd blank (by decide)
    · exact absurd blank (by decide)
    · rfl
  simp [ofPair?, noLetter]

theorem list_cons_of_isBlank {c : Char} (cs : List Char) (blank : Text.isBlank c = true) :
    list (c :: cs) = list cs := by
  cases cs with
  | nil => rfl
  | cons d rest => simp [list, ofPair?_of_isBlank_left d blank]

theorem list_append_of_isBlank (cs : List Char) {c : Char} (blank : Text.isBlank c = true) :
    list (cs ++ [c]) = list cs := by
  fun_induction list cs with
  | case1 a b rest w pair ih => simp [list, pair, ih]
  | case2 a b rest pair ih => simpa [list, pair] using ih
  | case3 cs short =>
    match cs with
    | [] => rfl
    | [a] => simp [list, ofPair?_of_isBlank_right a blank]
    | a :: b :: rest => exact absurd rfl (short a b rest)

theorem list_append_blanks (before cs after : List Char)
    (left : ∀ c ∈ before, Text.isBlank c = true) (right : ∀ c ∈ after, Text.isBlank c = true) :
    list (before ++ cs ++ after) = list cs := by
  have trailing : ∀ cs : List Char, list (cs ++ after) = list cs := by
    induction after with
    | nil => simp
    | cons c rest ih =>
      intro cs
      rw [List.forall_mem_cons] at right
      rw [List.append_cons, ih right.2, list_append_of_isBlank cs right.1]
  rw [trailing]
  induction before with
  | nil => rfl
  | cons c rest ih =>
    rw [List.forall_mem_cons] at left
    rw [List.cons_append, list_cons_of_isBlank _ left.1, ih left.2]

end Wildcard

namespace Token

theorem beforeTag_eq_self {cs : List Char} (h : '[' ∉ cs) : beforeTag cs = cs := by
  simp only [beforeTag, List.takeWhile_eq_self_iff]
  intro c member
  simpa using fun e : c = '[' => h (e ▸ member)

theorem beforeTag_append {front tag : List Char} (noBracket : '[' ∉ front)
    (bracket : tag = [] ∨ tag.head? = some '[') :
    beforeTag (front ++ tag) = front ∧ (front ++ tag).dropWhile (· != '[') = tag := by
  have passes : ∀ c ∈ front, (c != '[') = true := fun c member => by
    simpa using fun e : c = '[' => noBracket (e ▸ member)
  rw [beforeTag, List.takeWhile_append_of_pos passes, List.dropWhile_append_of_pos passes]
  rcases bracket with rfl | head
  · simp
  · cases tag with
    | nil => cases head
    | cons c tag =>
      obtain rfl : c = '[' := Option.some.inj head
      simp

theorem bracket_not_mem_of_blanks {cs : List Char} (h : ∀ c ∈ cs, Text.isBlank c = true) :
    '[' ∉ cs := fun member => absurd (h _ member) (by decide)

/-- What is before the tag of a stripped text lacks nothing but blanks. -/
theorem exists_beforeTag_stripChars (cs : List Char) : ∃ before after,
    beforeTag cs = before ++ beforeTag (Text.stripChars cs) ++ after ∧
      (∀ c ∈ before, Text.isBlank c = true) ∧ ∀ c ∈ after, Text.isBlank c = true := by
  obtain ⟨before, after, eq, left, right⟩ := Text.exists_stripChars cs
  have passes : ∀ c ∈ before, (c != '[') = true := fun c member => by
    have := bracket_not_mem_of_blanks left
    simpa using fun e : c = '[' => this (e ▸ member)
  -- blanks may be stripped behind the tag only, or else on both sides of what is before it
  by_cases tagged : '[' ∈ Text.stripChars cs
  · have stops : beforeTag (Text.stripChars cs ++ after) = beforeTag (Text.stripChars cs) := by
      rw [beforeTag, List.takeWhile_append, if_neg]
      · rfl
      · intro whole
        have all := (List.takeWhile_prefix (fun c => c != '[')).eq_of_length whole
        have none := List.takeWhile_eq_self_iff.1 all '[' tagged
        simp at none
    refine ⟨before, [], ?_, left, by simp⟩
    conv => lhs; rw [eq]
    rw [List.append_assoc, beforeTag, List.takeWhile_append_of_pos passes, ← stops, List.append_nil]
    rfl
  · have whole : '[' ∉ before ++ Text.stripChars cs ++ after := by
      simp only [List.mem_append, not_or]
      exact ⟨⟨bracket_not_mem_of_blanks left, tagged⟩, bracket_not_mem_of_blanks right⟩
    refine ⟨before, after, ?_, left, right⟩
    conv => lhs; rw [eq]
    rw [beforeTag_eq_self whole, beforeTag_eq_self tagged]

theorem list_beforeTag_stripChars (cs : List Char) :
    Wildcard.list (beforeTag (Text.stripChars cs)) = Wildcard.list (beforeTag cs) := by
  obtain ⟨before, after, eq, left, right⟩ := exists_beforeTag_stripChars cs
  rw [eq, Wildcard.list_append_blanks _ _ _ left right]

/-! ## Tokens and their texts -/

/-- The token is what its own text writes. -/
def Written (t : Token) : Prop := parse? t.raw = some t

instance (t : Token) : Decidable t.Written := inferInstanceAs (Decidable (parse? t.raw = some t))

theorem raw_parseSingle (cs : List Char) : (parseSingle cs).raw = String.ofList cs := by
  simp only [parseSingle]
  split
  · rfl
  · split <;> rfl

theorem isChoice_parseSingle (cs : List Char) : (parseSingle cs).isChoice = false := by
  simp only [parseSingle]
  split
  · rfl
  · split <;> rfl

theorem raw_of_parseChars? {cs : List Char} {t : Token} (h : parseChars? cs = some t) :
    t.raw.toList = Text.stripChars cs := by
  simp only [parseChars?] at h
  split at h
  · cases h
  · split at h
    · cases h
      simp
    · cases h
      rw [raw_parseSingle, String.toList_ofList]

/-- Whatever is read from a text is read again from its own. -/
theorem written_of_parse? {raw : String} {t : Token} (h : parse? raw = some t) : t.Written := by
  have same : Text.stripChars t.raw.toList = Text.stripChars raw.toList := by
    rw [raw_of_parseChars? h, Text.stripChars_stripChars]
  rw [Written, parse?, parseChars?, same]
  exact h

theorem written_parseSingle {cs : List Char} (stripped : Text.stripChars cs = cs)
    (nonempty : cs ≠ []) (plain : '|' ∉ cs) : (parseSingle cs).Written := by
  rw [Written, raw_parseSingle, parse?, String.toList_ofList]
  simp [parseChars?, stripped, nonempty, plain]

/-- What tells a written choice: its text, and its branches between the bars. -/
theorem branches_of_written {t : Token} (written : t.Written) {branches : List String}
    (choice : t.reading = .choice branches) :
    branches = (branchTexts t.raw.toList).map String.ofList := by
  have h := written
  rw [Written, parse?, parseChars?] at h
  have stripped : Text.stripChars t.raw.toList = t.raw.toList := by
    conv => rhs; rw [raw_of_parseChars? written]
  simp only [stripped] at h
  -- a choice was not read from a text that is empty, nor from one without bars
  split at h
  · cases h
  · split at h
    · have eq : _ = t := Option.some.inj h
      have reading := congrArg Token.reading eq
      rw [choice] at reading
      dsimp only at reading
      split at reading
      · cases reading
      · exact (Reading.choice.inj reading).symm
    · have eq : _ = t := Option.some.inj h
      have single := isChoice_parseSingle t.raw.toList
      rw [eq, isChoice, choice] at single
      cases single

theorem exists_branch_of_mem_alternatives {t u : Token} (written : t.Written)
    (member : u ∈ t.alternatives) :
    ∃ part ∈ Text.splitAt '|' t.raw.toList, Text.stripChars part ≠ [] ∧
      u = parseSingle (Text.stripChars part) := by
  unfold alternatives at member
  split at member
  · next branches choice =>
    rw [branches_of_written written choice] at member
    simp only [branchTexts, List.map_map, List.mem_map, List.mem_filter] at member
    obtain ⟨branch, ⟨⟨part, place, rfl⟩, nonempty⟩, rfl⟩ := member
    exact ⟨part, place, by simpa using nonempty, by simp⟩
  · cases member

theorem Written.of_mem_alternatives {t u : Token} (written : t.Written)
    (member : u ∈ t.alternatives) : u.Written := by
  obtain ⟨part, place, nonempty, rfl⟩ := exists_branch_of_mem_alternatives written member
  exact written_parseSingle (Text.stripChars_stripChars part) nonempty fun bar =>
    Text.not_mem_of_mem_splitAt place (Text.mem_of_mem_stripChars bar)

/-- A choice has the wildcards of its branches. -/
theorem mem_wildcardsIn_of_mem_alternatives {t u : Token} {w : Wildcard} (written : t.Written)
    (member : u ∈ t.alternatives) (occurs : w ∈ wildcardsIn u.raw) : w ∈ wildcardsIn t.raw := by
  obtain ⟨part, place, _, rfl⟩ := exists_branch_of_mem_alternatives written member
  have plain : '|' ∉ Text.stripChars part := fun bar =>
    Text.not_mem_of_mem_splitAt place (Text.mem_of_mem_stripChars bar)
  rw [raw_parseSingle, wildcardsIn, String.toList_ofList, Text.splitAt_of_not_mem plain,
    List.flatMap_singleton, list_beforeTag_stripChars] at occurs
  exact List.mem_flatMap.2 ⟨part, place, occurs⟩

theorem isChoice_of_mem_alternatives {t u : Token} (member : u ∈ t.alternatives) :
    u.isChoice = false := by
  unfold alternatives at member
  split at member
  · obtain ⟨b, _, rfl⟩ := List.mem_map.1 member
    exact isChoice_parseSingle _
  · cases member

theorem Written.parse?_of_key {t : Token} {raw : String} (written : t.Written)
    (key : t.key = .text raw) : parse? raw = some t := by
  have eq : t.raw = raw := by
    unfold Token.key at key
    split at key
    · cases key
    · exact Key.text.inj key
  exact eq ▸ written

theorem call?_of_key {t : Token} {c : Call} (key : t.key = .call c) : t.call? = some c := by
  unfold Token.key at key
  split at key
  · next c' known => rw [known, Key.call.inj key]
  · cases key

end Token

end BidBook
