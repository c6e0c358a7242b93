import BidBook.Expansion.Binding
import Mathlib.Data.List.Nodup

/-! # Placeholders

The shorthands that a chosen suit gives are placeholders: a dollar sign with a name behind it, and a
suit that stands for both. Writing out such a shorthand fills its placeholder in, from left to
right. A text in which some placeholders are filled in already stays one with every further step,
until nothing is left to tell them apart.

* `Placeholder.fill` — a text with one placeholder filled in.
* `Placeholder.expand_shorthand` — writing out the shorthand does the same.
* `Placeholder.Filled` — a text and one in which some of its placeholders are filled in.
* `Filled.fill`, `Filled.replaceDepth` — every step of writing out keeps this.
-/

namespace BidBook

/-! ## Literal patterns -/

namespace Pattern

/-- The expression of a text without special signs. -/
def Expr.literal : List Char → Expr
  | [] => .empty
  | [c] => .char (.single false c.toNat)
  | c :: rest => .seq (.char (.single false c.toNat)) (literal rest)

/-- One step over a single character: the text goes on with it, or else there is none. -/
theorem Cursor.step?_single (c : Cursor) (x : Char) :
    (∃ c', c.step? (CharSet.single false x.toNat).holds = some c' ∧ c.after = x :: c'.after) ∨
      (c.step? (CharSet.single false x.toNat).holds = none ∧ ∀ rest, c.after ≠ x :: rest) := by
  unfold Cursor.step?
  cases next : c.next? with
  | none =>
    refine .inr ⟨rfl, fun rest after => ?_⟩
    unfold Cursor.next? at next
    split at next
    · next empty => rw [after] at empty; cases empty
    · cases next
  | some step =>
    obtain ⟨y, c'⟩ := step
    have after := (Cursor.text_of_next? next).2
    simp only [CharSet.holds_single, beq_iff_eq]
    by_cases same : y = x
    · exact .inl ⟨c', by rw [if_pos same], same ▸ after⟩
    · refine .inr ⟨by rw [if_neg same], fun rest after' => same ?_⟩
      rw [after, List.cons.injEq] at after'
      exact after'.1

/-- A literal text is matched where the text goes on with it, and nowhere else. -/
theorem Expr.run_literal (cs : List Char) (c : Cursor) (k : Continuation) :
    (∃ c', (literal cs).run c k = k c' ∧ c.after = cs ++ c'.after) ∨
      ((literal cs).run c k = none ∧ ¬ cs <+: c.after) := by
  fun_induction literal cs generalizing c with
  | case1 => exact .inl ⟨c, rfl, rfl⟩
  | case2 x =>
    rcases c.step?_single x with ⟨c', step, after⟩ | ⟨step, other⟩
    · exact .inl ⟨c', by rw [run, step, Option.bind_some], after⟩
    · refine .inr ⟨by rw [run, step, Option.bind_none], ?_⟩
      rintro ⟨rest, after⟩
      exact other rest after.symm
  | case3 x cs nonempty ih =>
    rcases c.step?_single x with ⟨c', step, after⟩ | ⟨step, other⟩
    · rcases ih c' with ⟨c'', later, after'⟩ | ⟨later, other⟩
      · exact .inl ⟨c'', by rw [run, run, step, Option.bind_some, later], by rw [after, after']; rfl⟩
      · refine .inr ⟨by rw [run, run, step, Option.bind_some, later], fun here => other ?_⟩
        rw [after, List.cons_prefix_cons] at here
        exact here.2
    · refine .inr ⟨by rw [run, run, step, Option.bind_none], ?_⟩
      rintro ⟨rest, after⟩
      exact other (cs ++ rest) after.symm

end Pattern

/-! ## Filling in -/

/-- A name behind a dollar sign, and what stands for both. -/
structure Placeholder where
  name : List Char
  text : List Char
  deriving DecidableEq

namespace Placeholder

def shorthand (p : Placeholder) : Shorthand :=
  ⟨String.ofList ('\\' :: '$' :: p.name), String.ofList p.text⟩

/-- A text with the placeholder filled in wherever it stands. -/
def fill (p : Placeholder) : List Char → List Char
  | [] => []
  | c :: rest =>
    if c = '$' ∧ p.name <+: rest then p.text ++ p.fill (rest.drop p.name.length)
    else c :: p.fill rest
termination_by cs => cs.length
decreasing_by
  · simp only [List.length_drop, List.length_cons]
    omega
  · simp

def names : List (List Char) := [['M'], ['O', 'M'], ['m'], ['O', 'm'], ['X']]

open Pattern in
theorem read_shorthand [CharNames] {p : Placeholder} (known : p.name ∈ names) :
    Expr.read p.shorthand.pattern = .ok (Expr.literal ('$' :: p.name)) := by
  obtain ⟨name, text⟩ := p
  simp only [names, List.mem_cons, List.not_mem_nil, or_false] at known
  rw [shorthand, Expr.read, String.toList_ofList]
  rcases known with rfl | rfl | rfl | rfl | rfl <;> rfl

open Pattern in
theorem replaceFrom_literal (p : Placeholder) {fuel : Nat} {nonempty : Bool} {c : Cursor}
    (enough : c.after.length < fuel) :
    (Expr.literal ('$' :: p.name)).replaceFrom p.text fuel nonempty c = p.fill c.after := by
  -- every step consumes a character, so the fuel lasts
  induction fuel generalizing nonempty c with
  | zero => omega
  | succ fuel ih =>
    rw [Expr.replaceFrom]
    unfold Expr.matchAt?
    rcases Expr.run_literal ('$' :: p.name) c
        (fun c' => if nonempty && c'.left == c.left then none else some c') with
      ⟨c', run, after⟩ | ⟨run, other⟩
    · -- a match consumes its dollar sign at least
      have shorter : c'.left < c.left := by
        rw [c'.left_eq, c.left_eq, after, List.length_append, List.length_cons]
        omega
      have moved : (c'.left == c.left) = false := by simp; omega
      rw [run, moved, Bool.and_false, if_neg Bool.false_ne_true, after, List.cons_append, fill,
        if_pos ⟨rfl, List.prefix_append _ _⟩, List.drop_left]
      dsimp only
      rw [ih]
      rw [after] at enough
      simp at enough ⊢
      omega
    · rw [run]
      cases next : c.next? with
      | none =>
        have empty : c.after = [] := by
          unfold Cursor.next? at next
          split at next
          · next empty => exact empty
          · cases next
        simp [empty, fill]
      | some step =>
        obtain ⟨x, c'⟩ := step
        have after := (Cursor.text_of_next? next).2
        dsimp only
        rw [after] at enough other ⊢
        rw [fill, if_neg]
        · rw [ih (by simpa using enough)]
        · rintro ⟨rfl, here⟩
          exact other (List.cons_prefix_cons.2 ⟨rfl, here⟩)

/-- Writing out the shorthand of a placeholder fills it in. -/
theorem expand_shorthand [Pattern.CharNames] {p : Placeholder} (known : p.name ∈ names) (text : String) :
    p.shorthand.expand text = .ok (String.ofList (p.fill text.toList)) := by
  unfold Shorthand.expand Pattern.replace
  rw [read_shorthand known]
  show Except.ok _ = _
  rw [Pattern.Expr.replaceAll, shorthand, String.toList_ofList, replaceFrom_literal]
  dsimp only
  omega

/-! ## Texts that are filled in -/

def suitLetters : List Char := ['C', 'D', 'H', 'S']

/-- A placeholder of an open suit, and a suit. -/
structure Known (p : Placeholder) : Prop where
  name : p.name ∈ names
  text : ∃ x ∈ suitLetters, p.text = [x]

/-- A character that neither begins a placeholder nor stands for one. -/
def Plain (c : Char) : Prop := c ≠ '$' ∧ c ∉ suitLetters

theorem plain_of_mem_name {name : List Char} (known : name ∈ names) : ∀ c ∈ name, Plain c := by
  simp only [names, List.mem_cons, List.not_mem_nil, or_false] at known
  rcases known with rfl | rfl | rfl | rfl | rfl <;> simp [Plain, suitLetters]

theorem plain_of_isDigit {c : Char} (digit : Text.isDigit c = true) : Plain c := by
  constructor
  · rintro rfl
    revert digit
    decide
  · intro suit
    simp only [suitLetters, List.mem_cons, List.not_mem_nil, or_false] at suit
    rcases suit with rfl | rfl | rfl | rfl <;> revert digit <;> decide

/-- No name begins another. -/
theorem eq_of_begins {name other : List Char} (known : name ∈ names) (known' : other ∈ names)
    (begins : name <+: other) : name = other := by
  revert known known' begins
  simp only [names, List.mem_cons, List.not_mem_nil, or_false]
  rintro (rfl | rfl | rfl | rfl | rfl) (rfl | rfl | rfl | rfl | rfl) <;> decide

theorem fill_nil (p : Placeholder) : p.fill [] = [] := by rw [fill]

theorem fill_hit {p : Placeholder} {c : Char} {rest : List Char}
    (here : c = '$' ∧ p.name <+: rest) :
    p.fill (c :: rest) = p.text ++ p.fill (rest.drop p.name.length) := by
  rw [fill, if_pos here]

theorem fill_miss {p : Placeholder} {c : Char} {rest : List Char}
    (other : ¬ (c = '$' ∧ p.name <+: rest)) : p.fill (c :: rest) = c :: p.fill rest := by
  rw [fill, if_neg other]

def startsNumeral (numeral rest : List Char) : Bool :=
  numeral.isPrefixOf rest && !(rest.drop numeral.length).head?.any Text.isDigit

theorem prefix_of_startsNumeral {numeral rest : List Char} (h : startsNumeral numeral rest = true) :
    numeral <+: rest := by
  rw [startsNumeral, Bool.and_eq_true] at h
  exact List.isPrefixOf_iff_prefix.1 h.1

theorem replaceDepth_skip (numeral strain : List Char) (skip : Nat) (cs : List Char) :
    replaceDepth numeral strain skip cs = replaceDepth numeral strain 0 (cs.drop skip) := by
  induction skip generalizing cs with
  | zero => rw [List.drop_zero]
  | succ skip ih =>
    cases cs with
    | nil => rfl
    | cons c rest => rw [replaceDepth, ih, List.drop_succ_cons]

theorem replaceDepth_cons (numeral strain : List Char) (c : Char) (rest : List Char) :
    replaceDepth numeral strain 0 (c :: rest) =
      if c == '$' && startsNumeral numeral rest then
        strain ++ replaceDepth numeral strain 0 (rest.drop numeral.length)
      else c :: replaceDepth numeral strain 0 rest := by
  rw [replaceDepth, replaceDepth_skip _ _ numeral.length, startsNumeral, Bool.and_assoc]

theorem replaceDepth_append (numeral strain : List Char) {front : List Char} (noDollar : '$' ∉ front)
    (rest : List Char) : replaceDepth numeral strain 0 (front ++ rest) =
      front ++ replaceDepth numeral strain 0 rest := by
  induction front with
  | nil => rfl
  | cons c front ih =>
    rw [List.mem_cons, not_or] at noDollar
    have other : (c == '$') = false := beq_eq_false_iff_ne.2 fun same => noDollar.1 same.symm
    rw [List.cons_append, replaceDepth_cons, other, Bool.false_and, if_neg Bool.false_ne_true,
      ih noDollar.2, List.cons_append]

theorem exists_letter_of_mem_names {name : List Char} (known : name ∈ names) :
    ∃ x rest, name = x :: rest ∧ Text.isDigit x = false := by
  simp only [names, List.mem_cons, List.not_mem_nil, or_false] at known
  rcases known with rfl | rfl | rfl | rfl | rfl <;> exact ⟨_, _, rfl, by decide⟩

/-- Nothing is filled in where there are no dollar signs. -/
theorem fill_append (p : Placeholder) {front : List Char} (noDollar : '$' ∉ front) (rest : List Char) :
    p.fill (front ++ rest) = front ++ p.fill rest := by
  induction front with
  | nil => rfl
  | cons c front ih =>
    rw [List.mem_cons, not_or] at noDollar
    rw [List.cons_append, fill_miss fun here => noDollar.1 here.1.symm, ih noDollar.2,
      List.cons_append]

theorem Known.dollar_not_mem_text {p : Placeholder} (known : p.Known) : '$' ∉ p.text := by
  obtain ⟨x, letter, text⟩ := known.text
  rw [text, List.mem_singleton]
  rintro rfl
  revert letter
  decide

theorem dollar_not_mem_name {name : List Char} (known : name ∈ names) : '$' ∉ name :=
  fun member => (plain_of_mem_name known _ member).1 rfl

theorem length_drop_lt (m : Nat) (c : Char) (rest : List Char) :
    (rest.drop m).length < (c :: rest).length := by
  rw [List.length_drop, List.length_cons]
  omega

theorem length_lt_append (c : Char) (front rest : List Char) :
    rest.length < (c :: (front ++ rest)).length := by
  rw [List.length_cons, List.length_append]
  omega

/-- A text, and the same with some placeholders filled in. -/
inductive Filled (table : List Placeholder) : List Char → List Char → Prop where
  | nil : Filled table [] []
  | cons {a b : List Char} (c : Char) (rest : Filled table a b) : Filled table (c :: a) (c :: b)
  | hole {a b : List Char} {p : Placeholder} (member : p ∈ table) (rest : Filled table a b) :
      Filled table ('$' :: (p.name ++ a)) (p.text ++ b)

namespace Filled

variable {table : List Placeholder} {a b : List Char}

theorem refl (a : List Char) : Filled table a a := by
  induction a with
  | nil => exact .nil
  | cons c a ih => exact .cons c ih

theorem append_left (front : List Char) (filled : Filled table a b) :
    Filled table (front ++ a) (front ++ b) := by
  induction front with
  | nil => exact filled
  | cons c front ih => exact .cons c ih

/-- With no placeholders to fill in the texts are the same. -/
theorem eq_of_nil (filled : Filled [] a b) : a = b := by
  induction filled with
  | nil => rfl
  | cons c _ ih => rw [ih]
  | hole member => cases member

theorem of_plain (known : ∀ p ∈ table, Known p) (filled : Filled table a b) {front : List Char}
    (plain : ∀ c ∈ front, Plain c) :
    (front <+: a ↔ front <+: b) ∧
      (front <+: a → Filled table (a.drop front.length) (b.drop front.length)) := by
  induction front generalizing a b with
  | nil => exact ⟨by simp, fun _ => filled⟩
  | cons x front ih =>
    rw [List.forall_mem_cons] at plain
    cases filled with
    | nil => simp
    | cons c rest =>
      obtain ⟨same, later⟩ := ih rest plain.2
      simp only [List.cons_prefix_cons, List.length_cons, List.drop_succ_cons, same, true_and]
      exact fun here => later (same.2 here.2)
    | @hole a b p member rest =>
      obtain ⟨suit, letter, text⟩ := (known p member).text
      -- plain characters are neither the dollar sign of a hole nor the suit that fills one
      have noDollar : ¬ x :: front <+: '$' :: (p.name ++ a) := by
        rw [List.cons_prefix_cons]
        exact fun here => plain.1.1 here.1
      have noSuit : ¬ x :: front <+: p.text ++ b := by
        rw [text, List.singleton_append, List.cons_prefix_cons]
        exact fun here => plain.1.2 (here.1 ▸ letter)
      exact ⟨iff_of_false noDollar noSuit, fun here => absurd here noDollar⟩

/-- Filling in one of the placeholders makes no new difference. -/
theorem fill_right {p : Placeholder} (known : ∀ q ∈ table, Known q) (member : p ∈ table)
    (filled : Filled table a b) : Filled table a (p.fill b) := by
  -- filling in goes on behind a name, so the induction is on the length of the text
  induction h : b.length using Nat.strongRecOn generalizing a b with
  | _ n ih =>
    subst h
    cases filled with
    | nil => rw [fill_nil]; exact .nil
    | @cons a b c rest =>
      by_cases here : c = '$' ∧ p.name <+: b
      · rw [fill_hit here]
        obtain ⟨rfl, here⟩ := here
        obtain ⟨same, later⟩ := rest.of_plain known (plain_of_mem_name (known p member).name)
        obtain ⟨a', rfl⟩ := same.2 here
        have filled := later (List.prefix_append _ _)
        rw [List.drop_left] at filled
        exact .hole member (ih _ (length_drop_lt _ _ _) filled rfl)
      · rw [fill_miss here]
        exact .cons c (ih _ (by simp) rest rfl)
    | @hole a b q other rest =>
      rw [p.fill_append (known q other).dollar_not_mem_text]
      have shorter : b.length < (q.text ++ b).length := by
        obtain ⟨suit, _, text⟩ := (known q other).text
        simp [text]
      exact .hole other (ih _ shorter rest rfl)

/-- Filling in a placeholder in both texts takes away the difference that it made. -/
theorem fill {p : Placeholder} (known : ∀ q ∈ table, Known q) (named : p.name ∈ names)
    (consistent : ∀ q ∈ table, q.name = p.name → q = p) (filled : Filled table a b) :
    Filled (table.filter (· ≠ p)) (p.fill a) (p.fill b) := by
  induction h : a.length using Nat.strongRecOn generalizing a b with
  | _ n ih =>
    subst h
    cases filled with
    | nil => rw [fill_nil]; exact .nil
    | @cons a b c rest =>
      obtain ⟨same, later⟩ := rest.of_plain known (plain_of_mem_name named)
      by_cases here : c = '$' ∧ p.name <+: a
      · rw [fill_hit here, fill_hit ⟨here.1, same.1 here.2⟩]
        exact (ih _ (length_drop_lt _ _ _) (later here.2) rfl).append_left p.text
      · rw [fill_miss here, fill_miss fun there => here ⟨there.1, same.2 there.2⟩]
        exact .cons c (ih _ (by simp) rest rfl)
    | @hole a b q member rest =>
      rw [p.fill_append (known q member).dollar_not_mem_text]
      by_cases same : q = p
      · -- this hole is filled in now
        subst same
        rw [fill_hit ⟨rfl, List.prefix_append _ _⟩, List.drop_left]
        exact (ih _ (length_lt_append _ _ _) rest rfl).append_left q.text
      · -- no name of a placeholder begins another one
        have other : ¬ p.name <+: q.name ++ a := by
          intro here
          have unnamed : q.name ≠ p.name := fun eq => same (consistent q member eq)
          rcases List.prefix_or_prefix_of_prefix here (List.prefix_append q.name a) with begins | begins
          · exact unnamed (eq_of_begins named (known q member).name begins).symm
          · exact unnamed (eq_of_begins (known q member).name named begins)
        rw [fill_miss fun here => other here.2,
          p.fill_append (dollar_not_mem_name (known q member).name)]
        exact .hole (List.mem_filter.2 ⟨member, by simpa using same⟩)
          (ih _ (length_lt_append _ _ _) rest rfl)

theorem any_head?_eq {test : Char → Bool} (known : ∀ q ∈ table, Known q) (dollar : test '$' = false)
    (letters : suitLetters.any test = false) (filled : Filled table a b) :
    a.head?.any test = b.head?.any test := by
  cases filled with
  | nil => rfl
  | cons c rest => rfl
  | @hole a b q member rest =>
    obtain ⟨x, letter, text⟩ := (known q member).text
    have other : test x = false := by simpa using List.any_eq_false.1 letters x letter
    simp [text, dollar, other]

theorem startsNumeral_eq (known : ∀ q ∈ table, Known q) {numeral : List Char}
    (plain : ∀ c ∈ numeral, Plain c) (filled : Filled table a b) :
    startsNumeral numeral a = startsNumeral numeral b := by
  obtain ⟨same, later⟩ := filled.of_plain known plain
  rw [← List.isPrefixOf_iff_prefix, ← List.isPrefixOf_iff_prefix, ← Bool.eq_iff_iff] at same
  unfold startsNumeral
  rw [same]
  cases here : numeral.isPrefixOf b with
  | false => rfl
  | true =>
    rw [here, List.isPrefixOf_iff_prefix] at same
    rw [any_head?_eq known (by decide) (by decide) (later same)]

/-- The strains of the calls on the way are written out alike in both texts. -/
theorem replaceDepth (known : ∀ q ∈ table, Known q) {numeral : List Char} (nonempty : numeral ≠ [])
    (digits : ∀ c ∈ numeral, Text.isDigit c = true) (strain : List Char) (filled : Filled table a b) :
    Filled table (replaceDepth numeral strain 0 a) (replaceDepth numeral strain 0 b) := by
  -- digits stand in both texts, or in none
  have plain : ∀ c ∈ numeral, Plain c := fun c member => plain_of_isDigit (digits c member)
  induction h : a.length using Nat.strongRecOn generalizing a b with
  | _ n ih =>
    subst h
    cases filled with
    | nil => exact .nil
    | @cons a b c rest =>
      rw [replaceDepth_cons, replaceDepth_cons, rest.startsNumeral_eq known plain]
      by_cases here : (c == '$' && startsNumeral numeral b) = true
      · rw [if_pos here, if_pos here]
        have begins : startsNumeral numeral b = true := (Bool.and_eq_true _ _ ▸ here).2
        rw [← rest.startsNumeral_eq known plain] at begins
        have later := (rest.of_plain known plain).2 (prefix_of_startsNumeral begins)
        exact (ih _ (length_drop_lt _ _ _) later rfl).append_left strain
      · rw [if_neg here, if_neg here]
        exact .cons c (ih _ (by simp) rest rfl)
    | @hole a b q member rest =>
      have other : startsNumeral numeral (q.name ++ a) = false := by
        -- a name begins with a letter
        rw [startsNumeral, Bool.and_eq_false_iff]
        left
        cases numeral with
        | nil => exact absurd rfl nonempty
        | cons d numeral =>
          have digit := digits d List.mem_cons_self
          obtain ⟨x, name, eq, letter⟩ := exists_letter_of_mem_names (known q member).name
          rw [eq, List.cons_append, List.isPrefixOf]
          have differ : d ≠ x := by
            rintro rfl
            rw [digit] at letter
            cases letter
          simp [differ]
      rw [replaceDepth_cons, other, Bool.and_false, if_neg Bool.false_ne_true,
        replaceDepth_append _ _ (dollar_not_mem_name (known q member).name),
        replaceDepth_append _ _ (known q member).dollar_not_mem_text]
      exact .hole member (ih _ (length_lt_append _ _ _) rest rfl)

end Filled

/-! ## Placeholders of open suits -/

theorem shorthand_injective : Function.Injective shorthand := by
  intro p q same
  obtain ⟨name, text⟩ := p
  obtain ⟨name', text'⟩ := q
  simp only [shorthand, Shorthand.mk.injEq] at same
  have names := String.ofList_injective same.1
  have texts := String.ofList_injective same.2
  simp only [List.cons.injEq, true_and] at names
  rw [names, texts]

end Placeholder

open Placeholder

namespace Wildcard

/-- The placeholders that a suit chosen for a kind stands for. For a major or minor suit there is
one for the other suit of its kind, too. -/
def placeholders : Wildcard → String → List Placeholder
  | major, suit => [⟨['M'], suit.toList⟩, ⟨['O', 'M'], if suit = "H" then ['S'] else ['H']⟩]
  | minor, suit => [⟨['m'], suit.toList⟩, ⟨['O', 'm'], if suit = "C" then ['D'] else ['C']⟩]
  | any, suit => [⟨['X'], suit.toList⟩]

def placeholderNames : Wildcard → List (List Char)
  | major => [['M'], ['O', 'M']]
  | minor => [['m'], ['O', 'm']]
  | any => [['X']]

theorem shorthandsFor_eq_map (w : Wildcard) (suit : String) :
    Binding.shorthandsFor w suit = (w.placeholders suit).map shorthand := by
  cases w with
  | major => by_cases hearts : suit = "H" <;> simp [Binding.shorthandsFor, placeholders, shorthand, hearts]
  | minor => by_cases clubs : suit = "C" <;> simp [Binding.shorthandsFor, placeholders, shorthand, clubs]
  | any => simp [Binding.shorthandsFor, placeholders, shorthand]

theorem map_name_placeholders (w : Wildcard) (suit : String) :
    (w.placeholders suit).map Placeholder.name = w.placeholderNames := by
  cases w <;> rfl

theorem eq_of_mem_placeholderNames {w w' : Wildcard} {name : List Char}
    (member : name ∈ w.placeholderNames) (member' : name ∈ w'.placeholderNames) : w = w' := by
  have disjoint : ∀ v v' : Wildcard, v ≠ v' → ∀ name ∈ v.placeholderNames,
      name ∉ v'.placeholderNames := by
    intro v v'
    cases v <;> cases v' <;> decide
  exact Decidable.byContradiction fun differ => disjoint w w' differ name member member'

variable {w w' : Wildcard} {suit suit' : String} {p p' : Placeholder}

theorem name_mem_of_mem_placeholders (member : p ∈ w.placeholders suit) :
    p.name ∈ w.placeholderNames := by
  rw [← map_name_placeholders w suit]
  exact List.mem_map_of_mem member

theorem eq_of_mem_placeholders (member : p ∈ w.placeholders suit) (member' : p' ∈ w.placeholders suit)
    (same : p.name = p'.name) : p = p' := by
  have distinct : ((w.placeholders suit).map Placeholder.name).Nodup := by
    rw [map_name_placeholders]
    cases w <;> decide
  exact List.inj_on_of_nodup_map distinct member member' same

theorem known_of_mem_placeholders {x : Char} (letter : x ∈ suitLetters)
    (member : p ∈ w.placeholders (String.ofList [x])) : Known p := by
  constructor
  · have included : ∀ w : Wildcard, ∀ name ∈ w.placeholderNames, name ∈ names := by
      intro w
      cases w <;> decide
    exact included w _ (name_mem_of_mem_placeholders member)
  · cases w with
    | major =>
      simp only [placeholders, String.toList_ofList, List.mem_cons, List.not_mem_nil, or_false] at member
      rcases member with rfl | rfl
      · exact ⟨x, letter, rfl⟩
      · dsimp only
        split
        · exact ⟨'S', by decide, rfl⟩
        · exact ⟨'H', by decide, rfl⟩
    | minor =>
      simp only [placeholders, String.toList_ofList, List.mem_cons, List.not_mem_nil, or_false] at member
      rcases member with rfl | rfl
      · exact ⟨x, letter, rfl⟩
      · dsimp only
        split
        · exact ⟨'D', by decide, rfl⟩
        · exact ⟨'C', by decide, rfl⟩
    | any =>
      simp only [placeholders, String.toList_ofList, List.mem_singleton] at member
      exact ⟨x, letter, by rw [member]⟩

end Wildcard

theorem kind_eq_of_mem_shorthandsFor {w w' : Wildcard} {suit suit' : String} {s : Shorthand}
    (member : s ∈ Binding.shorthandsFor w suit) (member' : s ∈ Binding.shorthandsFor w' suit') :
    w = w' := by
  rw [Wildcard.shorthandsFor_eq_map, List.mem_map] at member member'
  obtain ⟨p, named, rfl⟩ := member
  obtain ⟨p', named', same⟩ := member'
  obtain rfl := shorthand_injective same
  exact Wildcard.eq_of_mem_placeholderNames (Wildcard.name_mem_of_mem_placeholders named)
    (Wildcard.name_mem_of_mem_placeholders named')

end BidBook
