import BidBook.Proofs.Remembered
import BidBook.Proofs.Resolution

/-! # Distances in descriptions

A dollar sign with a number behind it stands for the strain of a position: `$0` for the position itself,
`$1` for the one before it, and so on. The positions write theirs out one after another, each in the text
that the nearer ones have left. No strain begins or ends a number, so nothing comes about or is lost on the
way, and all of them together do what one pass over the text does.

* `substitute` — one pass, with a table of numerals and what they stand for.
* `substitute_replaceDepth` — a position does what one more line of the table does.
* `resolve_eq_substitute` — a description in full, where there are no shorthands.
* `Tree.getElem?_places` — the places of a node are those of its ancestors.
* `Tree.resolved_at_once` — the same for the nodes of a tree.
-/

namespace BidBook

/-! ## Texts between separators -/

namespace Text

theorem takeWhile_append_of_head {test : Char → Bool} (front : List Char) {rest : List Char}
    (stop : rest.head?.any test = false) : (front ++ rest).takeWhile test = front.takeWhile test ∧
      (front ++ rest).dropWhile test = front.dropWhile test ++ rest := by
  induction front with
  | nil =>
    cases rest with
    | nil => exact ⟨rfl, rfl⟩
    | cons c rest =>
      have here : test c = false := by simpa using stop
      simp [here]
  | cons c front ih => cases here : test c <;> simp [here, ih]

theorem any_head?_append {test : Char → Bool} {front rest : List Char}
    (left : front.head?.any test = false) (right : rest.head?.any test = false) :
    (front ++ rest).head?.any test = false := by
  cases front with
  | nil => exact right
  | cons c front => exact left

theorem any_head?_dropWhile (test : Char → Bool) (cs : List Char) :
    (cs.dropWhile test).head?.any test = false := by
  have first := List.head?_dropWhile_not test cs
  cases rest : (cs.dropWhile test).head? with
  | none => rfl
  | some c =>
    rw [rest] at first
    simpa using first

theorem drop_length_takeWhile (test : Char → Bool) (cs : List Char) :
    cs.drop (cs.takeWhile test).length = cs.dropWhile test :=
  calc cs.drop (cs.takeWhile test).length
      = (cs.takeWhile test ++ cs.dropWhile test).drop (cs.takeWhile test).length := by
        rw [List.takeWhile_append_dropWhile]
    _ = cs.dropWhile test := List.drop_left

theorem splitAt_append {sep : Char} {front : List Char} (absent : sep ∉ front) (rest : List Char) :
    splitAt sep (front ++ rest) = (splitAt sep rest).modifyHead (front ++ ·) := by
  induction front with
  | nil => exact (congrFun List.modifyHead_id _).symm
  | cons c front ih =>
    rw [List.mem_cons, not_or] at absent
    have other : (c == sep) = false := beq_eq_false_iff_ne.2 (Ne.symm absent.1)
    rw [List.cons_append, splitAt, other, if_neg Bool.false_ne_true, ih absent.2]
    cases parts : splitAt sep rest with
    | nil => exact absurd parts (splitAt_ne_nil sep rest)
    | cons part parts => rfl

end Text

/-! ## One pass -/

/-- What stands for a dollar sign and the text behind it, which goes to the next one: if the digits at its
front are in the table, what they stand for takes their place. -/
def substitutePart (table : List (List Char × List Char)) (part : List Char) : List Char :=
  match table.lookup (part.takeWhile Text.isDigit) with
  | some strain => strain ++ part.dropWhile Text.isDigit
  | none => '$' :: part

/-- A text with the dollar signs and numbers of a table replaced, all at once. -/
def substitute (table : List (List Char × List Char)) (cs : List Char) : List Char :=
  match Text.splitAt '$' cs with
  | [] => []
  | front :: parts => front ++ parts.flatMap (substitutePart table)

/-- The numerals of distances, and the strains of the positions there. -/
def distances : Nat → List Place → List (List Char × List Char)
  | _, [] => []
  | distance, p :: rest =>
    ((toString distance).toList, p.strainText.toList) :: distances (distance + 1) rest

def dollared (parts : List (List Char)) : List Char := parts.flatMap ('$' :: ·)

section Substitute

variable {table : List (List Char × List Char)} {front part parts rest numeral strain : List Char}

theorem joinWith_dollar (front : List Char) (parts : List (List Char)) :
    Text.joinWith ['$'] (front :: parts) = front ++ dollared parts := by
  induction parts generalizing front with
  | nil => exact (List.append_nil front).symm
  | cons part parts ih =>
    rw [Text.joinWith, ih, dollared, dollared, List.flatMap_cons, List.append_assoc, List.singleton_append,
      List.cons_append]
    exact List.cons_ne_nil _ _

/-- A text is what is before the first dollar sign, and the parts behind each of them. -/
theorem exists_dollared (cs : List Char) : ∃ front parts, Text.splitAt '$' cs = front :: parts ∧
    cs = front ++ dollared parts ∧ '$' ∉ front ∧ ∀ part ∈ parts, '$' ∉ part := by
  obtain ⟨front, parts, split⟩ := List.exists_cons_of_ne_nil (Text.splitAt_ne_nil '$' cs)
  have noDollar : ∀ part ∈ front :: parts, '$' ∉ part := fun part member =>
    Text.not_mem_of_mem_splitAt (split ▸ member)
  rw [List.forall_mem_cons] at noDollar
  refine ⟨front, parts, split, ?_, noDollar⟩
  rw [← joinWith_dollar, ← split, Text.joinWith_splitAt]

theorem any_head?_dollared (parts : List (List Char)) : (dollared parts).head?.any Text.isDigit = false := by
  cases parts with
  | nil => rfl
  | cons part parts => exact (by decide : Text.isDigit '$' = false)

theorem substitute_nil (cs : List Char) : substitute [] cs = cs := by
  obtain ⟨front, parts, split, eq, _⟩ := exists_dollared cs
  rw [substitute, split]
  exact eq.symm

theorem substitute_append (noDollar : '$' ∉ front) (rest : List Char) :
    substitute table (front ++ rest) = front ++ substitute table rest := by
  rw [substitute, substitute, Text.splitAt_append noDollar]
  cases split : Text.splitAt '$' rest with
  | nil => exact absurd split (Text.splitAt_ne_nil '$' rest)
  | cons part parts => exact List.append_assoc front part _

/-- What follows a part does not matter to what stands for it, as long as it begins with no digit. -/
theorem substitutePart_append (part : List Char) (stop : rest.head?.any Text.isDigit = false) :
    substitutePart table (part ++ rest) = substitutePart table part ++ rest := by
  obtain ⟨digits, others⟩ := Text.takeWhile_append_of_head part stop
  rw [substitutePart, substitutePart, digits, others]
  cases table.lookup (part.takeWhile Text.isDigit) with
  | none => rfl
  | some strain => exact (List.append_assoc strain _ rest).symm

theorem substitute_dollar (noDollar : '$' ∉ part) (stop : rest.head?.any Text.isDigit = false) :
    substitute table ('$' :: (part ++ rest)) = substitutePart table part ++ substitute table rest := by
  obtain ⟨front, parts, split, eq, _⟩ := exists_dollared rest
  have stop' : front.head?.any Text.isDigit = false := by
    cases front with
    | nil => rfl
    | cons c front => rwa [eq] at stop
  have whole : Text.splitAt '$' ('$' :: (part ++ rest)) = [] :: (part ++ front) :: parts := by
    rw [Text.splitAt, beq_self_eq_true, if_pos rfl, Text.splitAt_append noDollar, split]
    rfl
  rw [substitute, whole, substitute, split]
  dsimp only
  rw [List.nil_append, List.flatMap_cons, substitutePart_append part stop', List.append_assoc]

/-! ## One position -/

/-- A text goes on with a numeral and no longer one if the numeral is all the digits at its front. -/
theorem startsNumeral_iff (digits : ∀ c ∈ numeral, Text.isDigit c = true) (rest : List Char) :
    Placeholder.startsNumeral numeral rest = true ↔ rest.takeWhile Text.isDigit = numeral := by
  rw [Placeholder.startsNumeral, Bool.and_eq_true, List.isPrefixOf_iff_prefix, Bool.not_eq_true']
  constructor
  · rintro ⟨⟨others, rfl⟩, stop⟩
    rw [List.drop_left] at stop
    rw [(Text.takeWhile_append_of_head numeral stop).1, List.takeWhile_eq_self_iff.2 digits]
  · rintro rfl
    refine ⟨List.takeWhile_prefix _, ?_⟩
    rw [Text.drop_length_takeWhile]
    exact Text.any_head?_dropWhile _ rest

/-- A strain, or nothing: there are neither dollar signs nor digits in it. -/
def Wordy (strain : List Char) : Prop := ∀ c ∈ strain, c ≠ '$' ∧ Text.isDigit c = false

/-- What a position writes out behind dollar signs is what one more line of the table says of it. -/
theorem substitute_replaceDepth_dollared (digits : ∀ c ∈ numeral, Text.isDigit c = true)
    (wordy : Wordy strain) {parts : List (List Char)} (noDollar : ∀ part ∈ parts, '$' ∉ part) :
    (replaceDepth numeral strain 0 (dollared parts)).head?.any Text.isDigit = false ∧
      substitute table (replaceDepth numeral strain 0 (dollared parts)) =
        parts.flatMap (substitutePart ((numeral, strain) :: table)) := by
  induction parts with
  | nil => exact ⟨rfl, rfl⟩
  | cons part parts ih =>
    rw [List.forall_mem_cons] at noDollar
    obtain ⟨stop, later⟩ := ih noDollar.2
    have begins : Placeholder.startsNumeral numeral (part ++ dollared parts) = true ↔
        part.takeWhile Text.isDigit = numeral := by
      rw [startsNumeral_iff digits, (Text.takeWhile_append_of_head part (any_head?_dollared parts)).1]
    rw [dollared, List.flatMap_cons, ← dollared, List.cons_append, Placeholder.replaceDepth_cons,
      List.flatMap_cons, beq_self_eq_true, Bool.true_and]
    by_cases here : part.takeWhile Text.isDigit = numeral
    · have noDollars : '$' ∉ strain ∧ '$' ∉ part.dropWhile Text.isDigit :=
        ⟨fun member => (wordy _ member).1 rfl, fun member =>
          noDollar.1 ((List.dropWhile_sublist _).subset member)⟩
      have others : (part ++ dollared parts).drop numeral.length =
          part.dropWhile Text.isDigit ++ dollared parts := by
        rw [← here, List.drop_append_of_le_length (List.takeWhile_prefix _).length_le,
          Text.drop_length_takeWhile]
      have fills : substitutePart ((numeral, strain) :: table) part =
          strain ++ part.dropWhile Text.isDigit := by
        rw [substitutePart, here, List.lookup_cons_self]
      rw [if_pos (begins.2 here), others, Placeholder.replaceDepth_append _ _ noDollars.2, fills]
      refine ⟨Text.any_head?_append ?_ (Text.any_head?_append (Text.any_head?_dropWhile _ part) stop), ?_⟩
      · cases strain with
        | nil => rfl
        | cons c strain => exact (wordy c List.mem_cons_self).2
      · rw [substitute_append noDollars.1, substitute_append noDollars.2, later, List.append_assoc]
    · have passes : substitutePart ((numeral, strain) :: table) part = substitutePart table part := by
        have other : (part.takeWhile Text.isDigit == numeral) = false := beq_eq_false_iff_ne.2 here
        rw [substitutePart, List.lookup_cons, other, substitutePart]
      rw [if_neg fun starts => here (begins.1 starts), Placeholder.replaceDepth_append _ _ noDollar.1, passes]
      exact ⟨(by decide : Text.isDigit '$' = false), by rw [substitute_dollar noDollar.1 stop, later]⟩

theorem substitute_replaceDepth (digits : ∀ c ∈ numeral, Text.isDigit c = true) (wordy : Wordy strain)
    (cs : List Char) :
    substitute table (replaceDepth numeral strain 0 cs) = substitute ((numeral, strain) :: table) cs := by
  obtain ⟨front, parts, split, eq, noDollar⟩ := exists_dollared cs
  have written : replaceDepth numeral strain 0 cs =
      front ++ replaceDepth numeral strain 0 (dollared parts) := by
    rw [eq, Placeholder.replaceDepth_append _ _ noDollar.1]
  rw [written, substitute_append noDollar.1, (substitute_replaceDepth_dollared digits wordy noDollar.2).2,
    substitute, split]

end Substitute

/-! ## All positions -/

theorem Place.wordy_strainText (p : Place) : Wordy p.strainText.toList := by
  have table : (Call.all.all fun c =>
      c.strainText.toList.all fun x => x != '$' && !Text.isDigit x) = true := by decide +kernel
  unfold Place.strainText
  cases p.token.bind (·.call?) with
  | none => exact fun x member => nomatch member
  | some c =>
    intro x member
    simpa using List.all_eq_true.1 (List.all_eq_true.1 table c c.mem_all) x member

theorem resolveFrom_eq_substitute [Pattern.CharNames] {places : List Place}
    (plain : ∀ p ∈ places, p.glossary.entries = []) (distance : Nat) (text : String) :
    resolveFrom distance places text =
      .ok (String.ofList (substitute (distances distance places) text.toList)) := by
  induction places generalizing distance text with
  | nil => rw [resolveFrom, distances, substitute_nil, String.ofList_toList]
  | cons p places ih =>
    rw [List.forall_mem_cons] at plain
    have noShorthands : p.glossary.entries = ([] : List Placeholder).map Placeholder.shorthand := plain.1
    have here := resolveAt_eq noShorthands (by simp) distance text
    rw [resolveFrom, here]
    show resolveFrom _ _ _ = _
    rw [ih plain.2, String.toList_ofList, distances, Placeholder.fillAll,
      substitute_replaceDepth (isDigit_of_mem_toString distance) p.wordy_strainText]
    rfl

theorem resolve_eq_substitute [Pattern.CharNames] {places : List Place}
    (plain : ∀ p ∈ places, p.glossary.entries = []) (text : String) : resolve places text =
      .ok (Text.strip (String.ofList (substitute (distances 0 places) text.toList))) := by
  rw [resolve, resolveFrom_eq_substitute plain]
  rfl

namespace Tree

/-! ## Ancestors -/

/-- Going down a path adds one place for each member of it. -/
theorem exists_places_of_selectFrom? {p q : Position} {n m : Node} {path : List Token}
    (found : selectFrom? p n path = some (q, m)) :
    ∃ near, q.places m = near ++ p.places n ∧ near.length = path.length := by
  induction path generalizing p n with
  | nil =>
    cases found
    exact ⟨[], rfl, rfl⟩
  | cons t path ih =>
    rw [selectFrom?_cons, Option.bind_eq_some_iff] at found
    obtain ⟨e, _, found⟩ := found
    obtain ⟨near, places, length⟩ := ih found
    refine ⟨near ++ [e.2.place (some e.1)], ?_, by rw [List.length_append, length]; rfl⟩
    rw [places, List.append_assoc]
    rfl

variable {t : Tree} {path : List Token} {p : Position} {n : Node}

theorem length_places (found : t.select? path = some (p, n)) : (p.places n).length = path.length + 1 := by
  obtain ⟨near, places, length⟩ := exists_places_of_selectFrom? found
  rw [places, List.length_append, length]
  rfl

/-- The place at a distance is that of the node at the end of the path without so many calls. -/
theorem getElem?_places (found : t.select? path = some (p, n)) {d : Nat} (within : d ≤ path.length) :
    ∃ q m, t.select? (path.take (path.length - d)) = some (q, m) ∧ (p.places n)[d]? = some (m.place q.token) := by
  have whole := found
  rw [select?, ← List.take_append_drop (path.length - d) path, selectFrom?_append,
    Option.bind_eq_some_iff] at whole
  obtain ⟨⟨q, m⟩, front, rest⟩ := whole
  obtain ⟨near, places, length⟩ := exists_places_of_selectFrom? rest
  have distance : near.length = d := by
    rw [length, List.length_drop]
    omega
  refine ⟨q, m, front, ?_⟩
  rw [places, ← distance, List.getElem?_append_right (Nat.le_refl _), Nat.sub_self]
  rfl

/-- Where no position on the way to a node has shorthands, a description in full is the text with the numbers
behind dollar signs replaced by the strains of the ancestors, all at once, and without the blanks at its
ends. -/
theorem resolved_at_once [Pattern.CharNames] {text : String} (found : t.select? path = some (p, n))
    (plain : ∀ place ∈ p.places n, place.glossary.entries = []) (described : n.content.description = some text) :
    (p.places n).length = path.length + 1 ∧
    (∀ d ≤ path.length, ∃ q m, t.select? (path.take (path.length - d)) = some (q, m) ∧
      (p.places n)[d]? = some (m.place q.token)) ∧
    n.resolveFresh (p.places n) =
      .ok (some (Text.strip (String.ofList (substitute (distances 0 (p.places n)) text.toList)))) ∧
    (t.UpToDate → (n.readResolved (p.places n)).2 =
      .ok (some (Text.strip (String.ofList (substitute (distances 0 (p.places n)) text.toList))))) := by
  have fresh : n.resolveFresh (p.places n) =
      .ok (some (Text.strip (String.ofList (substitute (distances 0 (p.places n)) text.toList)))) := by
    rw [Node.resolveFresh, described]
    dsimp only
    rw [resolve_eq_substitute plain]
    rfl
  refine ⟨length_places found, fun d within => getElem?_places found within, fresh, fun up => ?_⟩
  rw [(up.of_selectFrom? found).here, fresh]

def longPath : List Token :=
  ["1C", "P", "1D!", "P", "1M", "X", "2NT", "P", "3H", "P", "3S"].filterMap Token.parse?

def longPathTree (description : String) : Tree :=
  ⟨none, ((Node.root []).put longPath (.mk { description := some description } [] [])).copy⟩

/-- A dollar sign in front of a placeholder, numbers that are too large, with a zero in front or with a digit
of another script behind them, and strains that are empty. -/
theorem resolved_at_once_longPath : ∃ p n,
    (longPathTree " $0$1$2 $$10 $11 $12 $01 $4$8x $6\u0663 ").select? longPath = some (p, n) ∧
    (n.readResolved (p.places n)).2 = .ok (some "SH $C  $12 $01 NTDx $6\u0663") := by
  have there : ((longPathTree " $0$1$2 $$10 $11 $12 $01 $4$8x $6\u0663 ").select? longPath).any
      (fun found : Position × Node => decide
        ((∀ place ∈ found.1.places found.2, place.glossary.entries = []) ∧
          found.2.content.description = some " $0$1$2 $$10 $11 $12 $01 $4$8x $6\u0663 " ∧
          Text.strip (String.ofList (substitute (distances 0 (found.1.places found.2))
            " $0$1$2 $$10 $11 $12 $01 $4$8x $6\u0663 ".toList)) = "SH $C  $12 $01 NTDx $6\u0663")) := by
    decide +kernel
  obtain ⟨⟨p, n⟩, found, holds⟩ := (Option.any_eq_true _ _).1 there
  obtain ⟨plain, described, result⟩ := of_decide_eq_true holds
  have reads := (resolved_at_once found plain described).2.2.2 (upToDate_copy _ _)
  exact ⟨p, n, found, by rw [reads, result]⟩

end Tree

end BidBook
