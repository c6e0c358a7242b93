import BidBook.Proofs.Written

/-! # Tags behind texts

Whatever stands in brackets behind a text, be it brackets again, marks or further calls, the text is read
as if it stood alone, and its wildcards are bound as if it stood alone. What has to be seen for this is
that nothing looks beyond the first bracket but the search for the tag itself, and that the blanks which
a tag keeps from being stripped make no difference.

* `Text.hasPart_append_of_disjoint`, `hasPart_append_of_head` — where a part cannot occur.
* `Token.parseSingle_eq` — the parts of a text that reading it goes by.
* `Token.read_append_tag`, `Token.bind_append_tag` — reading and binding a text with a tag.
* `Token.read_withMarks` — a call with marks.
* `Token.blind_to_tags` — all of it.
-/

namespace BidBook

/-! ## Texts -/

namespace Text

variable {part after : List Char}

theorem isPrefixOf_append_of_disjoint (absent : ∀ c ∈ after, c ∉ part) (cs : List Char) :
    part.isPrefixOf (cs ++ after) = part.isPrefixOf cs := by
  induction part generalizing cs with
  | nil => rfl
  | cons p part ih =>
    have rest : ∀ c ∈ after, c ∉ part := fun c member inside =>
      absent c member (List.mem_cons_of_mem _ inside)
    cases cs with
    | cons c cs => rw [List.cons_append, List.isPrefixOf, List.isPrefixOf, ih rest]
    | nil =>
      cases after with
      | nil => rfl
      | cons c after =>
        have other : p ≠ c := fun same => absent c List.mem_cons_self (same ▸ List.mem_cons_self)
        simp [List.isPrefixOf, other]

theorem hasPart_of_disjoint (nonempty : part ≠ []) (absent : ∀ c ∈ after, c ∉ part) :
    hasPart part after = false := by
  cases part with
  | nil => exact absurd rfl nonempty
  | cons p part =>
    induction after with
    | nil => rfl
    | cons c after ih =>
      rw [List.forall_mem_cons] at absent
      have other : p ≠ c := fun same => absent.1 (same ▸ List.mem_cons_self)
      simp [hasPart, List.isPrefixOf, other, ih absent.2]

/-- A part does not reach into a text that shares no character with it. -/
theorem hasPart_append_of_disjoint (nonempty : part ≠ []) (absent : ∀ c ∈ after, c ∉ part)
    (cs : List Char) : hasPart part (cs ++ after) = hasPart part cs := by
  induction cs with
  | nil =>
    rw [List.nil_append, hasPart_of_disjoint nonempty absent, hasPart, List.isEmpty_eq_false_iff.2 nonempty]
  | cons c cs ih =>
    rw [List.cons_append, hasPart, hasPart, ih, ← List.cons_append, isPrefixOf_append_of_disjoint absent]

/-- A part begins no earlier than its first character occurs. -/
theorem hasPart_append_of_head {front : List Char} {a : Char} (absent : a ∉ front) (part rest : List Char) :
    hasPart (a :: part) (front ++ rest) = hasPart (a :: part) rest := by
  induction front with
  | nil => rfl
  | cons c front ih =>
    rw [List.mem_cons, not_or] at absent
    simp [hasPart, List.isPrefixOf, absent.1, ih absent.2]

theorem stripChars_of_solid {cs : List Char} (solid : ∀ c ∈ cs, isBlank c = false) : stripChars cs = cs := by
  have left : cs.dropWhile isBlank = cs :=
    List.dropWhile_eq_self_iff.2 fun inhabited => by simpa using solid _ (List.getElem_mem inhabited)
  rw [stripChars, left, stripRight_eq_rdropWhile, List.rdropWhile_eq_self_iff]
  exact fun inhabited => by simp [solid _ (List.getLast_mem inhabited)]

theorem stripChars_append_blanks (blank : ∀ c ∈ after, isBlank c = true) (cs : List Char) :
    stripChars (cs ++ after) = stripChars cs := by
  have right : ∀ cs, stripRight (cs ++ after) = stripRight cs := fun cs => by
    rw [stripRight, List.reverse_append,
      List.dropWhile_append_of_pos fun c member => blank c (List.mem_reverse.1 member), stripRight]
  rw [stripChars, stripChars, List.dropWhile_append]
  split
  · next empty => rw [List.isEmpty_iff.1 empty, List.dropWhile_eq_nil_iff.2 blank]
  · exact right _

/-- What stands behind blanks and does not end in one keeps all of them but those at the beginning. -/
theorem stripChars_append {a b : Char} (left : isBlank a = false) (right : isBlank b = false)
    (cs inner : List Char) :
    stripChars (cs ++ a :: (inner ++ [b])) = cs.dropWhile isBlank ++ a :: (inner ++ [b]) := by
  have kept : ∀ cs, stripRight (cs ++ a :: (inner ++ [b])) = cs ++ a :: (inner ++ [b]) := fun cs => by
    rw [stripRight_eq_rdropWhile, ← List.cons_append, ← List.append_assoc,
      List.rdropWhile_concat_neg _ _ _ (by simp [right])]
  rw [stripChars, List.dropWhile_append]
  split
  · next empty =>
    rw [List.isEmpty_iff.1 empty, List.dropWhile_cons_of_neg (by simp [left])]
    exact kept []
  · exact kept _

end Text

/-! ## What reading goes by -/

namespace Token

def Reading.ofPlain (plain : List Char) : Reading :=
  match Wildcard.first? plain with
  | some (level, kind) => .wildcard level kind
  | none =>
    match callOf? plain with
    | some c => .call c
    | none => .unread

/-- A token that says nothing has neither tag nor marks. -/
theorem parseSingle_eq (cs : List Char) :
    let reading := Reading.ofPlain (plainChars cs)
    let known := reading != .unread
    let announceable := Text.hasPart ['!', '!'] (beforeTag cs)
    parseSingle cs =
      { raw := String.ofList cs, reading
        tag := if known then (tagChars? cs).map String.ofList else none
        alertable := known && !announceable && (beforeTag cs).contains '!'
        announceable := known && announceable } := by
  have marks : (!((beforeTag cs).filter (· == '!')).isEmpty) = (beforeTag cs).contains '!' := by
    rw [Bool.eq_iff_iff]
    simp [List.filter_eq_nil_iff]
  unfold parseSingle Reading.ofPlain
  dsimp only
  rw [marks]
  cases Wildcard.first? (plainChars cs) with
  | some found =>
    have known : (Reading.wildcard found.1 found.2 != .unread) = true := rfl
    simp [known]
  | none =>
    cases callOf? (plainChars cs) with
    | some c =>
      have known : (Reading.call c != .unread) = true := rfl
      simp [known]
    | none => simp

/-! ## Reading a tag -/

variable {front after tag : List Char}

theorem beforeTag_append_tag (untagged : '[' ∉ front) (rest : List Char) :
    beforeTag (front ++ '[' :: rest) = front :=
  (beforeTag_append untagged (.inr rfl)).1

theorem dropWhile_of_untagged (untagged : '[' ∉ front) : front.dropWhile (· != '[') = [] := by
  rw [List.dropWhile_eq_nil_iff]
  exact fun a member => by simpa using fun same : a = '[' => untagged (same ▸ member)

theorem tagChars?_append_tag (untagged : '[' ∉ front) (tag : List Char) :
    tagChars? (front ++ '[' :: (tag ++ [']'])) = some tag := by
  rw [tagChars?, (beforeTag_append untagged (.inr rfl)).2]
  simp

theorem plainChars_append_tag (untagged : '[' ∉ front) (rest : List Char) :
    plainChars (front ++ '[' :: rest) = plainChars front := by
  rw [plainChars, plainChars, beforeTag_append_tag untagged, beforeTag_eq_self untagged]

theorem plainChars_append_blanks (untagged : '[' ∉ front) (blank : ∀ c ∈ after, Text.isBlank c = true) :
    plainChars (front ++ after) = plainChars front := by
  have whole : '[' ∉ front ++ after := by simp [untagged, bracket_not_mem_of_blanks blank]
  rw [plainChars, plainChars, beforeTag_eq_self whole, beforeTag_eq_self untagged, List.filter_append,
    Text.stripChars_append_blanks fun c member => blank c (List.mem_filter.1 member).1]

/-- The same token, written with a tag behind it; a token that says nothing has none. -/
def withTag (raw tag : String) (t : Token) : Token :=
  { t with raw, tag := if t.call?.isSome || t.wildcard?.isSome then some tag else none }

theorem isKnown_ofPlain (plain : List Char) (raw : String) (tag? : Option String)
    (alertable announceable : Bool) :
    let t : Token := ⟨raw, .ofPlain plain, tag?, alertable, announceable⟩
    (t.call?.isSome || t.wildcard?.isSome) = (Reading.ofPlain plain != .unread) := by
  unfold Reading.ofPlain
  cases Wildcard.first? plain with
  | some found => rfl
  | none => cases callOf? plain <;> rfl

/-- Neither blanks that the tag protects nor what it says make a difference. -/
theorem parseSingle_append_tag (untagged : '[' ∉ front) (blank : ∀ c ∈ after, Text.isBlank c = true)
    (tag : List Char) : parseSingle (front ++ after ++ '[' :: (tag ++ [']'])) =
      (parseSingle front).withTag (String.ofList (front ++ after ++ '[' :: (tag ++ [']'])))
        (String.ofList tag) := by
  have whole : '[' ∉ front ++ after := by simp [untagged, bracket_not_mem_of_blanks blank]
  have noMark : ∀ c ∈ after, c ∉ ['!', '!'] := by
    intro c member mark
    obtain rfl : c = '!' := by simpa using mark
    exact absurd (blank _ member) (by decide)
  have marks : (front ++ after).contains '!' = front.contains '!' := by
    have absent : '!' ∉ after := fun member => noMark _ member List.mem_cons_self
    simp [absent]
  rw [parseSingle_eq, parseSingle_eq front, plainChars_append_tag whole,
    plainChars_append_blanks untagged blank, beforeTag_append_tag whole, tagChars?_append_tag whole,
    beforeTag_eq_self untagged, marks, Text.hasPart_append_of_disjoint (by simp) noMark, withTag, isKnown_ofPlain]
  rfl

theorem excessOf?_append_tag (untagged : '[' ∉ front) (blank : ∀ c ∈ after, Text.isBlank c = true)
    (rest : List Char) : excessOf? (front ++ after ++ '[' :: rest) = excessOf? front := by
  have whole : '[' ∉ front ++ after := by simp [untagged, bracket_not_mem_of_blanks blank]
  rw [excessOf?, excessOf?, plainChars_append_tag whole, plainChars_append_blanks untagged blank]

/-! ## Whole texts -/

variable {u t : String}

/-- Reading a text without bars that is not blank. -/
theorem read_of_not_mem (nonblank : Text.stripChars u.toList ≠ []) (single : '|' ∉ u.toList) :
    read u = match excessOf? (Text.stripChars u.toList) with
      | some e => .error e
      | none => .ok (some (parseSingle (Text.stripChars u.toList))) := by
  have noBar : (Text.stripChars u.toList).contains '|' = false := by
    simpa using fun bar => single (Text.mem_of_mem_stripChars bar)
  have notBlank : (Text.stripChars u.toList).isEmpty = false := List.isEmpty_eq_false_iff.2 nonblank
  cases excess : excessOf? (Text.stripChars u.toList) <;>
    simp only [read, excess?, parse?, parseChars?, noBar, notBlank, excess, Bool.false_eq_true, if_false]

theorem toList_append_tag (u t : String) :
    (u ++ "[" ++ t ++ "]").toList = u.toList ++ '[' :: (t.toList ++ [']']) := by
  simp

theorem read_append_tag (nonblank : Text.stripChars u.toList ≠ []) (single : '|' ∉ u.toList)
    (untagged : '[' ∉ u.toList) (noBar : '|' ∉ t.toList) :
    read (u ++ "[" ++ t ++ "]") =
      (read u).map (Option.map (withTag (Text.strip (u ++ "[" ++ t ++ "]")) t)) := by
  obtain ⟨after, kept, blank⟩ := Text.exists_stripRight (u.toList.dropWhile Text.isBlank)
  have stripped : Text.stripChars (u ++ "[" ++ t ++ "]").toList =
      Text.stripChars u.toList ++ after ++ '[' :: (t.toList ++ [']']) := by
    rw [toList_append_tag, Text.stripChars_append (by decide) (by decide), Text.stripChars, ← kept]
  have untagged' : '[' ∉ Text.stripChars u.toList := fun member =>
    untagged (Text.mem_of_mem_stripChars member)
  have single' : '|' ∉ (u ++ "[" ++ t ++ "]").toList := by
    rw [toList_append_tag]
    simp [single, noBar]
  rw [read_of_not_mem (by rw [stripped]; simp) single', read_of_not_mem nonblank single, Text.strip,
    stripped, excessOf?_append_tag untagged' blank, parseSingle_append_tag untagged' blank, String.ofList_toList]
  cases excessOf? (Text.stripChars u.toList) <;> rfl

theorem bind_append_tag (suit? : Wildcard → Option String) (untagged : '[' ∉ u.toList) (t : String) :
    bind suit? (u ++ "[" ++ t ++ "]") = bind suit? u ++ "[" ++ t ++ "]" := by
  have bare : bind suit? u = String.ofList (Wildcard.bindChars suit? u.toList) := by
    rw [bind, beforeTag_eq_self untagged, dropWhile_of_untagged untagged, List.append_nil]
  have behind : (u.toList ++ '[' :: (t.toList ++ [']'])).dropWhile (· != '[') =
      '[' :: (t.toList ++ [']']) := (beforeTag_append untagged (.inr rfl)).2
  rw [bind, toList_append_tag, beforeTag_append_tag untagged, behind, bare, ← String.toList_inj]
  simp

/-! ## Calls with marks -/

def markChars (k : Nat) : List Char := List.replicate k '!'

theorem hasPart_marks (k : Nat) : Text.hasPart ['!', '!'] (markChars k) = decide (2 ≤ k) := by
  match k with
  | 0 => rfl
  | 1 => rfl
  | k + 2 => simp [markChars, List.replicate_succ, Text.hasPart, List.isPrefixOf]

end Token

namespace Call

/-- What the written form of a call is made of. -/
theorem solid_text (c : Call) : ∀ a ∈ c.text.toList, Text.isBlank a = false ∧ a ∉ ['!', '[', '|'] := by
  have table : (all.all fun c => c.text.toList.all fun a =>
      !Text.isBlank a && !(['!', '[', '|'].contains a)) = true := by decide +kernel
  intro a member
  simpa using List.all_eq_true.1 (List.all_eq_true.1 table c c.mem_all) a member

theorem text_ne_nil (c : Call) : c.text.toList ≠ [] := by
  have table : ∀ c ∈ all, c.text.toList ≠ [] := by decide +kernel
  exact table c c.mem_all

theorem ofPlain_text (c : Call) : Token.Reading.ofPlain c.text.toList = .call c := by
  have table : ∀ c ∈ all, Token.Reading.ofPlain c.text.toList = .call c := by decide +kernel
  exact table c c.mem_all

theorem not_mem_text {a : Char} (special : a ∈ ['!', '[', '|']) (c : Call) : a ∉ c.text.toList :=
  fun member => (c.solid_text a member).2 special

def withMarks (c : Call) (k : Nat) : String := c.text ++ String.ofList (Token.markChars k)

def marked (c : Call) (k : Nat) : Token :=
  { raw := c.withMarks k, reading := .call c, alertable := k == 1, announceable := decide (2 ≤ k) }

theorem toList_withMarks (c : Call) (k : Nat) :
    (c.withMarks k).toList = c.text.toList ++ Token.markChars k := by
  simp [withMarks]

theorem not_mem_withMarks {a : Char} (special : a ∈ ['[', '|']) (c : Call) (k : Nat) :
    a ∉ (c.withMarks k).toList := by
  have other : a ∉ Token.markChars k := fun member => by
    obtain rfl := List.eq_of_mem_replicate member
    exact absurd special (by decide)
  simp [toList_withMarks, c.not_mem_text (List.mem_cons_of_mem _ special), other]

theorem stripChars_withMarks (c : Call) (k : Nat) :
    Text.stripChars (c.withMarks k).toList = (c.withMarks k).toList := by
  apply Text.stripChars_of_solid
  rw [toList_withMarks, List.forall_mem_append]
  refine ⟨fun a member => (c.solid_text a member).1, fun a member => ?_⟩
  rw [List.eq_of_mem_replicate member]
  decide

theorem withMarks_nonblank (c : Call) (k : Nat) : Text.stripChars (c.withMarks k).toList ≠ [] := by
  rw [stripChars_withMarks, toList_withMarks]
  simp [c.text_ne_nil]

end Call

namespace Token

theorem plainChars_withMarks (c : Call) (k : Nat) : plainChars (c.withMarks k).toList = c.text.toList := by
  have kept : c.text.toList.filter (· != '!') = c.text.toList := by
    rw [List.filter_eq_self]
    intro a member
    simpa using fun same : a = '!' => c.not_mem_text (by decide) (same ▸ member)
  have gone : (markChars k).filter (· != '!') = [] := by simp [markChars]
  rw [plainChars, beforeTag_eq_self (c.not_mem_withMarks (by decide) k), c.toList_withMarks,
    List.filter_append, kept, gone, List.append_nil,
    Text.stripChars_of_solid fun a member => (c.solid_text a member).1]

theorem parseSingle_withMarks (c : Call) (k : Nat) :
    parseSingle (c.withMarks k).toList = c.marked k := by
  have untagged : '[' ∉ (c.withMarks k).toList := c.not_mem_withMarks (by decide) k
  have noTag : tagChars? (c.withMarks k).toList = none := by
    rw [tagChars?, dropWhile_of_untagged untagged]
  have twice : Text.hasPart ['!', '!'] (c.withMarks k).toList = decide (2 ≤ k) := by
    rw [c.toList_withMarks, Text.hasPart_append_of_head (c.not_mem_text (by decide)), hasPart_marks]
  have atLeastOnce : (c.withMarks k).toList.contains '!' = decide (1 ≤ k) := by
    have absent : '!' ∉ c.text.toList := c.not_mem_text (by decide)
    rw [c.toList_withMarks, Bool.eq_iff_iff]
    simp [absent, markChars, Nat.one_le_iff_ne_zero]
  have once : (!decide (2 ≤ k) && decide (1 ≤ k)) = (k == 1) := by
    rw [Bool.eq_iff_iff]
    simp
    omega
  have known : (Reading.call c != .unread) = true := rfl
  rw [parseSingle_eq, plainChars_withMarks, c.ofPlain_text, beforeTag_eq_self untagged, twice, atLeastOnce,
    noTag, known, Bool.true_and, Bool.true_and, once, Call.marked, String.ofList_toList]
  simp

theorem read_withMarks (c : Call) (k : Nat) : read (c.withMarks k) = .ok (some (c.marked k)) := by
  have within : excessOf? (c.withMarks k).toList = none := by
    have table : ∀ c ∈ Call.all, (Excess.ofNumeral? (c.text.toList.takeWhile Text.isDigit)) = none := by
      decide +kernel
    rw [excessOf?, plainChars_withMarks, table c c.mem_all, ite_self]
  rw [read_of_not_mem (c.withMarks_nonblank k) (c.not_mem_withMarks (by decide) k),
    c.stripChars_withMarks, within, parseSingle_withMarks]

/-! ## Blindness -/

/-- A tag makes no difference: a text is read and bound as if it stood alone, but for the text and the tag of
its token. With marks behind a call, one asks for an alert and more announce it. -/
theorem blind_to_tags (noBar : '|' ∉ t.toList) (suit? : Wildcard → Option String) :
    (∀ u : String, Text.strip u ≠ "" → '|' ∉ u.toList → '[' ∉ u.toList →
      read u ≠ .ok none ∧
      read (u ++ "[" ++ t ++ "]") =
        (read u).map (Option.map (withTag (Text.strip (u ++ "[" ++ t ++ "]")) t)) ∧
      bind suit? (u ++ "[" ++ t ++ "]") = bind suit? u ++ "[" ++ t ++ "]") ∧
    ∀ (c : Call) (k : Nat), ∃ token,
      read (c.withMarks k) = .ok (some token) ∧
      read (c.withMarks k ++ "[" ++ t ++ "]") =
        .ok (some (token.withTag (Text.strip (c.withMarks k ++ "[" ++ t ++ "]")) t)) ∧
      token.call? = some c ∧ (token.alertable = true ↔ k = 1) ∧
      (token.announceable = true ↔ 2 ≤ k) := by
  refine ⟨fun u solid single untagged => ?_, fun c k => ?_⟩
  · have nonblank : Text.stripChars u.toList ≠ [] := fun blank => solid (by rw [Text.strip, blank])
    refine ⟨?_, read_append_tag nonblank single untagged noBar, bind_append_tag suit? untagged t⟩
    rw [read_of_not_mem nonblank single]
    cases excessOf? (Text.stripChars u.toList) <;> simp
  · refine ⟨c.marked k, read_withMarks c k, ?_, rfl, by simp [Call.marked], by simp [Call.marked]⟩
    rw [read_append_tag (c.withMarks_nonblank k) (c.not_mem_withMarks (by decide) k)
      (c.not_mem_withMarks (by decide) k) noBar, read_withMarks]
    rfl

/-- A tag full of brackets, marks and wildcards, behind marked texts with blanks around them. -/
theorem blind_to_tags_brackets :
    '|' ∉ "x]![3m!!".toList ∧
    read (" 2M! " ++ "[" ++ "x]![3m!!" ++ "]") =
      (read " 2M! ").map (Option.map (withTag "2M! [x]![3m!!]" "x]![3m!!")) ∧
    bind (fun w => if w = .major then some "H" else none) (" 2M! " ++ "[" ++ "x]![3m!!" ++ "]") =
      " 2H! [x]![3m!!]" ∧
    ∃ token, read ("1C" ++ "!!" ++ "[" ++ "x]![3m!!" ++ "]") = .ok (some token) ∧
      token.call? = some (.bid .lowest) ∧ token.tag = some "x]![3m!!" ∧ token.alertable = false ∧
      token.announceable = true := by
  have noBar : '|' ∉ "x]![3m!!".toList := by decide
  obtain ⟨alone, marked⟩ := blind_to_tags noBar (fun w => if w = .major then some "H" else none)
  obtain ⟨-, reads, binds⟩ := alone " 2M! " (by decide) (by decide) (by decide)
  obtain ⟨token, -, tagged, call, alertable, announceable⟩ := marked (.bid .lowest) 2
  refine ⟨noBar, reads, binds, _, tagged, call, ?_, ?_, ?_⟩
  · simp [withTag, call]
  · exact Bool.eq_false_iff.2 (mt alertable.1 (by decide))
  · exact announceable.2 (by decide)

end Token

end BidBook
