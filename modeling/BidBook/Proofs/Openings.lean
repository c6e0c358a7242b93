import BidBook.Proofs.Expanded
import BidBook.Proofs.Injection
import BidBook.Proofs.Places
import BidBook.Proofs.Relays
import BidBook.Proofs.Resolution

/-! # What open suits are resolved to

In an expanded tree a placeholder of an open suit stands for the suit that was opened last on the
way to its position, by whatever declaration. So it need not be the suit that its own description
was bound to.

* `Node.LastOpening` — where on a path a kind is opened last, and the suit.
* `resolved_of_lastOpening` — a description is resolved with the suits opened last.
* `exists_resolved_to_other_suit` — and not always with those that it was bound to.
-/

namespace BidBook

namespace Node

variable {settings : ExpansionSettings} {n m : Node} {w : Wildcard} {suit : String} {path : List Key}

/-! ## Suits that are opened -/

theorem OpensAt.exists_call (accepted : settings.Accepted) (declared : Throughout Declared n)
    (unadorned : Throughout Unadorned n) (opens : n.OpensAt settings w suit path) :
    ∃ x ∈ Placeholder.suitLetters, suit = String.ofList [x] ∧
      ∃ c, path.getLast? = some (.call c) ∧ c.strainText = suit := by
  obtain ⟨written, taken, m, way, ⟨before, u, rfl, wildcard, _⟩, b, member, chosen, rfl⟩ := opens
  obtain ⟨x, letter, rfl⟩ :=
    Token.exists_letter_of_mem_suits accepted (Binding.suit_mem_of_mem_enumerate member chosen)
  have here : u ∈ before ++ [u] := by simp
  have within := way.within (declared.tidy_of_declared.within fun _ => mentions_none.2) u here
  obtain ⟨c, key, strain⟩ :=
    exists_call_of_plain within.1 (way.plain unadorned u here) wildcard letter chosen
  exact ⟨x, letter, rfl, c, by simp [boundKeys, key], strain⟩

/-- At one path a kind is opened for one suit at most. -/
theorem OpensAt.suit_unique (accepted : settings.Accepted) (declared : Throughout Declared n)
    (unadorned : Throughout Unadorned n) {w' : Wildcard} {suit' : String}
    (opens : n.OpensAt settings w suit path) (opens' : n.OpensAt settings w' suit' path) :
    suit = suit' := by
  obtain ⟨_, _, _, c, last, strain⟩ := opens.exists_call accepted declared unadorned
  obtain ⟨_, _, _, c', last', strain'⟩ := opens'.exists_call accepted declared unadorned
  rw [last, Option.some.injEq, Key.call.injEq] at last'
  rw [← strain, ← strain', last']

theorem OpensAt.known (accepted : settings.Accepted) (declared : Throughout Declared n)
    (unadorned : Throughout Unadorned n) (opens : n.OpensAt settings w suit path) :
    ∀ p ∈ w.placeholders suit, Placeholder.Known p := by
  obtain ⟨x, letter, rfl, _⟩ := opens.exists_call accepted declared unadorned
  exact fun p member => Wildcard.known_of_mem_placeholders letter member

theorem Way.front {written : List Token} (before after : List Token)
    (way : n.Way written (before ++ after) m) : ∃ written' m', n.Way written' before m' := by
  induction before generalizing n written with
  | nil => exact ⟨[], n, .here n⟩
  | cons u before ih =>
    cases way with
    | onward child option later =>
      obtain ⟨written', m', way⟩ := ih later
      exact ⟨_, m', .onward child option way⟩

/-- The tokens of a way up to the first open suit of a kind. -/
theorem exists_first_wildcard {taken : List Token} {u : Token} (member : u ∈ taken)
    (wildcard : u.wildcard? = some w) : ∃ before v after, taken = before ++ v :: after ∧
      v.wildcard? = some w ∧ (∀ t ∈ before, t.wildcard? ≠ some w) ∧
      before.length = taken.findIdx fun t => t.wildcard? == some w := by
  have found : (taken.find? fun t => t.wildcard? == some w).isSome := by
    rw [List.find?_isSome]
    exact ⟨u, member, by simp [wildcard]⟩
  obtain ⟨v, first⟩ := Option.isSome_iff_exists.1 found
  obtain ⟨here, before, after, rfl, others⟩ := List.find?_eq_some_iff_append.1 first
  have apart : ∀ t ∈ before, (t.wildcard? == some w) = false := fun t inside => by
    simpa using others t inside
  refine ⟨before, v, after, rfl, by simpa using here, fun t inside => by simpa using apart t inside, ?_⟩
  rw [List.findIdx_append, List.findIdx_eq_length_of_false apart, if_neg (by simp), List.findIdx_cons, here]
  simp

/-- A way with an open suit of a kind opens it at the first of them. -/
theorem Way.exists_opensAt (declared : Throughout Declared n) (unadorned : Throughout Unadorned n)
    {written taken : List Token} (way : n.Way written taken m) {b : Binding}
    (enumerated : b ∈ Binding.enumerate settings (n.mentions none)) {u : Token} (member : u ∈ taken)
    (wildcard : u.wildcard? = some w) : ∃ own suit, own <+: boundKeys b taken ∧
      own.length = taken.findIdx (fun t => t.wildcard? == some w) + 1 ∧ b.suit? w = some suit ∧
      n.OpensAt settings w suit own := by
  have within := way.within (declared.tidy_of_declared.within fun _ => mentions_none.2) u member
  have mentioned : n.mentions none w = true := within.2 w <| by
    rw [Token.wildcardsIn_of_plain within.1 (way.plain unadorned u member) wildcard]
    exact List.mem_singleton_self w
  obtain ⟨suit, chosen⟩ := Binding.suit?_isSome_of_mem_enumerate enumerated mentioned
  obtain ⟨before, v, after, rfl, wildcard, first, index⟩ := exists_first_wildcard member wildcard
  obtain ⟨written', m', front⟩ := Way.front (before ++ [v]) after (by simpa using way)
  refine ⟨boundKeys b (before ++ [v]), suit, ⟨boundKeys b after, by simp [boundKeys]⟩, ?_, chosen,
    written', _, m', front, ⟨before, v, rfl, wildcard, first⟩, b, enumerated, chosen, rfl⟩
  simp [boundKeys, index]

/-! ## The last opening -/

/-- Where on a path a kind is opened last, and for which suit. -/
structure LastOpening (settings : ExpansionSettings) (n : Node) (w : Wildcard) (path opened : List Key)
    (suit : String) : Prop where
  onPath : opened <+: path
  opens : n.OpensAt settings w suit opened
  last : ∀ longer, longer <+: path → opened.length < longer.length → ∀ other,
    ¬ n.OpensAt settings w other longer

/-- If a kind is opened on a path, it is opened somewhere for the last time. -/
theorem exists_lastOpening {opened : List Key} (onPath : opened <+: path)
    (opens : n.OpensAt settings w suit opened) :
    ∃ opened' suit', n.LastOpening settings w path opened' suit' ∧ opened.length ≤ opened'.length := by
  induction h : path.length - opened.length using Nat.strongRecOn generalizing opened suit with
  | _ left ih =>
    subst h
    -- among the openings on a path the longest is taken
    by_cases further : ∃ longer other, longer <+: path ∧ opened.length < longer.length ∧
        n.OpensAt settings w other longer
    · obtain ⟨longer, other, begins, longer', opens'⟩ := further
      obtain ⟨opened', suit', last, le⟩ :=
        ih _ (by have := begins.length_le; omega) begins opens' rfl
      exact ⟨opened', suit', last, by omega⟩
    · refine ⟨opened, suit, ⟨onPath, opens, fun longer begins longer' other opens' => ?_⟩, Nat.le_refl _⟩
      exact further ⟨longer, other, begins, longer', opens'⟩

/-! ## Glossaries -/

section Glossaries

variable (accepted : settings.Accepted) (declared : Throughout Declared n)
  (unadorned : Throughout Unadorned n)
  (found : (n.flatten.1.expandWildcards settings [] none).1.at? path = some m)
include accepted declared unadorned found

theorem plain_glossary : m.content.glossary.Plain := by
  intro s held
  obtain ⟨w, suit, opens, held⟩ := (mem_glossary_iff_opensAt accepted declared unadorned found).1 held
  rw [Wildcard.shorthandsFor_eq_map, List.mem_map] at held
  obtain ⟨p, member, rfl⟩ := held
  exact ⟨p, opens.known accepted declared unadorned p member, rfl⟩

theorem exists_opensAt_of_mem {p : Placeholder} (held : p.shorthand ∈ m.content.glossary) :
    ∃ w suit, n.OpensAt settings w suit path ∧ p ∈ w.placeholders suit := by
  obtain ⟨w, suit, opens, held⟩ := (mem_glossary_iff_opensAt accepted declared unadorned found).1 held
  rw [Wildcard.shorthandsFor_eq_map, List.mem_map] at held
  obtain ⟨p', member, same⟩ := held
  exact ⟨w, suit, opens, Placeholder.shorthand_injective same ▸ member⟩

theorem leaves_of_not_opensAt (silent : ∀ other, ¬ n.OpensAt settings w other path) (suit : String) :
    m.content.glossary.Leaves (w.placeholders suit) := by
  intro p held q member same
  obtain ⟨w', suit', opens, member'⟩ := exists_opensAt_of_mem accepted declared unadorned found held
  obtain rfl : w = w' := Wildcard.eq_of_mem_placeholderNames (Wildcard.name_mem_of_mem_placeholders member)
    (same ▸ Wildcard.name_mem_of_mem_placeholders member')
  exact silent suit' opens

theorem decides_of_opensAt (opens : n.OpensAt settings w suit path) :
    m.content.glossary.Decides (w.placeholders suit) where
  present q member := by
    refine (mem_glossary_iff_opensAt accepted declared unadorned found).2 ⟨w, suit, opens, ?_⟩
    rw [Wildcard.shorthandsFor_eq_map]
    exact List.mem_map_of_mem member
  only p held q member same := by
    obtain ⟨w', suit', opens', member'⟩ := exists_opensAt_of_mem accepted declared unadorned found held
    obtain rfl : w = w' := Wildcard.eq_of_mem_placeholderNames (Wildcard.name_mem_of_mem_placeholders member)
      (same ▸ Wildcard.name_mem_of_mem_placeholders member')
    obtain rfl := opens.suit_unique accepted declared unadorned opens'
    exact Wildcard.eq_of_mem_placeholders member member' same

end Glossaries

theorem not_carries_of_unadorned (unadorned : Throughout Unadorned n) (q : List Key) : ¬ n.Carries q := by
  rintro ⟨m, there, steps⟩
  exact steps (unadorned.of_at? there).here.steps

end Node

open Node Placeholder

variable {shorthands : List Shorthand} {document : Value} {draft : Document.Draft}
  {settings : ExpansionSettings}

/-- The suit that is opened last on a path is filled in for the placeholders of its kind. -/
theorem resolve_of_lastOpening [Pattern.CharNames] {t : Node} (accepted : settings.Accepted)
    (declared : Throughout Declared t) (unadorned : Throughout Unadorned t) {path : List Token}
    {position : Position} {n : Node}
    (found : (⟨none, (t.flatten.1.expandWildcards settings [] none).1⟩ : Tree).select? path =
      some (position, n)) {w : Wildcard} {opened : List Key} {suit : String}
    (last : t.LastOpening settings w (path.map Token.key) opened suit) (text : String) :
    ∃ out, resolve (position.places n) text = .ok out ∧
      resolve (position.places n) (String.ofList (fillAll (w.placeholders suit) text.toList)) = .ok out := by
  have plain : ∀ place ∈ position.places n, place.glossary.Plain := by
    intro place member
    obtain ⟨q, c, there, glossary⟩ := Tree.glossary_of_mem_places found place member
    exact glossary ▸ plain_glossary accepted declared unadorned there
  obtain ⟨⟨rest, split⟩, opens, later⟩ := last
  obtain ⟨front, below, rfl, rfl, rfl⟩ := List.append_eq_map_iff.1 split
  rw [Tree.select?, Tree.selectFrom?_append, Option.bind_eq_some_iff] at found
  obtain ⟨⟨middle, c⟩, there, found⟩ := found
  have here := Tree.at?_of_selectFrom? there
  obtain ⟨near, places, on⟩ := Tree.places_of_selectFrom? found
  have shape : position.places n = near ++ c.place middle.token :: middle.above := places
  rw [shape] at plain ⊢
  refine resolve_fillAll (opens.known accepted declared unadorned) plain ?_
    (decides_of_opensAt accepted declared unadorned here opens) text
  -- below the last opening nobody knows the placeholders
  intro place member
  obtain ⟨k, q, d, begins, located, glossary⟩ := on place member
  rw [glossary]
  have there : (t.flatten.1.expandWildcards settings [] none).1.at? (front.map Token.key ++ k :: q) =
      some d := by
    rw [at?_append, here, Option.bind_some, located]
  refine leaves_of_not_opensAt accepted declared unadorned there (later _ ?_ (by simp)) suit
  rw [List.map_append]
  exact (List.prefix_append_right_inj _).2 begins

/-- A description that some way brings to a position is resolved as if each placeholder of an open
suit on that way had been filled in with the suit that was opened last on the path, whoever opened
it. That is the suit to which the way was bound itself unless the kind is opened again further down.
-/
theorem resolved_of_lastOpening [Pattern.Judge] [Pattern.CharNames]
    (built : Document.build shorthands document = .ok draft)
    (accepted : settings.Accepted) (unadorned : Throughout Unadorned draft.node) {path : List Token}
    {position : Position} {n : Node}
    (found : (⟨none, (draft.node.expand settings {}).1⟩ : Tree).select? path = some (position, n))
    {written taken : List Token} {r : Node} (way : draft.node.Way written taken r) {b : Binding}
    (enumerated : b ∈ Binding.enumerate settings (draft.node.mentions none))
    (reached : path.map Token.key = boundKeys b taken) {text : String}
    (said : r.content.description = some text) (same : n.content.description = r.content.description)
    {u : Token} {w : Wildcard} (member : u ∈ taken) (wildcard : u.wildcard? = some w) :
    ∃ suit opened out, draft.node.LastOpening settings w (path.map Token.key) opened suit ∧
      taken.findIdx (fun t => t.wildcard? == some w) < opened.length ∧
      (opened.length = taken.findIdx (fun t => t.wildcard? == some w) + 1 → b.suit? w = some suit) ∧
      (n.readResolved (position.places n)).2 = .ok (some out) ∧
      resolve (position.places n) (String.ofList (fillAll (w.placeholders suit) text.toList)) = .ok out := by
  have declared := Document.throughout_declared built
  rw [expand_eq_of_not_carries accepted declared (not_carries_of_unadorned unadorned)] at found
  obtain ⟨own, chosen, begins, length, suits, opens⟩ :=
    way.exists_opensAt declared unadorned enumerated member wildcard
  rw [← reached] at begins
  obtain ⟨opened, suit, last, le⟩ := exists_lastOpening begins opens
  obtain ⟨out, resolved, filled⟩ := resolve_of_lastOpening accepted declared unadorned found last text
  refine ⟨suit, opened, out, last, by omega, ?_, ?_, filled⟩
  · intro near
    -- at one place the kind is opened for one suit
    obtain rfl : own = opened := List.IsPrefix.eq_of_length
      (List.prefix_of_prefix_length_le begins last.onPath le) (by omega)
    rw [suits, opens.suit_unique accepted declared unadorned last.opens]
  · have fresh : n.content.resolved = none :=
      ((throughout_expanded accepted declared).of_at? (Tree.at?_of_selectFrom? found)).here.fresh
    rw [said] at same
    simp only [readResolved, fresh, resolveFresh, same, resolved]
    rfl

/-- A major suit is raised in the other one, and described; but the raise is declared for another
reason, too, and opens the other suit. -/
def reopened : Value :=
  .map [(.text "1M-P-2S-P-3C", .text "bid $M"), (.text "1H-P-2M", .text "raise")]

def heartsSpadesClubs : List Token := Sequence.tokens "1H-P-2S-P-3C"

def majorSpadesClubs : List Key := (Sequence.tokens "1M-P-2S-P-3C").map Token.key

def hearts : Binding := ⟨[(.major, "H")]⟩

theorem exists_reopened : ∃ draft position n taken r u, Document.build [] reopened = .ok draft ∧
    Throughout Unadorned draft.node ∧
    (⟨none, (draft.node.expand {} {}).1⟩ : Tree).select? heartsSpadesClubs = some (position, n) ∧
    draft.node.Way taken taken r ∧ hearts ∈ Binding.enumerate {} (draft.node.mentions none) ∧
    heartsSpadesClubs.map Token.key = boundKeys hearts taken ∧ r.content.description = some "bid $M" ∧
    n.content.description = r.content.description ∧ u ∈ taken ∧ u.wildcard? = some .major ∧
    (n.readResolved (position.places n)).2 = .ok (some "bid S") := by
  obtain ⟨draft, built, holds⟩ := exists_draft reopened
    (fun draft => decide (Throughout Unadorned draft.node) &&
      decide (hearts ∈ Binding.enumerate {} (draft.node.mentions none)) &&
      ((draft.node.at? majorSpadesClubs).any fun r : Node =>
        decide (r.content.description = some "bid $M")) &&
      (((⟨none, (draft.node.expand {} {}).1⟩ : Tree).select? heartsSpadesClubs).any
        fun found : Position × Node => decide (found.2.content.description = some "bid $M") &&
          decide ((found.2.readResolved (found.1.places found.2)).2.toOption = some (some "bid S"))))
    (by decide +kernel)
  simp only [Bool.and_eq_true, decide_eq_true_eq, Option.any_eq_true] at holds
  obtain ⟨⟨⟨unadorned, enumerated⟩, r, there, said⟩, ⟨position, n⟩, found, described, resolved⟩ := holds
  have tidy := (Document.throughout_declared built).tidy_of_declared
  obtain ⟨taken, way, keys⟩ := exists_way_of_at? tidy (by decide) there
  have written := way.written (Document.throughout_declared built)
  -- the first call on the way is the open suit
  have first : Key.text "1M" ∈ taken.map Token.key := keys ▸ List.mem_cons_self
  obtain ⟨u, member, key⟩ := List.mem_map.1 first
  have wildcard : u.wildcard? = some .major := by
    have parsed := (written u member).parse?_of_key key
    have known : (Token.parse? "1M").bind Token.wildcard? = some .major := by decide
    rwa [parsed, Option.bind_some] at known
  refine ⟨draft, position, n, taken, r, u, built, unadorned, found, way, enumerated, ?_, said,
    by rw [described, said], member, wildcard, ?_⟩
  · rw [boundKeys, ← map_bound_key hearts written, keys]
    decide
  · cases outcome : (n.readResolved (position.places n)).2 with
    | error fault => rw [outcome] at resolved; cases resolved
    | ok out => rw [outcome] at resolved; rw [Option.some.inj resolved]

/-- A description that was bound to hearts may be resolved with spades. -/
theorem exists_resolved_to_other_suit : ∃ draft position n taken r u,
    Document.build [] reopened = .ok draft ∧ Throughout Unadorned draft.node ∧
    (⟨none, (draft.node.expand {} {}).1⟩ : Tree).select? heartsSpadesClubs = some (position, n) ∧
    draft.node.Way taken taken r ∧ hearts ∈ Binding.enumerate {} (draft.node.mentions none) ∧
    heartsSpadesClubs.map Token.key = boundKeys hearts taken ∧ r.content.description = some "bid $M" ∧
    n.content.description = r.content.description ∧ u ∈ taken ∧ u.wildcard? = some .major ∧
    hearts.suit? .major = some "H" ∧ (n.readResolved (position.places n)).2 ≠ .ok (some "bid H") := by
  obtain ⟨draft, position, n, taken, r, u, built, unadorned, found, way, enumerated, keys, said, same, member,
    wildcard, resolved⟩ := exists_reopened
  refine ⟨draft, position, n, taken, r, u, built, unadorned, found, way, enumerated, keys, said, same, member,
    wildcard, rfl, ?_⟩
  rw [resolved]
  simp

theorem resolved_of_lastOpening_reopened : ∃ draft position n, Document.build [] reopened = .ok draft ∧
    ({} : ExpansionSettings).Accepted ∧ Throughout Unadorned draft.node ∧
    (⟨none, (draft.node.expand {} {}).1⟩ : Tree).select? heartsSpadesClubs = some (position, n) ∧
    ∃ suit opened out,
      draft.node.LastOpening {} .major (heartsSpadesClubs.map Token.key) opened suit ∧
      (n.readResolved (position.places n)).2 = .ok (some out) ∧
      resolve (position.places n)
        (String.ofList (fillAll (Wildcard.major.placeholders suit) "bid $M".toList)) = .ok out := by
  obtain ⟨draft, position, n, taken, r, u, built, unadorned, found, way, enumerated, keys, said, same, member,
    wildcard, _⟩ := exists_reopened
  obtain ⟨suit, opened, out, last, _, _, resolved, filled⟩ := resolved_of_lastOpening built accepted_default
    unadorned found way enumerated keys said same member wildcard
  exact ⟨draft, position, n, built, accepted_default, unadorned, found, suit, opened, out, last, resolved,
    filled⟩

end BidBook
