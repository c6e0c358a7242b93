import BidBook.Proofs.OpenSuits
import BidBook.Proofs.Ways

/-! # Shorthands of open suits

A position of an expanded tree holds the shorthands of a suit if some way that a binding takes to it
opens the suit there: its last token is an open suit of that kind, and none before it is.

* `Node.OpensAt` — a suit is opened at a path.
* `mem_boundGlossary_iff` — the shorthands that a binding adds to a position.
* `mem_glossary_expanded_iff` — the shorthands of an expanded tree.
-/

namespace BidBook

namespace Node

/-! ## Shorthands of one copy -/

theorem mem_inject {above : List Glossary} {g : Glossary} {ss : List Shorthand} {s : Shorthand} :
    s ∈ inject above g ss ↔ s ∈ g ∨ (s ∈ ss ∧ ∀ a ∈ above, s ∉ a) := by
  unfold inject
  induction ss generalizing g with
  | nil => simp
  | cons t rest ih =>
    rw [List.foldl_cons, ih]
    by_cases known : (above.any fun a => decide (t ∈ a)) = true
    · rw [if_pos known]
      obtain ⟨a, member, held⟩ := List.any_eq_true.1 known
      have other : (∀ a ∈ above, s ∉ a) → s ≠ t := by
        rintro absent rfl
        exact absent a member (by simpa using held)
      grind
    · rw [if_neg known, Glossary.mem_add]
      have absent : ∀ a ∈ above, t ∉ a := by simpa using known
      grind

theorem injected_none (b : Binding) : injected b none = [] := rfl

variable {K : Token → Prop} {b : Binding} {above above' : List Glossary} {token token' : Option Token}
  {n m : Node} {path : List Token} {s : Shorthand}

/-- On a way through a tree without shorthands, a position above holds one exactly if a token above
gives it. -/
theorem Descends.glossaries (way : Descends b above token n path above' token' m)
    (tidy : Throughout (Tidy K) n) (silent : ∀ q m, n.at? q = some m → s ∉ m.content.glossary) :
    token' = (token.toList ++ path).getLast? ∧
      ((∃ g ∈ above', s ∈ g) ↔ (∃ g ∈ above, s ∈ g) ∨
        ∃ t ∈ (token.toList ++ path).dropLast, s ∈ injected b (some t)) := by
  induction way with
  | here above token n => cases token <;> simp
  | @onward above _ token _ n c _ t path child _ ih =>
    have found := find?_of_mem tidy.here.distinct child
    obtain ⟨last, glossaries⟩ := ih (tidy.children (t, c) child) fun q m there =>
      silent (t.key :: q) m (by rw [at?_cons, found, Option.bind_some, there])
    have here : s ∉ n.content.glossary := silent [] n (at?_nil n)
    -- nothing is held but what the token gives, and that only if it is not held above
    have below : s ∈ boundGlossary b above token n ↔
        s ∈ injected b token ∧ ∀ g ∈ above, s ∉ g := by
      rw [boundGlossary, mem_inject]
      simp [here]
    cases token with
    | none =>
      refine ⟨by simpa using last, glossaries.trans ?_⟩
      rw [List.exists_mem_cons_iff, below, injected_none]
      simp
    | some u =>
      refine ⟨by simpa using last, glossaries.trans ?_⟩
      have split : ((some u).toList ++ t :: path).dropLast = u :: (t :: path).dropLast := rfl
      have start : (some t).toList ++ path = t :: path := rfl
      rw [List.exists_mem_cons_iff, below, split, start, List.exists_mem_cons_iff]
      by_cases held : ∃ g ∈ above, s ∈ g
      · simp [held]
      · have absent : ∀ g ∈ above, s ∉ g := fun g member inside => held ⟨g, member, inside⟩
        rw [and_iff_left absent]
        simp [held]

/-- A token gives a shorthand at the end of a way, and none before it gives the same. -/
def GivenLast (b : Binding) (path : List Token) (s : Shorthand) : Prop :=
  s ∈ injected b path.getLast? ∧ ∀ t ∈ path.dropLast, s ∉ injected b (some t)

theorem mem_boundGlossary_iff (way : Descends b [] none n path above' token' m)
    (tidy : Throughout (Tidy K) n) (silent : ∀ q m, n.at? q = some m → s ∉ m.content.glossary) :
    s ∈ boundGlossary b above' token' m ↔ GivenLast b path s := by
  obtain ⟨last, glossaries⟩ := way.glossaries tidy silent
  have here : s ∉ m.content.glossary := silent _ m (way.at? tidy).1
  have above_iff : (∀ g ∈ above', s ∉ g) ↔ ∀ t ∈ path.dropLast, s ∉ injected b (some t) := by
    have := not_congr glossaries
    simpa using this
  rw [boundGlossary, mem_inject, GivenLast, above_iff, last]
  simp [here]

/-! ## Tokens with the same keys -/

/-- Written tokens with the same key are the same, unless they are calls. -/
theorem eq_or_wildcard?_eq_none {t u : Token} (written : t.Written) (written' : u.Written)
    (same : t.key = u.key) : t = u ∨ (t.wildcard? = none ∧ u.wildcard? = none) := by
  cases key : t.key with
  | call c =>
    exact .inr ⟨Token.wildcard?_of_call? (Token.call?_of_key key),
      Token.wildcard?_of_call? (Token.call?_of_key (same ▸ key))⟩
  | text raw =>
    have first := written.parse?_of_key key
    have second := written'.parse?_of_key (same ▸ key)
    exact .inl (Option.some.inj (first.symm.trans second))

theorem injected_eq_of_key {t u : Token} (written : t.Written) (written' : u.Written)
    (same : t.key = u.key) : injected b (some t) = injected b (some u) := by
  rcases eq_or_wildcard?_eq_none written written' same with rfl | ⟨plain, plain'⟩
  · rfl
  · simp [injected, plain, plain']

theorem givenLast_iff_of_map_eq {b' : Binding} {path' : List Token}
    (same : path.map (fun t => injected b (some t)) = path'.map fun t => injected b' (some t)) :
    GivenLast b path s ↔ GivenLast b' path' s := by
  -- what is given last, and what is given before, are read off the list of what is given
  have last : injected b path.getLast? = injected b' path'.getLast? := by
    have ends := congrArg List.getLast? same
    rw [List.getLast?_map, List.getLast?_map] at ends
    cases first : path.getLast? with
    | none =>
      rw [first] at ends
      cases second : path'.getLast? with
      | none => rfl
      | some u => rw [second] at ends; cases ends
    | some t =>
      rw [first] at ends
      cases second : path'.getLast? with
      | none => rw [second] at ends; cases ends
      | some u => rw [second] at ends; exact Option.some.inj ends
  have before : (∀ t ∈ path.dropLast, s ∉ injected b (some t)) ↔
      ∀ t ∈ path'.dropLast, s ∉ injected b' (some t) := by
    have inits := congrArg List.dropLast same
    rw [← List.map_dropLast, ← List.map_dropLast] at inits
    rw [← List.forall_mem_map (f := fun t => injected b (some t)) (P := fun ss => s ∉ ss), inits,
      List.forall_mem_map]
  rw [GivenLast, GivenLast, last, before]

theorem map_injected_eq_of_keys {path' : List Token} (written : ∀ t ∈ path, t.Written)
    (written' : ∀ t ∈ path', t.Written) (keys : path.map Token.key = path'.map Token.key) :
    path.map (fun t => injected b (some t)) = path'.map fun t => injected b (some t) := by
  induction path generalizing path' with
  | nil =>
    cases path' with
    | nil => rfl
    | cons u path' => cases keys
  | cons t path ih =>
    cases path' with
    | nil => cases keys
    | cons u path' =>
      rw [List.map_cons, List.map_cons, List.cons.injEq] at keys
      rw [List.forall_mem_cons] at written written'
      rw [List.map_cons, List.map_cons, ih written.2 written'.2 keys.2,
        injected_eq_of_key written.1 written'.1 keys.1]

/-! ## Shorthands of an expanded tree -/

theorem not_mem_glossary_flatten (declared : Throughout Declared n)
    (silent : ∀ q m, n.at? q = some m → s ∉ m.content.glossary) {q : List Key}
    (found : n.flatten.1.at? q = some m) : s ∉ m.content.glossary := by
  intro held
  have prevails := (holding s).at_flatten (fun fuel n => by
    show (if s ∈ (flattenFuel fuel n).1.content.glossary then some () else none) = _
    rw [content_flattenFuel]
    rfl) declared.tidy_of_declared q
  have seen : (holding s).at none n.flatten.1 q = some () :=
    (holding s).at_eq_some_iff.2 ⟨m, found, if_pos held⟩
  rw [seen] at prevails
  obtain ⟨q', last, _, seen'⟩ := prevails.1
  obtain ⟨m', found', held'⟩ := (holding s).at_eq_some_iff.1 seen'
  have absent := silent q' m' found'
  rw [show (holding s).see last m' = none from if_neg absent] at held'
  cases held'

theorem holding_at_eq_some_iff {q : List Key} (found : n.at? q = some m) :
    ((holding s).at none n q).isSome ↔ s ∈ m.content.glossary := by
  have seen : (holding s).at none n q = if s ∈ m.content.glossary then some () else none := by
    rw [Observation.at, found, Option.bind_some]
    rfl
  rw [seen]
  split <;> simp [*]

/-- In one copy of a tree without shorthands, a position gets those that are given last on a way
there. -/
theorem holding_at_bind_iff (tidy : Throughout (Tidy K) n)
    (silent : ∀ q m, n.at? q = some m → s ∉ m.content.glossary) {q : List Key} :
    ((holding s).at none (n.bind b [] none) q).isSome ↔ ∃ path above token c,
      Descends b [] none n path above token c ∧ boundKeys b path = q ∧ GivenLast b path s := by
  rw [((holding s).at_bind tidy q).isSome_iff]
  have shown : ∀ above token c, (holding s).see none (bind b above token c) =
      if s ∈ boundGlossary b above token c then some () else none := by
    intro above token c
    show (if s ∈ (bind b above token c).content.glossary then some () else none) = _
    rw [content_bind]
  constructor
  · rintro ⟨x, path, above, token, c, way, keys, seen⟩
    refine ⟨path, above, token, c, way, keys, (mem_boundGlossary_iff way tidy silent).1 ?_⟩
    by_contra absent
    rw [shown, if_neg absent] at seen
    cases seen
  · rintro ⟨path, above, token, c, way, keys, given⟩
    exact ⟨(), path, above, token, c, way, keys, by
      rw [shown, if_pos ((mem_boundGlossary_iff way tidy silent).2 given)]⟩

theorem exists_wildcard_of_mem_injected {t : Option Token} (given : s ∈ injected b t) :
    ∃ u, t = some u ∧ ∃ w, w ∈ Token.wildcardsIn u.raw := by
  cases t with
  | none => cases given
  | some u =>
    simp only [injected] at given
    split at given
    · obtain ⟨w, kind, _⟩ := List.mem_flatMap.1 given
      exact ⟨u, rfl, w, by simpa [Token.kinds, Wildcard.mem_all] using kind⟩
    · cases given

/-- In a tree without choices or shorthands, a position gets those that are given last on a way
there. -/
theorem mem_glossary_expandWildcards_iff {settings : ExpansionSettings} (accepted : settings.Accepted)
    (tidy : Throughout (Tidy Token.Written) n)
    (silent : ∀ q m, n.at? q = some m → s ∉ m.content.glossary) {q : List Key}
    (found : (n.expandWildcards settings [] none).1.at? q = some m) :
    s ∈ m.content.glossary ↔ ∃ b ∈ Binding.enumerate settings (n.mentions none), ∃ path above token c,
      Descends b [] none n path above token c ∧ boundKeys b path = q ∧ GivenLast b path s := by
  by_cases mentioned : ∃ w, n.mentions none w = true
  · obtain ⟨w, mentioned⟩ := mentioned
    have prevails := (holding s).at_expandWildcards_of_mentions accepted mentioned tidy q
    rw [← holding_at_eq_some_iff found, prevails.isSome_iff]
    have start : (holding s).at none (mk n.content [] []) q = none := by
      cases q with
      | nil =>
        rw [Observation.at_nil]
        exact if_neg (silent [] n (at?_nil n))
      | cons k q => simp [Observation.at_cons, find?]
    simp only [start, reduceCtorEq, false_or]
    constructor
    · rintro ⟨x, b, member, seen⟩
      exact ⟨b, member, (holding_at_bind_iff tidy silent).1 (by rw [seen]; rfl)⟩
    · rintro ⟨b, member, given⟩
      obtain ⟨x, seen⟩ := Option.isSome_iff_exists.1 ((holding_at_bind_iff tidy silent).2 given)
      exact ⟨x, b, member, seen⟩
  · have plain : ∀ w, n.mentions none w = false := fun w => by
      simpa using fun h => mentioned ⟨w, h⟩
    rw [expandWildcards_of_not_mentions plain] at found
    refine iff_of_false (silent q m found) ?_
    rintro ⟨b, _, path, above, token, c, way, _, given, _⟩
    obtain ⟨t, last, w, occurs⟩ := exists_wildcard_of_mem_injected given
    have within := (way.at? (tidy.within fun w here => mentions_none.2 here)).2
    exact mentioned ⟨w, (within t (List.mem_of_getLast? last)).2 w occurs⟩

/-- Bindings that agree on the wildcards of a way make the same of it. -/
theorem boundKeys_congr {b b' : Binding} {path : List Token} (written : ∀ t ∈ path, t.Written)
    (agree : ∀ t ∈ path, Binding.Agree (· ∈ Token.wildcardsIn t.raw) b b') :
    boundKeys b path = boundKeys b' path ∧ (GivenLast b path s ↔ GivenLast b' path s) := by
  constructor
  · exact List.map_congr_left fun t member => by rw [bindToken_congr (written t member) (agree t member)]
  · exact givenLast_iff_of_map_eq (List.map_congr_left fun t member => injected_congr (agree t member))

/-- Ways with the same keys are bound alike. -/
theorem boundKeys_eq_of_keys {b : Binding} {path taken : List Token} (written : ∀ t ∈ path, t.Written)
    (written' : ∀ t ∈ taken, t.Written) (keys : path.map Token.key = taken.map Token.key) :
    boundKeys b path = boundKeys b taken ∧ (GivenLast b path s ↔ GivenLast b taken s) := by
  constructor
  · rw [boundKeys, boundKeys, ← map_bound_key b written, keys, map_bound_key b written']
  · exact givenLast_iff_of_map_eq (map_injected_eq_of_keys written written' keys)

theorem mem_glossary_expanded_iff {settings : ExpansionSettings} (accepted : settings.Accepted)
    (declared : Throughout Declared n) (silent : ∀ q m, n.at? q = some m → s ∉ m.content.glossary)
    {q : List Key} (found : (n.flatten.1.expandWildcards settings [] none).1.at? q = some m) :
    s ∈ m.content.glossary ↔ ∃ b ∈ Binding.enumerate settings (n.mentions none), ∃ written taken c,
      n.Way written taken c ∧ boundKeys b taken = q ∧ GivenLast b taken s := by
  have tidy := tidy_flatten_of_declared declared
  -- bindings of fewer kinds and paths without choices are exchanged for bindings of all kinds and ways
  have tidy' := tidy.within fun w here => mentions_none.2 here
  have includes : ∀ w, n.flatten.1.mentions none w = true → n.mentions none w = true :=
    fun w => mentions_of_mentions_flatten declared
  -- the kinds that are left without choices are all that matters
  have agrees : ∀ {b b' : Binding} {path : List Token},
      Binding.Agree (fun w => n.flatten.1.mentions none w = true) b b' →
      (∀ t ∈ path, t.Within (n.flatten.1.mentions none)) →
      ∀ t ∈ path, Binding.Agree (· ∈ Token.wildcardsIn t.raw) b b' :=
    fun agree within t member w here => agree w ((within t member).2 w here)
  rw [mem_glossary_expandWildcards_iff accepted tidy
    (fun q m there => not_mem_glossary_flatten declared silent there) found]
  constructor
  · rintro ⟨b, member, path, above, token, c, way, keys, given⟩
    obtain ⟨there, within⟩ := way.at? tidy'
    obtain ⟨b', member', agree⟩ := Binding.exists_agree_many accepted includes member
    obtain ⟨written, taken, m, way', keys'⟩ :=
      (isSome_at?_flatten_iff declared).1 (Option.isSome_iff_exists.2 ⟨c, there⟩)
    have pathWritten : ∀ t ∈ path, t.Written := fun t member => (within t member).1
    obtain ⟨sameKeys, sameGiven⟩ := boundKeys_congr (s := s) pathWritten (agrees agree within)
    obtain ⟨sameKeys', sameGiven'⟩ := boundKeys_eq_of_keys (s := s) (b := b') pathWritten
      (way'.written declared) keys'.symm
    exact ⟨b', member', written, taken, m, way', by rw [← sameKeys', ← sameKeys, keys],
      sameGiven'.1 (sameGiven.1 given)⟩
  · rintro ⟨b, member, written, taken, c, way, keys, given⟩
    obtain ⟨b', member', agree⟩ := Binding.exists_agree_few includes member
    obtain ⟨m, there⟩ := Option.isSome_iff_exists.1
      ((isSome_at?_flatten_iff declared).2 ⟨written, taken, c, way, rfl⟩)
    obtain ⟨path, above, token, way', keys'⟩ := exists_descends b' [] none there
    have within := (way'.at? tidy').2
    have pathWritten : ∀ t ∈ path, t.Written := fun t member => (within t member).1
    obtain ⟨sameKeys, sameGiven⟩ := boundKeys_congr (s := s) pathWritten (agrees agree within)
    obtain ⟨sameKeys', sameGiven'⟩ := boundKeys_eq_of_keys (s := s) (b := b) pathWritten
      (way.written declared) keys'
    exact ⟨b', member', path, above, token, m, way', by rw [← sameKeys, sameKeys', keys],
      sameGiven.1 (sameGiven'.2 given)⟩

/-! ## Plain open suits -/

/-- The last token of a way is an open suit of a kind, and none before it is. -/
def Opens (w : Wildcard) (taken : List Token) : Prop :=
  ∃ before u, taken = before ++ [u] ∧ u.wildcard? = some w ∧ ∀ v ∈ before, v.wildcard? ≠ some w

/-- Some way opens a suit at a path. -/
def OpensAt (settings : ExpansionSettings) (n : Node) (w : Wildcard) (suit : String)
    (path : List Key) : Prop :=
  ∃ written taken m, n.Way written taken m ∧ Opens w taken ∧
    ∃ b ∈ Binding.enumerate settings (n.mentions none), b.suit? w = some suit ∧ path = boundKeys b taken

/-- A position without relay steps and shorthands, whose children are plain where they are open
suits. -/
structure Unadorned (n : Node) : Prop where
  steps : n.steps = []
  glossary : n.content.glossary = .empty
  plain : ∀ e ∈ n.children, ∀ u ∈ e.1.options, u.Plain

instance : DecidablePred Unadorned := fun n =>
  decidable_of_iff (n.steps.isEmpty = true ∧ n.content.glossary = .empty ∧
      ∀ e ∈ n.children, ∀ u ∈ e.1.options, u.Plain)
    ⟨fun ⟨steps, glossary, plain⟩ => ⟨List.isEmpty_iff.1 steps, glossary, plain⟩,
      fun h => ⟨List.isEmpty_iff.2 h.steps, h.glossary, h.plain⟩⟩

theorem Way.plain {written taken : List Token} (way : n.Way written taken m)
    (unadorned : Throughout Unadorned n) : ∀ u ∈ taken, u.Plain := by
  induction way with
  | here => simp
  | @onward n c m t u written taken child option later ih =>
    exact List.forall_mem_cons.2
      ⟨unadorned.here.plain (t, c) child u option, ih (unadorned.children (t, c) child)⟩

/-- What a plain open suit gives. -/
theorem mem_injected_iff_of_plain {u : Token} (written : u.Written) (plain : u.Plain) :
    s ∈ injected b (some u) ↔ ∃ w suit, u.wildcard? = some w ∧ b.suit? w = some suit ∧
      s ∈ Binding.shorthandsFor w suit := by
  cases wildcard : u.wildcard? with
  | none => simp [injected, wildcard]
  | some w =>
    simp only [injected, wildcard, Option.isSome_some, if_true, Token.kinds_of_plain written plain wildcard,
      List.flatMap_singleton, Binding.shorthands]
    cases chosen : b.suit? w with
    | none => simp [chosen]
    | some suit => simp [chosen]

theorem givenLast_iff_of_plain {taken : List Token} (written : ∀ u ∈ taken, u.Written)
    (plain : ∀ u ∈ taken, u.Plain) :
    GivenLast b taken s ↔ ∃ w suit, Opens w taken ∧ b.suit? w = some suit ∧
      s ∈ Binding.shorthandsFor w suit := by
  constructor
  · rintro ⟨given, before⟩
    obtain ⟨u, last, _⟩ := exists_wildcard_of_mem_injected given
    have member := List.mem_of_getLast? last
    rw [last] at given
    obtain ⟨w, suit, wildcard, chosen, held⟩ :=
      (mem_injected_iff_of_plain (written u member) (plain u member)).1 given
    refine ⟨w, suit, ⟨taken.dropLast, u, (List.dropLast_append_getLast? u last).symm, wildcard, ?_⟩, chosen,
      held⟩
    intro v there same
    have inside := (List.dropLast_sublist taken).mem there
    exact before v there ((mem_injected_iff_of_plain (written v inside) (plain v inside)).2
      ⟨w, suit, same, chosen, held⟩)
  · rintro ⟨w, suit, ⟨before, u, rfl, wildcard, first⟩, chosen, held⟩
    have last : u ∈ before ++ [u] := by simp
    constructor
    · rw [List.getLast?_concat]
      exact (mem_injected_iff_of_plain (written u last) (plain u last)).2 ⟨w, suit, wildcard, chosen, held⟩
    · rw [List.dropLast_concat]
      intro v there given
      have inside : v ∈ before ++ [u] := List.mem_append_left _ there
      obtain ⟨w', suit', wildcard', _, held'⟩ :=
        (mem_injected_iff_of_plain (written v inside) (plain v inside)).1 given
      exact first v there (kind_eq_of_mem_shorthandsFor held held' ▸ wildcard')

/-- The shorthands at a path are those of the suits that are opened there. -/
theorem mem_glossary_iff_opensAt {settings : ExpansionSettings} (accepted : settings.Accepted)
    (declared : Throughout Declared n) (unadorned : Throughout Unadorned n)
    {q : List Key} (found : (n.flatten.1.expandWildcards settings [] none).1.at? q = some m) :
    s ∈ m.content.glossary ↔ ∃ w suit, n.OpensAt settings w suit q ∧ s ∈ Binding.shorthandsFor w suit := by
  have silent : ∀ q m, n.at? q = some m → s ∉ m.content.glossary := fun q m there => by
    rw [(unadorned.of_at? there).here.glossary]
    exact List.not_mem_nil
  have taken_iff : ∀ {b written taken c}, n.Way written taken c →
      (GivenLast b taken s ↔ ∃ w suit, Opens w taken ∧ b.suit? w = some suit ∧
        s ∈ Binding.shorthandsFor w suit) := fun way =>
    givenLast_iff_of_plain
      (way.written declared) (way.plain unadorned)
  rw [mem_glossary_expanded_iff accepted declared silent found]
  constructor
  · rintro ⟨b, member, written, taken, c, way, keys, given⟩
    obtain ⟨w, suit, opens, chosen, held⟩ := (taken_iff way).1 given
    exact ⟨w, suit, ⟨written, taken, c, way, opens, b, member, chosen, keys.symm⟩, held⟩
  · rintro ⟨w, suit, ⟨written, taken, c, way, opens, b, member, chosen, keys⟩, held⟩
    exact ⟨b, member, written, taken, c, way, keys.symm, (taken_iff way).2 ⟨w, suit, opens, chosen, held⟩⟩

end Node

end BidBook
