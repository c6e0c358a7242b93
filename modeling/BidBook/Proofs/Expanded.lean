import BidBook.Proofs.Ways

/-! # Expanded trees

What an expanded tree holds, in terms of the tree that a document declares. Its paths are those that
a way takes with one branch for each choice and the same suits throughout. At each of them stands
the description that was declared last, among all that lead there.

* `Node.Reaches` — some binding takes a way to a path.
* `isSome_at?_expanded_iff` — the paths of an expanded tree.
* `described_last_of_at?_expanded` — the descriptions of an expanded tree.
-/

namespace BidBook

namespace Node

/-- A way that some binding of the kinds that occur in the tree takes to a path. -/
def Reaches (settings : ExpansionSettings) (n : Node) (written taken : List Token) (m : Node)
    (path : List Key) : Prop :=
  n.Way written taken m ∧
    ∃ b ∈ Binding.enumerate settings (n.mentions none), path = boundKeys b taken

/-- Of all described positions that lead to a path, this one was declared last. -/
structure Prevailing (settings : ExpansionSettings) (n : Node) (path : List Key)
    (written taken : List Token) (m : Node) : Prop where
  reaches : n.Reaches settings written taken m path
  described : m.content.isDescribed = true
  last : ∀ written' taken' m', n.Reaches settings written' taken' m' path →
    m'.content.isDescribed = true → written' ≠ written → m'.content.priority < m.content.priority

theorem Way.written_eq_of_keys {K : Token → Prop} {n m m' : Node}
    {written written' taken taken' : List Token} (tidy : Throughout (Tidy K) n)
    (way : n.Way written taken m) (way' : n.Way written' taken' m')
    (keys : written.map Token.key = written'.map Token.key) : written = written' := by
  induction way generalizing written' taken' with
  | here =>
    cases way' with
    | here => rfl
    | onward child option later => cases keys
  | @onward n c m t u written taken child option later ih =>
    cases way' with
    | here => cases keys
    | @onward _ c' _ t' u' written' taken' child' option' later' =>
      rw [List.map_cons, List.map_cons, List.cons.injEq] at keys
      obtain ⟨rfl, rfl⟩ : t = t' ∧ c = c' :=
        Prod.mk.inj (List.inj_on_of_nodup_map tidy.here.distinct child child' keys.1)
      rw [ih (tidy.children (t, c) child) later' keys.2]

end Node

open Node

variable {shorthands : List Shorthand} {document : Value} {draft : Document.Draft}
  {settings : ExpansionSettings}

/-! ## Paths -/

/-- Choices and open suits are written out soundly and completely: a path leads somewhere exactly if
some way through the declared tree becomes it, with one branch for every choice and one binding for
every open suit. -/
theorem isSome_at?_expanded_iff [Pattern.Judge] (built : Document.build shorthands document = .ok draft)
    (accepted : settings.Accepted) (path : List Key) :
    ((draft.node.flatten.1.expandWildcards settings [] none).1.at? path).isSome ↔
      ∃ written taken m, draft.node.Reaches settings written taken m path := by
  have present := (Observation.at_expanded Observation.ofRemarks_presence accepted
    (Document.throughout_declared built) path).isSome_iff
  rw [presence_at, Option.isSome_map] at present
  rw [present]
  constructor
  · rintro ⟨_, b, member, written, taken, m, way, keys, _⟩
    exact ⟨written, taken, m, way, b, member, keys.symm⟩
  · rintro ⟨written, taken, m, way, b, member, keys⟩
    exact ⟨(), b, member, written, taken, m, way, keys.symm, rfl⟩

/-- Both majors are opened and raised in a minor suit or notrump, and one of these raises is
declared again. -/
def raises : Value :=
  .map [(.text "1M", .map [(.text "2m|2NT", .text "limit raise")]), (.text "1H-P-2D", .text "natural")]

/-- The tokens of a written sequence, as far as they are written well. -/
def Sequence.tokens (text : String) : List Token := (Sequence.split text).filterMap Token.parse?

def notrumpRaise : List Key := (Sequence.tokens "1S-P-2NT").map Token.key

def diamondRaise : List Key := (Sequence.tokens "1H-P-2D").map Token.key

theorem accepted_default : ({} : ExpansionSettings).Accepted :=
  ⟨fun w => by cases w <;> decide, fun _ _ member => member, fun w => by cases w <;> decide⟩

/-- The tree that a document declares, with a property that was computed. -/
theorem exists_draft (document : Value) (P : Document.Draft → Bool)
    (holds : (Document.build [] document).toOption.any P = true) :
    ∃ draft, Document.build [] document = .ok draft ∧ P draft = true := by
  cases built : Document.build [] document with
  | error fault => rw [built] at holds; cases holds
  | ok draft => exact ⟨draft, rfl, by rwa [built] at holds⟩

theorem isSome_at?_expanded_iff_raises :
    ∃ draft, Document.build [] raises = .ok draft ∧ ({} : ExpansionSettings).Accepted ∧
      ∃ written taken m, draft.node.Reaches {} written taken m notrumpRaise := by
  obtain ⟨draft, built, present⟩ := exists_draft raises
    (fun draft =>
      ((draft.node.flatten.1.expandWildcards {} [] none).1.at? notrumpRaise).isSome) (by decide +kernel)
  exact ⟨draft, built, accepted_default, (isSome_at?_expanded_iff built accepted_default _).1 present⟩

/-! ## Descriptions -/

theorem number?_of_way {K : Token → Prop} {n m : Node} {written taken : List Token}
    (tidy : Throughout (Tidy K) n) (way : n.Way written taken m)
    (described : m.content.isDescribed = true) :
    n.number? (written.map Token.key) = some m.content.priority := by
  rw [number?, way.at? tidy, Option.bind_some, if_pos described]

/-- Later declarations win: at each path of an expanded tree stands what was declared last among all
that leads there, with the marks of a token that leads there; and nothing if nothing described leads
there. -/
theorem described_last_of_at?_expanded [Pattern.Judge]
    (built : Document.build shorthands document = .ok draft)
    (accepted : settings.Accepted) {path : List Key} {n : Node}
    (found : (draft.node.flatten.1.expandWildcards settings [] none).1.at? path = some n) :
    (n.content.isDescribed = false ∧ ∀ written taken m,
        draft.node.Reaches settings written taken m path → m.content.isDescribed = false) ∨
      ∃ written taken m, draft.node.Prevailing settings path written taken m ∧
        n.content.description = m.content.description ∧ n.content.priority = m.content.priority ∧
        n.content.marks = (taken.getLast?.map Token.marks).getD {} := by
  have declared := Document.throughout_declared built
  have tidy := declared.tidy_of_declared
  have prevails := Observation.at_expanded Observation.ofRemarks_remarks accepted declared path
  have shown : remarks.at none (draft.node.flatten.1.expandWildcards settings [] none).1 path =
      n.content.remark? := by
    rw [Observation.at, found, Option.bind_some]
    rfl
  rw [shown] at prevails
  cases said : n.content.remark? with
  | none =>
    refine .inl ⟨Content.remark?_eq_none_iff.1 said, ?_⟩
    rintro written taken m ⟨way, b, member, keys⟩
    rw [said] at prevails
    -- a described position would say something here
    by_contra described
    rw [Bool.not_eq_false] at described
    obtain ⟨r, offer⟩ := exists_remark?_under taken.getLast? described
    exact prevails r ⟨b, member, written, taken, m, way, keys.symm, offer⟩
  | some r =>
    rw [said] at prevails
    obtain ⟨⟨b, member, written, taken, m, way, keys, offer⟩, best⟩ := prevails
    obtain ⟨described, priority⟩ := described_of_remark? offer
    obtain ⟨_, description, priority', marks⟩ := Content.remark?_eq_some_iff.1 said
    obtain ⟨_, description', _, marks'⟩ := Content.remark?_eq_some_iff.1 offer
    refine .inr ⟨written, taken, m, ⟨⟨way, b, member, keys.symm⟩, described, ?_⟩, ?_, ?_, ?_⟩
    · rintro written' taken' m' ⟨way', b', member', keys'⟩ described' other
      obtain ⟨r', offer'⟩ := exists_remark?_under taken'.getLast? described'
      have le : r'.priority ≤ r.priority :=
        best r' ⟨b', member', written', taken', m', way', keys'.symm, offer'⟩
      rw [(described_of_remark? offer').2, priority] at le
      refine Int.lt_iff_le_and_ne.2 ⟨le, fun same => other ?_⟩
      -- no two positions are described by the same declaration
      exact way'.written_eq_of_keys tidy way (Document.number?_injective built
        (number?_of_way tidy way' described') (same ▸ number?_of_way tidy way described))
    · rw [description, ← description']
      cases taken.getLast? <;> rfl
    · rw [priority', priority]
    · rw [marks, ← marks']
      cases way with
      | here => exact Document.marks_root built
      | @onward _ _ _ t u written taken child option later =>
        rw [List.getLast?_cons]
        rfl

theorem described_last_of_at?_expanded_raises :
    ∃ draft n, Document.build [] raises = .ok draft ∧ ({} : ExpansionSettings).Accepted ∧
      (draft.node.flatten.1.expandWildcards {} [] none).1.at? diamondRaise = some n ∧
      ∃ written taken m, draft.node.Prevailing {} diamondRaise written taken m ∧
        m.content.description = some "natural" := by
  obtain ⟨draft, built, natural⟩ := exists_draft raises
    (fun draft => ((draft.node.flatten.1.expandWildcards {} [] none).1.at? diamondRaise).any
      fun n : Node => decide (n.content.description = some "natural")) (by decide +kernel)
  obtain ⟨n, found, natural⟩ := (Option.any_eq_true _ _).1 natural
  rw [decide_eq_true_eq] at natural
  refine ⟨draft, n, built, accepted_default, found, ?_⟩
  rcases described_last_of_at?_expanded built accepted_default found with ⟨silent, _⟩ | said
  · rw [Content.isDescribed, natural] at silent
    exact absurd silent (by decide)
  · obtain ⟨written, taken, m, prevailing, description, _⟩ := said
    exact ⟨written, taken, m, prevailing, by rw [← description, natural]⟩

end BidBook
