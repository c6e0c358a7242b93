import BidBook.Proofs.Building
import BidBook.Proofs.Observation
import BidBook.Proofs.Tidy

/-! # Declared trees

The tree that a document declares is tidy, and each position has the marks of the token that leads
to it. Descriptions carry the number of their declaration, and no two positions share one.

* `Node.Declared` — what holds at each position of a declared tree.
* `Document.throughout_declared` — it does.
* `Node.number?` — the declaration that described a position.
* `Document.number?_injective` — a declaration describes one position.
-/

namespace BidBook

namespace Node

/-! ## Going to the end of a path -/

theorem find?_children_put (k : Key) (n : Node) (t : Token) (path : List Token) (new : Node) :
    find? k (n.put (t :: path) new).children =
      if t.key = k then some ((childOrNew t n.children).put path new) else find? k n.children := by
  rw [put, children_mk, find?_putChild]

/-- Nothing amiss, and the marks of each child are those of its token. -/
structure Declared (n : Node) : Prop extends Tidy Token.Spelled n where
  marked : ∀ e ∈ n.children, e.2.content.marks = e.1.marks

theorem throughout_declared_leaf {c : Content} (fresh : c.resolved = none) :
    Throughout Declared (mk c [] []) :=
  .mk ⟨⟨by simp, by simp, fresh⟩, by simp⟩ (by simp) (by simp)

theorem throughout_declared_childOrNew {t : Token} {cs : List (Token × Node)}
    (declared : ∀ e ∈ cs, Throughout Declared e.2) : Throughout Declared (childOrNew t cs) :=
  of_childOrNew (throughout_declared_leaf rfl) declared

theorem throughout_declared_reach {n : Node} (path : List Token) (declared : Throughout Declared n) :
    Throughout Declared (n.reach path) :=
  declared.reach_of_new fun _ _ => throughout_declared_leaf rfl

theorem throughout_declared_put {n new : Node} {path : List Token} (declared : Throughout Declared n)
    (spelled : ∀ t ∈ path, t.Spelled) (placed : Throughout Declared new)
    (marks : new.content.marks = (n.reach path).content.marks) :
    Throughout Declared (n.put path new) ∧ (n.put path new).content.marks = n.content.marks := by
  -- the new child is marked by its own token, whether it was there before or not
  induction path generalizing n with
  | nil => exact ⟨placed, marks⟩
  | cons t path ih =>
    rw [List.forall_mem_cons] at spelled
    obtain ⟨below, same⟩ := ih (throughout_declared_childOrNew declared.children) spelled.2 marks
    refine ⟨.mk ⟨⟨?_, ?_, declared.here.fresh⟩, ?_⟩ declared.steps ?_, rfl⟩
    · exact nodup_putChild declared.here.distinct
    · exact forall_token_putChild _ spelled.1 declared.here.tokens
    · rintro ⟨u, m⟩ member
      rcases mem_putChild member with ⟨rfl, rfl, missing⟩ | ⟨rfl, _, old, place, found⟩ | kept
      · rw [same, childOrNew, missing]
        rfl
      · rw [same, childOrNew, found]
        exact declared.here.marked _ place
      · exact declared.here.marked _ kept
    · exact forall_node_putChild below declared.children

/-! ## Numbers of declarations -/

/-- The number of the declaration that described the position at the end of a path. -/
def number? (n : Node) (path : List Key) : Option Int :=
  (n.at? path).bind fun m => if m.content.isDescribed then some m.content.priority else none

theorem number?_nil (n : Node) :
    n.number? [] = if n.content.isDescribed then some n.content.priority else none := by
  rw [number?, at?_nil, Option.bind_some]

theorem number?_cons (n : Node) (k : Key) (path : List Key) :
    n.number? (k :: path) = (find? k n.children).bind fun c => c.number? path := by
  rw [number?, at?_cons, Option.bind_assoc]
  rfl

theorem number?_ofToken (t : Token) (path : List Key) : (ofToken t).number? path = none := by
  cases path with
  | nil => rfl
  | cons k path => rw [number?, at?_ofToken_cons, Option.bind_none]

theorem number?_childOrNew (t : Token) (n : Node) (path : List Key) :
    (childOrNew t n.children).number? path = n.number? (t.key :: path) := by
  rw [number?_cons, childOrNew]
  cases find? t.key n.children with
  | none => exact number?_ofToken t path
  | some c => rfl

theorem number?_reach (n : Node) (path : List Token) (rest : List Key) :
    (n.reach path).number? rest = n.number? (path.map Token.key ++ rest) := by
  induction path generalizing n with
  | nil => rfl
  | cons t path ih => rw [reach, ih, number?_childOrNew, List.map_cons, List.cons_append]

theorem number?_put_append (n new : Node) (path : List Token) (rest : List Key) :
    (n.put path new).number? (path.map Token.key ++ rest) = new.number? rest := by
  induction path generalizing n with
  | nil => rfl
  | cons t path ih =>
    rw [List.map_cons, List.cons_append, number?_cons, find?_children_put, if_pos rfl,
      Option.bind_some, ih]

/-- Elsewhere nothing is changed. -/
theorem number?_put_elsewhere {n new : Node} {path : List Token} {p : List Key}
    (elsewhere : ¬ path.map Token.key <+: p) : (n.put path new).number? p = n.number? p := by
  induction path generalizing n p with
  | nil => exact absurd List.nil_prefix elsewhere
  | cons t path ih =>
    cases p with
    | nil => rfl
    | cons k p =>
      rw [number?_cons, find?_children_put]
      split
      · next same =>
        subst same
        have elsewhere' : ¬ path.map Token.key <+: p := fun sub =>
          elsewhere (List.cons_prefix_cons.2 ⟨rfl, sub⟩)
        rw [Option.bind_some, ih elsewhere', number?_childOrNew]
      · rw [number?_cons]

end Node

namespace Document

open Node

/-! ## What every declaration keeps -/

/-- A declared tree stays one, under the same token. -/
def StaysDeclared (d d' : Draft) : Prop :=
  Throughout Declared d.node →
    Throughout Declared d'.node ∧ d'.node.content.marks = d.node.content.marks

theorem declared_of_same {n n' : Node} (declared : Throughout Declared n)
    (fresh : n'.content.resolved = none) (steps : n'.steps = n.steps) (children : n'.children = n.children) :
    Throughout Declared n' := by
  refine .mk ⟨⟨?_, ?_, fresh⟩, ?_⟩ ?_ ?_
  · exact children ▸ declared.here.distinct
  · exact children ▸ declared.here.tokens
  · exact children ▸ declared.here.marked
  · exact steps ▸ declared.steps
  · exact children ▸ declared.children

theorem steady_staysDeclared : Steady StaysDeclared where
  refl d declared := ⟨declared, rfl⟩
  trans first second declared :=
    have ⟨declared', marks⟩ := first declared
    have ⟨declared'', marks'⟩ := second declared'
    ⟨declared'', marks'.trans marks⟩
  describe := fun ⟨.mk _ _ _, _⟩ _ declared =>
    ⟨declared_of_same declared declared.here.fresh rfl rfl, rfl⟩
  declare := fun ⟨.mk _ _ _, _⟩ declared =>
    ⟨declared_of_same declared declared.here.fresh rfl rfl, rfl⟩
  define := fun ⟨.mk _ _ _, _⟩ _ declared =>
    ⟨declared_of_same declared declared.here.fresh rfl rfl, rfl⟩
  addStep d step drafted declared := by
    refine ⟨.mk ⟨⟨declared.here.distinct, declared.here.tokens, declared.here.fresh⟩,
      declared.here.marked⟩ ?_ declared.children, rfl⟩
    intro s member
    rcases List.mem_append.1 member with old | new
    · exact declared.steps s old
    · rw [List.mem_singleton.1 new]
      exact (drafted (throughout_declared_leaf rfl)).1
  within d path inner spelled drafted declared :=
    have ⟨placed, marks⟩ := drafted (throughout_declared_reach path declared)
    throughout_declared_put declared spelled placed marks

/-- Numbers go up to the number of declarations so far, and each stands at one position. -/
structure Numbered (d : Draft) : Prop where
  le_declared : ∀ p x, d.node.number? p = some x → x ≤ d.declared
  injective : ∀ p q x, d.node.number? p = some x → d.node.number? q = some x → p = q

/-- New numbers are higher than those given before. -/
structure Grows (d d' : Draft) : Prop where
  declared_le : d.declared ≤ d'.declared
  old_or_new : ∀ p x, d'.node.number? p = some x →
    d.node.number? p = some x ∨ (d.declared < x ∧ x ≤ d'.declared)
  numbered : Numbered d → Numbered d'

/-- The position itself gets the next number, if any; the others keep theirs. -/
theorem grows_of_next {d d' : Draft} (next : d'.declared = d.next)
    (priority : d'.node.content.priority = d.next) (children : d'.node.children = d.node.children) :
    Grows d d' := by
  have one_more : (d'.declared : Int) = d.declared + 1 := by
    rw [next, Draft.next]
    exact Int.natCast_succ _
  -- only the position itself can have a number that it did not have before
  have old_or_next : ∀ p x, d'.node.number? p = some x →
      (p = [] ∧ x = d'.declared) ∨ d.node.number? p = some x := by
    intro p x number
    cases p with
    | nil =>
      rw [number?_nil, priority] at number
      split at number
      · exact .inl ⟨rfl, next ▸ (Option.some.inj number).symm⟩
      · cases number
    | cons k p => exact .inr (by rwa [number?_cons, children, ← number?_cons] at number)
  refine ⟨by omega, fun p x number => ?_, fun numbered => ⟨fun p x number => ?_,
    fun p q x number number' => ?_⟩⟩
  · rcases old_or_next p x number with ⟨_, new⟩ | old
    · exact .inr (by omega)
    · exact .inl old
  · rcases old_or_next p x number with ⟨_, new⟩ | old
    · exact Int.le_of_eq new
    · have := numbered.le_declared p x old
      omega
  · rcases old_or_next p x number with ⟨rfl, new⟩ | old <;>
      rcases old_or_next q x number' with ⟨rfl, new'⟩ | old'
    · rfl
    · have := numbered.le_declared q x old'
      omega
    · have := numbered.le_declared p x old
      omega
    · exact numbered.injective p q x old old'

theorem grows_of_same {d d' : Draft} (le : d.declared ≤ d'.declared)
    (same : d'.node.number? = d.node.number?) : Grows d d' := by
  refine ⟨le, fun p x number => .inl (same ▸ number), fun numbered => ⟨fun p x number => ?_, ?_⟩⟩
  · have := numbered.le_declared p x (same ▸ number)
    omega
  · rw [same]
    exact numbered.injective

theorem Numbered.reach {d : Draft} (numbered : Numbered d) (path : List Token) :
    Numbered ⟨d.node.reach path, d.declared⟩ := by
  refine ⟨fun p x number => ?_, fun p q x number number' => ?_⟩
  · rw [number?_reach] at number
    exact numbered.le_declared _ x number
  · rw [number?_reach] at number number'
    exact List.append_cancel_left (numbered.injective _ _ x number number')

theorem Grows.within {d inner : Draft} {path : List Token}
    (grows : Grows ⟨d.node.reach path, d.declared⟩ inner) :
    Grows d ⟨d.node.put path inner.node, inner.declared⟩ := by
  have declared_le : d.declared ≤ inner.declared := grows.declared_le
  have old_or_new : ∀ rest x, inner.node.number? rest = some x →
      d.node.number? (path.map Token.key ++ rest) = some x ∨ (d.declared < x ∧ x ≤ inner.declared) := by
    intro rest x number
    rw [← number?_reach]
    exact grows.old_or_new rest x number
  -- a number stands below the end of the path, or where it stood before
  have inside_or_elsewhere : ∀ p x, (d.node.put path inner.node).number? p = some x →
      (∃ rest, p = path.map Token.key ++ rest ∧ inner.node.number? rest = some x) ∨
        (¬ path.map Token.key <+: p ∧ d.node.number? p = some x) := by
    intro p x number
    by_cases inside : path.map Token.key <+: p
    · obtain ⟨rest, rfl⟩ := inside
      exact .inl ⟨rest, rfl, by rwa [number?_put_append] at number⟩
    · exact .inr ⟨inside, by rwa [number?_put_elsewhere inside] at number⟩
  -- a number given on the inside is new, or it was there before, and so it is not given elsewhere
  have apart : Numbered d → ∀ rest q x, inner.node.number? rest = some x →
      ¬ path.map Token.key <+: q → d.node.number? q ≠ some x := by
    intro numbered rest q x number elsewhere number'
    rcases old_or_new rest x number with old | new
    · exact elsewhere ⟨rest, numbered.injective _ q x old number'⟩
    · have := numbered.le_declared q x number'
      omega
  refine ⟨declared_le, fun p x number => ?_, fun numbered => ?_⟩
  · rcases inside_or_elsewhere p x number with ⟨rest, rfl, inside⟩ | ⟨_, outside⟩
    · exact old_or_new rest x inside
    · exact .inl outside
  · have numberedInside := grows.numbered (numbered.reach path)
    refine ⟨fun p x number => ?_, fun p q x number number' => ?_⟩
    · rcases inside_or_elsewhere p x number with ⟨rest, _, inside⟩ | ⟨_, outside⟩
      · exact numberedInside.le_declared rest x inside
      · exact Int.le_trans (numbered.le_declared p x outside) (by exact_mod_cast declared_le)
    · rcases inside_or_elsewhere p x number with ⟨rest, rfl, inside⟩ | ⟨elsewhere, outside⟩ <;>
        rcases inside_or_elsewhere q x number' with ⟨rest', rfl, inside'⟩ | ⟨elsewhere', outside'⟩
      · rw [numberedInside.injective rest rest' x inside inside']
      · exact absurd outside' (apart numbered rest q x inside elsewhere')
      · exact absurd outside (apart numbered rest' p x inside' elsewhere)
      · exact numbered.injective p q x outside outside'

theorem steady_grows : Steady Grows where
  refl d := ⟨Nat.le_refl _, fun _ _ number => .inl number, id⟩
  trans {d d' d''} first second := by
    have le := first.declared_le
    have le' := second.declared_le
    refine ⟨Nat.le_trans le le', fun p x number => ?_, second.numbered ∘ first.numbered⟩
    rcases second.old_or_new p x number with old | new
    · rcases first.old_or_new p x old with old | new
      · exact .inl old
      · exact .inr (by omega)
    · exact .inr (by omega)
  describe := fun ⟨.mk _ _ _, _⟩ _ => grows_of_next rfl rfl rfl
  declare := fun ⟨.mk _ _ _, _⟩ => grows_of_next rfl rfl rfl
  define := fun ⟨.mk _ _ _, _⟩ _ => grows_of_same (Nat.le_refl _) (funext fun p => by cases p <;> rfl)
  addStep := fun ⟨.mk _ _ _, _⟩ _ drafted =>
    grows_of_same drafted.declared_le (funext fun p => by cases p <;> rfl)
  within d path inner _ drafted := drafted.within

/-! ## Declared trees -/

variable {shorthands : List Shorthand} {document : Value} {draft : Draft}

theorem throughout_declared [Pattern.Judge] (built : build shorthands document = .ok draft) :
    Throughout Declared draft.node :=
  (steady_staysDeclared.of_build built (throughout_declared_leaf rfl)).1

theorem marks_root [Pattern.Judge] (built : build shorthands document = .ok draft) :
    draft.node.content.marks = {} :=
  (steady_staysDeclared.of_build built (throughout_declared_leaf rfl)).2

theorem numbered_root (shorthands : List Shorthand) : Numbered ⟨.root shorthands, 0⟩ := by
  have silent : ∀ p, (Node.root shorthands).number? p = none := fun p => by cases p <;> rfl
  exact ⟨fun p x number => by simp [silent] at number, fun p q x number => by simp [silent] at number⟩

/-- No two positions are described by the same declaration. -/
theorem number?_injective [Pattern.Judge] (built : build shorthands document = .ok draft)
    {p q : List Key} {x : Int} (number : draft.node.number? p = some x)
    (number' : draft.node.number? q = some x) : p = q :=
  ((steady_grows.of_build built).numbered (numbered_root shorthands)).injective p q x number number'

end Document

end BidBook
