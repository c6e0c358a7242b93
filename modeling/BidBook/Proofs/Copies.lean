import BidBook.Proofs.Bindings
import BidBook.Proofs.Observation

/-! # Copies of a tree

A binding makes a copy of a tree: its tokens are bound, positions whose keys become the same are
merged, and a token that was an open suit gives its position shorthands. After that the copies of
all bindings are merged.

* `Descends` — the way to a position while its tree is bound.
* `Observation.at_bind` — what is seen in one copy.
* `Observation.at_expandWildcards` — what is seen after all copies are merged.
* `of_expandWildcards` — what holds after that because it holds of every copy.
* `throughout_expandWildcards` — a tidy tree stays tidy.
-/

namespace BidBook

namespace Node

/-! ## The way to a position -/

/-- The glossary of a position under a binding, before anything is merged into it. -/
def boundGlossary (b : Binding) (above : List Glossary) (token : Option Token) (n : Node) : Glossary :=
  inject above n.content.glossary (injected b token)

/-- The way down from a position while its tree is bound: the glossaries above the position, its
token, and itself; the tokens on the way; and then the same for the position at the end. -/
inductive Descends (b : Binding) :
    List Glossary → Option Token → Node → List Token → List Glossary → Option Token → Node → Prop where
  | here (above : List Glossary) (token : Option Token) (n : Node) :
      Descends b above token n [] above token n
  | onward {above above' : List Glossary} {token token' : Option Token} {n c m : Node} {t : Token}
      {path : List Token} (child : (t, c) ∈ n.children)
      (later : Descends b (boundGlossary b above token n :: above) (some t) c path above' token' m) :
      Descends b above token n (t :: path) above' token' m

variable {b : Binding} {above : List Glossary} {token : Option Token} {n : Node}

theorem bindSteps_eq_map (ss : List Node) : bindSteps b ss = ss.map fun s => s.bind b [] none := by
  induction ss with
  | nil => rfl
  | cons s rest ih => simp [bindSteps, ih]

def boundChildren (b : Binding) (above : List Glossary) (cs : List (Token × Node)) :
    List (Token × Node) :=
  cs.map fun e => (bindToken b e.1, e.2.bind b above (some e.1))

theorem bindChildren_eq_foldl (cs done : List (Token × Node)) :
    bindChildren b above cs done = (boundChildren b above cs).foldl placeCandidate done := by
  induction cs generalizing done with
  | nil => rfl
  | cons e rest ih =>
    rw [bindChildren, ih]
    rfl

theorem bind_eq_mk : n.bind b above token =
    mk { n.content.forget with glossary := boundGlossary b above token n }
      (n.steps.map fun s => s.bind b [] none)
      ((boundChildren b (boundGlossary b above token n :: above) n.children).foldl placeCandidate []) := by
  cases n
  simp [bind, bindChildren_eq_foldl, boundGlossary, bindSteps_eq_map]

theorem content_bind : (n.bind b above token).content =
    { n.content.forget with glossary := boundGlossary b above token n } := by
  rw [bind_eq_mk, content_mk]

theorem steps_bind : (n.bind b above token).steps = n.steps.map fun s => s.bind b [] none := by
  rw [bind_eq_mk, steps_mk]

theorem children_bind : (n.bind b above token).children =
    (boundChildren b (boundGlossary b above token n :: above) n.children).foldl placeCandidate [] := by
  rw [bind_eq_mk, children_mk]

theorem mem_boundChildren {cs : List (Token × Node)} {u : Token} {m : Node} :
    (u, m) ∈ boundChildren b above cs ↔
      ∃ t c, (t, c) ∈ cs ∧ u = bindToken b t ∧ m = c.bind b above (some t) := by
  simp only [boundChildren, List.mem_map, Prod.mk.injEq, Prod.exists]
  constructor
  · rintro ⟨t, c, member, rfl, rfl⟩
    exact ⟨t, c, member, rfl, rfl⟩
  · rintro ⟨t, c, member, rfl, rfl⟩
    exact ⟨t, c, member, rfl, rfl⟩

/-- A tidy tree is bound into a tidy one. -/
theorem throughout_bind {K L : Token → Prop} (tokens : ∀ t, K t → L (bindToken b t))
    (tidy : Throughout (Tidy K) n) : Throughout (Tidy L) (n.bind b above token) := by
  induction tidy generalizing above token with
  | @mk n here _ _ steps below =>
    rw [bind_eq_mk]
    refine Throughout.foldl_placeCandidate rfl ?_ ?_ ?_
    · rw [List.forall_mem_map]
      exact fun s member => steps s member
    · rintro ⟨u, m⟩ member
      obtain ⟨t, c, child, rfl, _⟩ := mem_boundChildren.1 member
      exact tokens t (here.tokens (t, c) child)
    · rintro ⟨u, m⟩ member
      obtain ⟨t, c, child, _, rfl⟩ := mem_boundChildren.1 member
      exact below (t, c) child

end Node

namespace Observation

open Node

variable {β : Type} (o : Observation β)

/-! ## What is seen in one copy -/

/-- In a copy a position shows what prevails among all positions whose ways are bound to its own. -/
theorem at_bind {K : Token → Prop} {b : Binding} {above : List Glossary} {token : Option Token}
    {n : Node} (tidy : Throughout (Tidy K) n) (p : List Key) :
    Prevails o.rank (fun x => ∃ path above' token' m, Descends b above token n path above' token' m ∧
        path.map (fun t => (bindToken b t).key) = p ∧ o.see none (m.bind b above' token') = some x)
      (o.at none (n.bind b above token) p) := by
  -- the induction is on the path, and a step down is one token that is bound to its key
  induction p generalizing n above token with
  | nil =>
    rw [at_nil]
    refine (Prevails.single _).congr fun x => ⟨?_, ?_⟩
    · exact fun seen => ⟨[], above, token, n, .here _ _ _, rfl, seen⟩
    · rintro ⟨path, above', token', m, way, bound, seen⟩
      cases way with
      | here => exact seen
      | onward child later => cases bound
  | cons k p ih =>
    rw [at_cons, children_bind]
    have formed : ∀ e ∈ boundChildren b (boundGlossary b above token n :: above) n.children,
        e.2.WellFormed := by
      rintro ⟨u, m⟩ member
      obtain ⟨t, c, child, _, rfl⟩ := mem_boundChildren.1 member
      exact (throughout_bind (L := fun _ => True) (fun _ _ => trivial)
        (tidy.children (t, c) child)).wellFormed
    -- each child offers what prevails in its own copy
    have composed := Prevails.compose
      (fun e : Token × Node => e ∈ n.children ∧ (bindToken b e.1).key = k)
      (fun e => o.at none (e.2.bind b (boundGlossary b above token n :: above) (some e.1)) p)
      (fun e member => ih (tidy.children e member.1))
      ((o.at_foldl_placeCandidate formed k none p).congr fun x => ?_)
    · refine composed.congr fun x => ⟨?_, ?_⟩
      · rintro ⟨⟨t, c⟩, ⟨child, rfl⟩, path, above', token', m, way, rfl, seen⟩
        exact ⟨t :: path, above', token', m, .onward child way, rfl, seen⟩
      · rintro ⟨path, above', token', m, way, bound, seen⟩
        cases way with
        | here => cases bound
        | @onward _ _ _ _ _ c _ t path child later =>
          rw [List.map_cons, List.cons.injEq] at bound
          exact ⟨(t, c), ⟨child, bound.1⟩, path, above', token', m, later, bound.2, seen⟩
    · constructor
      · rintro ⟨⟨u, m⟩, member, key, seen⟩
        obtain ⟨t, c, child, rfl, rfl⟩ := mem_boundChildren.1 member
        exact ⟨(t, c), ⟨child, key⟩, seen⟩
      · rintro ⟨⟨t, c⟩, ⟨child, key⟩, seen⟩
        exact ⟨_, mem_boundChildren.2 ⟨t, c, child, rfl, rfl⟩, key, seen⟩

/-! ## What is seen after all copies are merged -/

theorem at_foldl_mergeInto {sources : List Node} (formed : ∀ s ∈ sources, s.WellFormed) (target : Node)
    (mark : Option Token) (p : List Key) :
    Prevails o.rank
      (fun x => o.at mark target p = some x ∨ ∃ s ∈ sources, o.at mark s p = some x)
      (o.at mark (sources.foldl (fun target s => mergeInto s target) target) p) := by
  induction sources generalizing target with
  | nil => exact (Prevails.single _).congr fun x => by simp
  | cons s rest ih =>
    rw [List.forall_mem_cons] at formed
    have later := ih formed.2 (mergeInto s target)
    refine (Prevails.substitute (o.at_mergeInto formed.1 mark p) later).congr fun x => ?_
    rw [List.exists_mem_cons_iff, or_assoc]

end Observation

namespace Node

variable {settings : ExpansionSettings} {n : Node}

theorem expandWildcards_of_mentions {w : Wildcard} (mentioned : n.mentions none w = true)
    (accepted : settings.Accepted) :
    (n.expandWildcards settings [] none).1 =
      ((Binding.enumerate settings (n.mentions none)).map fun b => n.bind b [] none).foldl
        (fun target s => mergeInto s target) (mk n.content [] []) := by
  have occurs : Wildcard.all.any (n.mentions none) = true :=
    List.any_eq_true.2 ⟨w, Wildcard.mem_all w, mentioned⟩
  obtain ⟨b, member⟩ := Binding.enumerate_ne_nil accepted (n.mentions none)
  unfold expandWildcards wildcardAlternatives
  rw [if_pos occurs]
  cases all : Binding.enumerate settings (n.mentions none) with
  | nil => simp [all] at member
  | cons b rest => simp [List.foldl_map]

theorem expandWildcards_of_not_mentions (plain : ∀ w, n.mentions none w = false) :
    (n.expandWildcards settings [] none).1 = n := by
  have nowhere : Wildcard.all.any (n.mentions none) = false := by simp [plain]
  simp [expandWildcards, wildcardAlternatives, nowhere]

/-- What holds of the beginning of a tree and of all its copies, or else of the tree itself, and is kept by
merging, holds after the copies are merged. -/
theorem of_expandWildcards {P : Node → Prop} (accepted : settings.Accepted)
    (into : ∀ source target, P source → P target → P (mergeInto source target))
    (start : P (mk n.content [] []))
    (copies : ∀ w, n.mentions none w = true →
      ∀ b ∈ Binding.enumerate settings (n.mentions none), P (n.bind b [] none))
    (same : (∀ w, n.mentions none w = false) → P n) : P (n.expandWildcards settings [] none).1 := by
  by_cases mentioned : ∃ w, n.mentions none w = true
  · obtain ⟨w, mentioned⟩ := mentioned
    have copies := copies w mentioned
    rw [expandWildcards_of_mentions mentioned accepted, List.foldl_map]
    generalize mk n.content [] [] = target at start
    generalize Binding.enumerate settings (n.mentions none) = bindings at copies
    induction bindings generalizing target with
    | nil => exact start
    | cons b rest ih =>
      rw [List.forall_mem_cons] at copies
      exact ih _ (into _ _ copies.1 start) copies.2
  · have plain : ∀ w, n.mentions none w = false := fun w => by
      simpa using fun h => mentioned ⟨w, h⟩
    rw [expandWildcards_of_not_mentions plain]
    exact same plain

theorem throughout_expandWildcards {K L : Token → Prop} (accepted : settings.Accepted)
    (tokens : ∀ b ∈ Binding.enumerate settings (n.mentions none), ∀ t, K t → L (bindToken b t))
    (kept : (∀ w, n.mentions none w = false) → ∀ t, K t → L t) (tidy : Throughout (Tidy K) n) :
    Throughout (Tidy L) (n.expandWildcards settings [] none).1 := by
  apply of_expandWildcards accepted
  · exact fun _ _ source target => source.mergeInto target
  · exact throughout_tidy_leaf tidy.here.fresh
  · exact fun _ _ b member => throughout_bind (tokens b member) tidy
  · exact fun plain => tidy.imp fun _ tidy => tidy.imp (kept plain)

/-! ## Ways and paths -/

variable {K : Token → Prop} {b : Binding} {above above' : List Glossary} {token token' : Option Token}
  {m : Node} {path : List Token}

theorem Descends.at? (tidy : Throughout (Tidy K) n)
    (way : Descends b above token n path above' token' m) :
    n.at? (path.map Token.key) = some m ∧ ∀ t ∈ path, K t := by
  induction way with
  | here => simp
  | @onward _ _ _ _ n c _ t path child _ ih =>
    obtain ⟨found, tokens⟩ := ih (tidy.children (t, c) child)
    refine ⟨?_, List.forall_mem_cons.2 ⟨tidy.here.tokens (t, c) child, tokens⟩⟩
    rw [List.map_cons, at?_cons, find?_of_mem tidy.here.distinct child, Option.bind_some, found]

theorem exists_descends (b : Binding) (above : List Glossary) (token : Option Token) {q : List Key}
    (found : n.at? q = some m) :
    ∃ path above' token', Descends b above token n path above' token' m ∧ path.map Token.key = q := by
  induction q generalizing n above token with
  | nil =>
    rw [at?_nil, Option.some.injEq] at found
    subst found
    exact ⟨[], above, token, .here _ _ _, rfl⟩
  | cons k q ih =>
    rw [at?_cons, Option.bind_eq_some_iff] at found
    obtain ⟨c, child, found⟩ := found
    obtain ⟨t, member, rfl⟩ := mem_of_find? child
    obtain ⟨path, above', token', way, keys⟩ := ih (boundGlossary b above token n :: above) (some t) found
    exact ⟨t :: path, above', token', .onward member way, by rw [List.map_cons, keys]⟩

theorem map_bound_key (b : Binding) {path : List Token} (written : ∀ t ∈ path, t.Written) :
    (path.map Token.key).map (Key.bound b) = path.map fun t => (bindToken b t).key := by
  rw [List.map_map]
  exact List.map_congr_left fun t member => bound_key b (written t member)

end Node

namespace Observation

open Node

variable {β : Type} (o : Observation β)

/-- What is seen of a copy at the positions that are bound to a path, if binding does not change it. -/
theorem at_bind_of_keeps (keeps : ∀ b above token n, o.see none (n.bind b above token) = o.see none n)
    {b : Binding} {n : Node} (tidy : Throughout (Tidy Token.Written) n) (p : List Key) :
    Prevails o.rank (fun x => ∃ q, q.map (Key.bound b) = p ∧ o.at none n q = some x)
      (o.at none (n.bind b [] none) p) := by
  refine (o.at_bind tidy p).congr fun x => ⟨?_, ?_⟩
  · rintro ⟨path, above', token', m, way, rfl, seen⟩
    obtain ⟨found, written⟩ := way.at? tidy
    exact ⟨path.map Token.key, map_bound_key b written, by
      rw [Observation.at, found, Option.bind_some, ← keeps b above' token', seen]⟩
  · rintro ⟨q, rfl, seen⟩
    obtain ⟨m, found, there⟩ := o.at_eq_some_iff.1 seen
    obtain ⟨path, above', token', way, rfl⟩ := exists_descends b [] none found
    exact ⟨path, above', token', m, way, (map_bound_key b (way.at? tidy).2).symm, by
      rw [keeps, there]⟩

/-- Where there are wildcards, what is seen prevails among the beginning of the tree and all its
copies. -/
theorem at_expandWildcards_of_mentions {settings : ExpansionSettings} (accepted : settings.Accepted)
    {n : Node} {w : Wildcard} (mentioned : n.mentions none w = true) {K : Token → Prop}
    (tidy : Throughout (Tidy K) n) (p : List Key) :
    Prevails o.rank
      (fun x => o.at none (Node.mk n.content [] []) p = some x ∨
        ∃ b ∈ Binding.enumerate settings (n.mentions none), o.at none (n.bind b [] none) p = some x)
      (o.at none (n.expandWildcards settings [] none).1 p) := by
  rw [expandWildcards_of_mentions mentioned accepted]
  have formed : ∀ s ∈ (Binding.enumerate settings (n.mentions none)).map fun b => n.bind b [] none,
      s.WellFormed := by
    rw [List.forall_mem_map]
    exact fun b _ => (throughout_bind (L := fun _ => True) (fun _ _ => trivial) tidy).wellFormed
  refine (o.at_foldl_mergeInto formed (Node.mk n.content [] []) none p).congr fun x => ?_
  simp only [List.mem_map, exists_exists_and_eq_and]

/-- In the tree with all copies merged, a position shows what prevails among all positions that some
binding takes to its own. -/
theorem at_expandWildcards
    (keeps : ∀ b above token n, o.see none (n.bind b above token) = o.see none n)
    {settings : ExpansionSettings} (accepted : settings.Accepted) {n : Node}
    (root : ∀ x, o.see none (Node.mk n.content [] []) = some x → o.see none n = some x)
    (tidy : Throughout (Tidy Token.Written) n) (p : List Key) :
    Prevails o.rank
      (fun x => ∃ b ∈ Binding.enumerate settings (n.mentions none), ∃ q,
        q.map (Key.bound b) = p ∧ o.at none n q = some x)
      (o.at none (n.expandWildcards settings [] none).1 p) := by
  obtain ⟨first, enumerated⟩ := Binding.enumerate_ne_nil accepted (n.mentions none)
  by_cases mentioned : ∃ w, n.mentions none w = true
  · obtain ⟨w, mentioned⟩ := mentioned
    refine Prevails.compose _ _ (fun b _ => o.at_bind_of_keeps keeps tidy p)
      ((o.at_expandWildcards_of_mentions accepted mentioned tidy p).congr fun x => ?_)
    refine ⟨?_, .inr⟩
    rintro (start | copies)
    · -- all that the tree shows before copies are merged into it is its own beginning
      cases p with
      | nil =>
        rw [at_nil] at start
        exact ⟨first, enumerated, by rw [at_nil, keeps, root x start]⟩
      | cons k p => simp [at_cons, find?] at start
    · exact copies
  · have plain : ∀ w, n.mentions none w = false := fun w => by
      simpa using fun h => mentioned ⟨w, h⟩
    rw [expandWildcards_of_not_mentions plain]
    -- there are no wildcards, and nothing changes
    have unbound : ∀ b q, (n.at? q).isSome → q.map (Key.bound b) = q := by
      intro b q present
      obtain ⟨m, found⟩ := Option.isSome_iff_exists.1 present
      obtain ⟨path, _, _, way, rfl⟩ := exists_descends b [] none found
      have within := (way.at? (tidy.within fun w here => mentions_none.2 here)).2
      rw [map_bound_key b fun t member => (within t member).1]
      refine List.map_congr_left fun t member => ?_
      rw [bindToken_of_none (within t member).1 fun w here => ?_]
      have mentioned : n.mentions none w = true := (within t member).2 w here
      rw [plain] at mentioned
      cases mentioned
    refine (Prevails.single _).congr fun x => ⟨fun seen => ⟨first, enumerated, p, ?_, seen⟩, ?_⟩
    · exact unbound first p (o.isSome_of_at seen)
    · rintro ⟨b, _, q, rfl, seen⟩
      rw [unbound b q (o.isSome_of_at seen), seen]

end Observation

end BidBook
