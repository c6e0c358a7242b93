import BidBook.Proofs.Relays

/-! # Relay steps of a single position

Where a single position of a declared tree carries relay steps, every position of its copies that
carries some carries the same ones, without choices and bound like the copy. After all copies are
merged, each of these positions has kept the relay steps of one of the copies.

* `relays` — the relay steps of a position.
* `bind_congr`, `bind_eq_self` — what of a binding matters to a tree.
* `Node.exists_kept` — which relay steps a position has in the end.
-/

namespace BidBook

open Node

namespace Node

variable {n m : Node} {K : Token → Prop}

/-! ## What of a binding matters -/

variable {b b' : Binding} {above : List Glossary} {token : Option Token}

/-- Bindings that agree on the kinds that occur in a tree make the same copy of it. -/
theorem bind_congr {occurs : Wildcard → Bool} (tidy : Throughout (Tidy (Token.Within occurs)) n)
    (agree : Binding.Agree (fun w => occurs w = true) b b') (given : injected b token = injected b' token) :
    n.bind b above token = n.bind b' above token := by
  -- what is given above is the same for both, so only the tokens below may tell them apart
  induction tidy generalizing above token with
  | @mk n here _ _ steps below =>
    have glossary : boundGlossary b above token n = boundGlossary b' above token n := by
      rw [boundGlossary, boundGlossary, given]
    rw [bind_eq_mk, bind_eq_mk, glossary]
    have children : boundChildren b (boundGlossary b' above token n :: above) n.children =
        boundChildren b' (boundGlossary b' above token n :: above) n.children := by
      refine List.map_congr_left fun e member => ?_
      obtain ⟨written, within⟩ := here.tokens e member
      have agree' : Binding.Agree (· ∈ Token.wildcardsIn e.1.raw) b b' := fun w here =>
        agree w (within w here)
      rw [bindToken_congr written agree', below e member (injected_congr agree')]
    have stepsSame : n.steps.map (fun s => s.bind b [] none) = n.steps.map fun s => s.bind b' [] none :=
      List.map_congr_left fun s member => steps s member rfl
    rw [children, stepsSame]

theorem foldl_placeCandidate_eq {cands done : List (Token × Node)}
    (distinct : ((done ++ cands).map fun e => e.1.key).Nodup) :
    cands.foldl placeCandidate done = done ++ cands := by
  induction cands generalizing done with
  | nil => simp
  | cons e rest ih =>
    -- no candidate finds another one under its key
    have absent : find? e.1.key done = none := by
      rw [find?_eq_none_iff]
      intro e' member same
      rw [List.map_append, List.nodup_append] at distinct
      exact distinct.2.2 _ (List.mem_map_of_mem member) _ (List.mem_map_of_mem List.mem_cons_self) same
    have placed : placeCandidate done e = done ++ [e] := by
      rw [placeCandidate, absent]
    rw [List.foldl_cons, placed, ih (by rwa [List.append_assoc]), List.append_assoc]
    rfl

theorem injected_eq_nil {t : Token} (within : t.Within fun _ => false) : injected b (some t) = [] := by
  have none : Token.kinds t.raw = [] := by
    rw [Token.kinds, List.filter_eq_nil_iff]
    intro w _ here
    have := within.2 w (by simpa using here)
    cases this
  simp [injected, none]

/-- A tree without wildcards is not changed by any binding. -/
theorem bind_eq_self (tidy : Throughout (Tidy (Token.Within fun _ => false)) n)
    (given : injected b token = []) : n.bind b above token = n := by
  induction tidy generalizing above token with
  | @mk n here _ _ steps below =>
    cases n with
    | mk c ss cs =>
      have content : c.forget = c := Content.forget_of_fresh here.fresh
      have glossary : boundGlossary b above token (mk c ss cs) = c.glossary := by
        rw [boundGlossary, given]
        rfl
      have children : boundChildren b (c.glossary :: above) cs = cs := by
        refine (List.map_congr_left fun e member => ?_).trans (List.map_id' cs)
        have within := here.tokens e member
        have kept : bindToken b e.1 = e.1 :=
          bindToken_of_none within.1 fun w occurs => absurd (within.2 w occurs) Bool.false_ne_true
        rw [kept, below e member (injected_eq_nil within)]
      have stepsSame : ss.map (fun s => s.bind b [] none) = ss :=
        (List.map_congr_left fun s member => steps s member rfl).trans (List.map_id' ss)
      -- no two children come under one key, so none are merged
      have placed : cs.foldl placeCandidate [] = cs := foldl_placeCandidate_eq here.distinct
      rw [bind_eq_mk, glossary]
      simp only [content_mk, steps_mk, children_mk]
      rw [content, children, stepsSame, placed]

end Node

/-! ## Relay steps of a position -/

def relays : Observation (List Node) where
  see _ n := if n.steps = [] then none else some (copySteps n.steps)
  rank _ := 0
  see_mergeInto _ source target := by
    rcases steps_mergeInto_cases source target with ⟨steps, nonempty⟩ | ⟨steps, silent⟩
    · have copied : copySteps source.steps ≠ [] := mt copySteps_eq_nil_iff.1 nonempty
      rw [steps, if_neg copied, copySteps_copySteps]
      exact ⟨.inr (if_neg nonempty), fun _ _ => Int.le_refl _⟩
    · rw [steps]
      by_cases empty : target.steps = []
      · simp [Prevails, empty, silent empty]
      · rw [if_neg empty]
        exact ⟨.inl rfl, fun _ _ => Int.le_refl _⟩
  see_mergeInto_ofToken _ source t := by
    have none : (ofToken t).steps = [] := rfl
    rcases steps_mergeInto_cases source (ofToken t) with ⟨steps, nonempty⟩ | ⟨steps, silent⟩
    · have copied : copySteps source.steps ≠ [] := mt copySteps_eq_nil_iff.1 nonempty
      rw [steps, if_neg copied, if_neg nonempty, copySteps_copySteps]
    · rw [steps, none, silent none]
  see_forgetAll _ n := by rw [steps_forgetAll]
  see_copy _ n := by simp only [steps_copy, copySteps_copySteps, copySteps_eq_nil_iff]
  see_copyUnder _ n := by simp only [steps_copyUnder, copySteps_copySteps, copySteps_eq_nil_iff]

namespace Node

variable {n m : Node} {K : Token → Prop} {ss : List Node} {p : List Key} {b : Binding}

theorem relays_at_eq_some_iff (tidy : Throughout (Tidy K) n) :
    relays.at none n p = some ss ↔ ∃ m, n.at? p = some m ∧ m.steps ≠ [] ∧ m.steps = ss := by
  rw [Observation.at_eq_some_iff]
  refine exists_congr fun m => and_congr_right fun found => ?_
  show (if m.steps = [] then none else some (copySteps m.steps)) = some ss ↔ _
  rw [copySteps_eq (tidy.of_at? found)]
  split <;> simp [*]

/-- No other relay steps than these hang in a tree. -/
def Carry (n : Node) (ss : List Node) : Prop := ∀ p m, n.at? p = some m → m.steps ≠ [] → m.steps = ss

theorem carry_iff (tidy : Throughout (Tidy K) n) :
    n.Carry ss ↔ ∀ p xs, relays.at none n p = some xs → xs = ss := by
  simp only [relays_at_eq_some_iff tidy]
  constructor
  · rintro only p xs ⟨m, found, nonempty, rfl⟩
    exact only p m found nonempty
  · exact fun only p m found nonempty => only p _ ⟨m, found, nonempty, rfl⟩

theorem relays_at_copyUnder (t : Token) (n : Node) (p : List Key) :
    relays.at none (n.copyUnder t) p = relays.at none n p := by
  cases p with
  | nil => exact relays.see_copyUnder t n
  | cons k p =>
    rw [← relays.at_copy none n, Observation.at_cons, Observation.at_cons, copyUnder, children_mapContent]

theorem flattenFuel_succ (fuel : Nat) (n : Node) : (flattenFuel (fuel + 1) n).1 =
    mk n.content (n.steps.map fun s => (flattenFuel fuel s).1)
      ((flattenLevel n.children).map fun e => (e.1, (flattenFuel fuel e.2).1)) := by
  rw [← content_flattenFuel (fuel + 1) n, ← steps_flattenFuel_succ, ← children_flattenFuel_succ]
  cases (flattenFuel (fuel + 1) n).1
  rfl

/-- More fuel than the height of a tree makes no difference. -/
theorem flattenFuel_congr {fuel fuel' : Nat} (bound : n.height ≤ fuel) (bound' : n.height ≤ fuel') :
    (flattenFuel fuel n).1 = (flattenFuel fuel' n).1 := by
  induction fuel generalizing n fuel' with
  | zero =>
    have := height_pos n
    omega
  | succ fuel ih =>
    obtain ⟨fuel', rfl⟩ : ∃ f, fuel' = f + 1 := ⟨fuel' - 1, by have := height_pos n; omega⟩
    rw [height_le_succ_iff] at bound bound'
    have steps : n.steps.map (fun s => (flattenFuel fuel s).1) =
        n.steps.map fun s => (flattenFuel fuel' s).1 :=
      List.map_congr_left fun s member => ih (bound.1 s member) (bound'.1 s member)
    have children : (flattenLevel n.children).map (fun e => (e.1, (flattenFuel fuel e.2).1)) =
        (flattenLevel n.children).map fun e => (e.1, (flattenFuel fuel' e.2).1) :=
      List.map_congr_left fun e member => by
        rw [ih (height_le_of_mem_flattenLevel bound.2 e member)
          (height_le_of_mem_flattenLevel bound'.2 e member)]
    rw [flattenFuel_succ, flattenFuel_succ, steps, children]

theorem Carry.of_mem (only : n.Carry ss) (tidy : Tidy K n) {e : Token × Node} (member : e ∈ n.children) :
    e.2.Carry ss := fun p m found =>
  only (e.1.key :: p) m (by rw [at?_cons, find?_of_mem tidy.distinct member, Option.bind_some, found])

theorem carry_of_mem_flattenLevel (tidy : Throughout (Tidy Token.Written) n) (only : n.Carry ss) :
    ∀ e ∈ flattenLevel n.children, e.2.Carry ss := by
  have offered : ∀ e ∈ n.children, ∀ q xs, relays.at none e.2 q = some xs → xs = ss :=
    fun e member => (carry_iff (tidy.children e member)).1 (only.of_mem tidy.here member)
  -- whatever is carried by a merge is carried by one of its parts
  have level : ∀ e ∈ flattenLevel n.children, Throughout (Tidy Token.Written) e.2 ∧
      ∀ q xs, relays.at none e.2 q = some xs → xs = ss := by
    refine forall_flattenLevel
      (P := fun _ m => Throughout (Tidy Token.Written) m ∧ ∀ q xs, relays.at none m q = some xs → xs = ss)
      (fun t c member _ u _ => ?_) (fun t c member _ => ?_) fun t c u d source target => ?_
    · refine ⟨(tidy.children (t, c) member).copyUnder u, fun q xs seen => ?_⟩
      exact offered (t, c) member q xs (relays_at_copyUnder u c q ▸ seen)
    · exact ⟨tidy.children (t, c) member, offered (t, c) member⟩
    · refine ⟨source.1.mergeInto target.1, fun q xs seen => ?_⟩
      have merged : Prevails relays.rank _ (relays.at none (mergeInto c d) q) :=
        relays.at_mergeInto source.1.wellFormed none q
      rw [seen] at merged
      rcases merged.1 with there | there
      · exact target.2 q xs there
      · exact source.2 q xs there
  exact fun e member => (carry_iff (level e member).1).2 (level e member).2

/-- Without choices, all positions that carry relay steps carry the same, without choices. -/
theorem carry_flattenFuel {fuel : Nat} (bound : n.height ≤ fuel)
    (tidy : Throughout (Tidy Token.Written) n) (only : n.Carry ss) :
    (flattenFuel fuel n).1.Carry (ss.map fun s => s.flatten.1) := by
  intro p m found nonempty
  -- all positions of a level without choices come from positions that carry nothing else
  induction p generalizing fuel n with
  | nil =>
    obtain ⟨fuel, rfl⟩ : ∃ f, fuel = f + 1 := ⟨fuel - 1, by have := height_pos n; omega⟩
    rw [height_le_succ_iff] at bound
    rw [at?_nil, Option.some.injEq] at found
    subst found
    rw [steps_flattenFuel_succ] at nonempty ⊢
    have same := only [] n (at?_nil n) fun empty => nonempty (by rw [empty]; rfl)
    rw [← same]
    exact List.map_congr_left fun s member => flattenFuel_congr (bound.1 s member) (Nat.le_refl _)
  | cons k p ih =>
    obtain ⟨fuel, rfl⟩ : ∃ f, fuel = f + 1 := ⟨fuel - 1, by have := height_pos n; omega⟩
    rw [height_le_succ_iff] at bound
    rw [at?_cons, children_flattenFuel_succ, find?_map k (fun c => (flattenFuel fuel c).1),
      Option.bind_eq_some_iff] at found
    obtain ⟨d, child, found⟩ := found
    obtain ⟨c, looked, rfl⟩ := Option.map_eq_some_iff.1 child
    obtain ⟨t, member, _⟩ := mem_of_find? looked
    exact ih (height_le_of_mem_flattenLevel bound.2 (t, c) member)
      (throughout_of_mem_flattenLevel tidy.children (t, c) member)
      (carry_of_mem_flattenLevel tidy only (t, c) member) found

theorem carry_bind (tidy : Throughout (Tidy K) n) (only : n.Carry ss) (b : Binding) :
    (n.bind b [] none).Carry (ss.map fun s => s.bind b [] none) := by
  have tidyCopy : Throughout (Tidy fun _ => True) (n.bind b [] none) :=
    throughout_bind (fun _ _ => trivial) tidy
  rw [carry_iff tidyCopy]
  intro p xs seen
  have prevails : Prevails relays.rank _ (relays.at none (n.bind b [] none) p) := relays.at_bind tidy p
  rw [seen] at prevails
  obtain ⟨⟨path, above, token, m, way, _, there⟩, _⟩ := prevails
  have tidyBound : Throughout (Tidy fun _ => True) (m.bind b above token) :=
    throughout_bind (fun _ _ => trivial) (tidy.of_at? (way.at? tidy).1)
  obtain ⟨m', here, nonempty, rfl⟩ := (relays_at_eq_some_iff tidyBound).1
    (by rw [Observation.at_nil, there])
  rw [at?_nil, Option.some.injEq] at here
  subst here
  rw [steps_bind] at nonempty ⊢
  rw [only _ m (way.at? tidy).1 fun empty => nonempty (by rw [empty]; rfl)]

end Node

/-! ## All copies -/

namespace Observation

variable {β : Type} (o : Observation β)

/-- After all copies are merged, a position shows what prevails among the copies for all kinds of
wildcards that are written in the declared tree. -/
theorem at_copies {settings : ExpansionSettings} (accepted : settings.Accepted) {n : Node}
    (declared : Throughout Declared n)
    (root : ∀ b x, o.see none (Node.mk n.flatten.1.content [] []) = some x →
      o.see none (n.flatten.1.bind b [] none) = some x) (p : List Key) :
    Prevails o.rank
      (fun x => ∃ b ∈ Binding.enumerate settings (n.mentions none),
        o.at none (n.flatten.1.bind b [] none) p = some x)
      (o.at none (n.flatten.1.expandWildcards settings [] none).1 p) := by
  have tidy := tidy_flatten_of_declared declared
  have fewer : ∀ w, n.flatten.1.mentions none w = true → n.mentions none w = true :=
    fun w => mentions_of_mentions_flatten declared
  have same : ∀ {b b'}, Binding.Agree (fun w => n.flatten.1.mentions none w = true) b b' →
      n.flatten.1.bind b [] none = n.flatten.1.bind b' [] none := fun agree =>
    bind_congr (tidy.within fun _ => mentions_none.2) agree rfl
  obtain ⟨first, enumerated⟩ := Binding.enumerate_ne_nil accepted (n.mentions none)
  -- without wildcards there is one copy, and it is the tree itself
  by_cases mentioned : ∃ w, n.flatten.1.mentions none w = true
  · obtain ⟨w, mentioned⟩ := mentioned
    refine (o.at_expandWildcards_of_mentions accepted mentioned tidy p).congr fun x => ⟨?_, ?_⟩
    · rintro (start | ⟨b, member, seen⟩)
      · cases p with
        | nil =>
          rw [at_nil] at start
          exact ⟨first, enumerated, by rw [at_nil, root first x start]⟩
        | cons k p => simp [at_cons, find?] at start
      · obtain ⟨b', member', agree⟩ := Binding.exists_agree_many accepted fewer member
        exact ⟨b', member', same agree ▸ seen⟩
    · rintro ⟨b, member, seen⟩
      obtain ⟨b', member', agree⟩ := Binding.exists_agree_few fewer member
      exact .inr ⟨b', member', same agree ▸ seen⟩
  · have plain : ∀ w, n.flatten.1.mentions none w = false := fun w => by
      simpa using fun h => mentioned ⟨w, h⟩
    have unbound : ∀ b, n.flatten.1.bind b [] none = n.flatten.1 := fun b =>
      bind_eq_self (tidy.within fun w here => by rw [← plain w, mentions_none.2 here]) rfl
    rw [expandWildcards_of_not_mentions plain]
    refine (Prevails.single _).congr fun x => ⟨fun seen => ?_, ?_⟩
    · exact ⟨first, enumerated, (unbound first).symm ▸ seen⟩
    · rintro ⟨b, _, seen⟩
      exact unbound b ▸ seen

end Observation

namespace Node

variable {settings : ExpansionSettings} {n m : Node} {ss : List Node} {p : List Key} {b : Binding}

theorem isSome_at?_of_copy (accepted : settings.Accepted) (declared : Throughout Declared n)
    (member : b ∈ Binding.enumerate settings (n.mentions none))
    (present : ((n.flatten.1.bind b [] none).at? p).isSome) :
    ((n.flatten.1.expandWildcards settings [] none).1.at? p).isSome := by
  have all := (presence.at_copies accepted declared (fun _ _ seen => seen) p).isSome_iff
  rw [presence_at, Option.isSome_map] at all
  refine all.2 ⟨(), b, member, ?_⟩
  rw [presence_at]
  cases found : (n.flatten.1.bind b [] none).at? p with
  | none => rw [found] at present; cases present
  | some m => rfl

theorem carries_of_copy (accepted : settings.Accepted) (declared : Throughout Declared n)
    (member : b ∈ Binding.enumerate settings (n.mentions none))
    (carried : (n.flatten.1.bind b [] none).Carries p) :
    (n.flatten.1.expandWildcards settings [] none).1.Carries p := by
  have all := carries.at_copies accepted declared (fun _ _ seen => by cases seen) p
  rw [← carries_at_eq_some_iff none, all.eq_some_iff]
  exact ⟨b, member, (carries_at_eq_some_iff none).2 carried⟩

/-- In the end a position carries the relay steps of one of the copies in which it carries some. -/
theorem exists_kept (accepted : settings.Accepted) (declared : Throughout Declared n)
    (only : n.flatten.1.Carry ss)
    (found : (n.flatten.1.expandWildcards settings [] none).1.at? p = some m) (nonempty : m.steps ≠ []) :
    ∃ b ∈ Binding.enumerate settings (n.mentions none), (n.flatten.1.bind b [] none).Carries p ∧
      m.steps = ss.map fun s => s.bind b [] none := by
  have tidy := throughout_flatten_of_declared declared
  have seen : relays.at none (n.flatten.1.expandWildcards settings [] none).1 p = some m.steps :=
    (relays_at_eq_some_iff (throughout_expanded accepted declared)).2 ⟨m, found, nonempty, rfl⟩
  have all := relays.at_copies accepted declared (fun _ _ seen => by cases seen) p
  rw [seen] at all
  obtain ⟨b, member, there⟩ := all.1
  obtain ⟨m', found', nonempty', same⟩ := (relays_at_eq_some_iff (throughout_copy declared b)).1 there
  exact ⟨b, member, ⟨m', found', nonempty'⟩, same ▸ carry_bind tidy only b p m' found' nonempty'⟩

end Node

end BidBook
