import BidBook.Proofs.Precedence
import BidBook.Proofs.Templates

/-! # Relay steps of several trees

Which relay steps stay at a path where any number of trees are merged into an empty one. A merge compares
the priority of the source with the one that the target has at that moment, and this is the priority of
what is said there: relay steps do not bring their own. So where nothing is said, relay steps of low
priority replace others of high priority, and which of them stay depends on what is said beside them and
on the order of the sources.

* `standing` — the priority against which the next source is measured.
* `Retained` — the source whose relay steps stay.
* `retained_mergeAll` — its relay steps are those of the merge; and where the source of the highest
  priority says something itself, it is that one.
* `not_relaysAt?_of_highest` — a source of the highest priority may lose its relay steps to another.
-/

namespace BidBook

/-- The priority is that of what is said; where nothing is said there is none. -/
def Content.Measured (c : Content) : Prop := c.isDescribed = false → c.priority = 0

namespace Node

variable {source target s t : Node} {sources before others : List Node} {path : List Key}

/-- An empty system, or a new position. -/
structure Fresh (n : Node) : Prop where
  content : n.content.isDescribed = false
  priority : n.content.priority = 0
  steps : n.steps = []
  children : n.children = []

theorem fresh_root (shorthands : List Shorthand) : (root shorthands).Fresh := ⟨rfl, rfl, rfl, rfl⟩

theorem Fresh.of_at? {m : Node} (fresh : t.Fresh) (found : t.at? path = some m) : m = t := by
  cases path with
  | nil => simpa using found.symm
  | cons k path => simp [fresh.children, find?] at found

/-! ## What a source offers -/

def relaysAt? (n : Node) (path : List Key) : Option (List Node) := relays.at none n path

/-- The priority at the end of a path; a missing position has none. -/
def priorityAt (n : Node) (path : List Key) : Int := ((n.at? path).map (·.content.priority)).getD 0

theorem relaysAt?_eq_none_iff : s.relaysAt? path = none ↔ ¬ s.Carries path := by
  rw [relaysAt?, Observation.at, Carries]
  cases s.at? path with
  | none => simp
  | some m =>
    show (if m.steps = [] then none else some (copySteps m.steps)) = none ↔ _
    simp

theorem carries_of_relaysAt? {ss : List Node} (brings : s.relaysAt? path = some ss) : s.Carries path :=
  Classical.byContradiction fun silent => by
    rw [relaysAt?_eq_none_iff.2 silent] at brings
    cases brings

theorem exists_relaysAt? (carried : s.Carries path) : ∃ ss, s.relaysAt? path = some ss :=
  Option.ne_none_iff_exists'.1 fun none => relaysAt?_eq_none_iff.1 none carried

/-! ## One merge -/

/-- The relay steps after one merge, given those that were there and those that come with the source. -/
def takeOver (outranks : Bool) : Option (List Node) → Option (List Node) → Option (List Node)
  | none, new => new
  | some old, none => some old
  | some old, some new => if outranks then some new else some old

theorem relays_see_mergeInto (source target : Node) : relays.see none (mergeInto source target) =
    takeOver (decide (target.content.priority < source.content.priority)) (relays.see none target)
      (relays.see none source) := by
  show (if (mergeInto source target).steps = [] then none
      else some (copySteps (mergeInto source target).steps)) =
    takeOver _ (if target.steps = [] then none else some (copySteps target.steps))
      (if source.steps = [] then none else some (copySteps source.steps))
  rw [steps_mergeInto, mergeSteps]
  by_cases brings : source.steps = []
  · simp [brings]
    split <;> rfl
  · by_cases holds : target.steps = []
    · simp [brings, holds, takeOver, copySteps_eq_nil_iff, copySteps_copySteps]
    · by_cases outranks : target.content.priority < source.content.priority <;>
        simp [brings, holds, outranks, takeOver, copySteps_eq_nil_iff, copySteps_copySteps]

theorem priority_forgetWhen (stale : Bool) (n : Node) :
    (n.forgetWhen stale).content.priority = n.content.priority := by
  cases stale with
  | false => rfl
  | true => rw [forgetWhen, content_forgetAll]; rfl

/-- One merge, at every path. -/
theorem relaysAt?_mergeInto (formed : source.WellFormed) (target : Node) (path : List Key) :
    (mergeInto source target).relaysAt? path =
      takeOver (decide (target.priorityAt path < source.priorityAt path)) (target.relaysAt? path)
        (source.relaysAt? path) := by
  obtain ⟨stale, u, merged⟩ := exists_at?_mergeInto formed target path
  rw [relaysAt?, relaysAt?, relaysAt?, Observation.at, Observation.at, Observation.at, priorityAt,
    priorityAt, merged]
  cases source.at? path with
  | none =>
    cases target.at? path with
    | none => rfl
    | some t =>
      have same := relays.see_forgetWhen none stale t
      simp only [Option.map_some, Option.bind_some, Option.bind_none, same]
      cases relays.see none t <;> rfl
  | some s =>
    cases target.at? path with
    | none => exact relays.see_mergeInto_ofToken none s u
    | some t =>
      have met := relays_see_mergeInto s (t.forgetWhen stale)
      rwa [relays.see_forgetWhen, priority_forgetWhen] at met

theorem measured_mergeContent {source target : Content} (measured : target.Measured) :
    (mergeContent source target).Measured := by
  rw [mergeContent_eq]
  by_cases replaces : source.Replaces target
  · -- what replaces a description is one itself
    rw [Content.prevailing_of_replaces replaces]
    intro silent
    exact absurd (replaces.1.symm.trans silent) Bool.true_eq_false.mp
  · rw [Content.prevailing_of_not_replaces replaces]
    exact measured

/-- A merge takes over the priority only together with what is said. -/
theorem measured_mergeInto (source : Node) (measured : target.content.Measured) :
    (mergeInto source target).content.Measured := by
  have kept : (mergeContent source.content target.content).Measured := measured_mergeContent measured
  rw [content_mergeInto]
  split
  · exact kept
  · exact kept

/-- Whatever is at the end of the path, its priority is that of what is said. -/
def MeasuredAt (n : Node) (path : List Key) : Prop := ∀ m, n.at? path = some m → m.content.Measured

theorem Fresh.measuredAt (fresh : t.Fresh) (path : List Key) : t.MeasuredAt path := by
  intro m found _
  rw [fresh.of_at? found]
  exact fresh.priority

theorem MeasuredAt.mergeInto (formed : source.WellFormed) (measured : target.MeasuredAt path) :
    (mergeInto source target).MeasuredAt path := by
  obtain ⟨stale, u, merged⟩ := exists_at?_mergeInto formed target path
  have forgotten : ∀ t, target.at? path = some t → (t.forgetWhen stale).content.Measured := by
    intro t found
    cases stale with
    | false => exact measured t found
    | true => rw [forgetWhen, content_forgetAll]; exact measured t found
  intro m found
  rw [merged] at found
  cases known : source.at? path with
  | none =>
    simp only [known, Option.map_eq_some_iff] at found
    obtain ⟨t, there, rfl⟩ := found
    exact forgotten t there
  | some s =>
    simp only [known, Option.some.injEq] at found
    subst found
    refine measured_mergeInto s ?_
    cases there : target.at? path with
    | none => exact fun _ => rfl
    | some t => exact forgotten t there

theorem MeasuredAt.priorityAt_eq (measured : s.MeasuredAt path) :
    s.priorityAt path = ((s.remarkAt? path).map Remark.priority).getD 0 := by
  rw [priorityAt, remarkAt?]
  cases found : s.at? path with
  | none => rfl
  | some m =>
    cases said : m.content.remark? with
    | none => simpa [said] using measured m found (Content.remark?_eq_none_iff.1 said)
    | some r => simpa [said] using (Content.remark?_eq_some_iff.1 said).2.2.1

/-! ## Merges in a row -/

/-- The highest priority of all that is said at a path; zero if nothing is. -/
def standing (sources : List Node) (path : List Key) : Int :=
  (((sources.map (·.remarkAt? path)).foldl supersede none).map Remark.priority).getD 0

/-- The relay steps of `s` stay: either they are the first, or `s` outranks what was said before, and no
source that brings others outranks what was said before that one. -/
def Retained (sources : List Node) (path : List Key) (s : Node) : Prop :=
  ∃ before after, sources = before ++ s :: after ∧ s.Carries path ∧
    ((∃ n ∈ before, n.Carries path) → standing before path < s.priorityAt path) ∧
    ∀ early t late, after = early ++ t :: late → t.Carries path →
      t.priorityAt path ≤ standing (before ++ s :: early) path

theorem Retained.carries (retained : Retained sources path s) : s.Carries path := by
  obtain ⟨_, _, _, carried, _⟩ := retained
  exact carried

theorem mergeAll_append_singleton (target : Node) (sources : List Node) (s : Node) :
    target.mergeAll (sources ++ [s]) = mergeInto s (target.mergeAll sources) := by
  rw [mergeAll, List.foldl_append]
  rfl

theorem Fresh.measuredAt_mergeAll (fresh : target.Fresh) (formed : ∀ n ∈ sources, n.WellFormed)
    (path : List Key) : (target.mergeAll sources).MeasuredAt path := by
  induction sources using List.reverseRecOn with
  | nil => exact fresh.measuredAt path
  | append_singleton sources s ih =>
    rw [List.forall_mem_append, List.forall_mem_singleton] at formed
    rw [mergeAll_append_singleton]
    exact (ih formed.1).mergeInto formed.2

theorem Fresh.remarkAt?_eq_none (fresh : t.Fresh) (path : List Key) : t.remarkAt? path = none := by
  rw [remarkAt?, Option.bind_eq_none_iff]
  intro m found
  rw [fresh.of_at? found, Content.remark?_eq_none_iff]
  exact fresh.content

theorem Fresh.relaysAt?_eq_none (fresh : t.Fresh) (path : List Key) : t.relaysAt? path = none := by
  rw [relaysAt?_eq_none_iff]
  rintro ⟨m, found, nonempty⟩
  exact nonempty (fresh.of_at? found ▸ fresh.steps)

/-- The next source is measured against what is said so far. -/
theorem Fresh.priorityAt_mergeAll (fresh : target.Fresh) (formed : ∀ n ∈ sources, n.WellFormed)
    (path : List Key) : (target.mergeAll sources).priorityAt path = standing sources path := by
  rw [(fresh.measuredAt_mergeAll formed path).priorityAt_eq, remarkAt?_mergeAll formed, List.map_cons,
    List.foldl_cons, fresh.remarkAt?_eq_none]
  rfl

theorem Fresh.carries_mergeAll_iff (fresh : target.Fresh) (formed : ∀ n ∈ sources, n.WellFormed) :
    (target.mergeAll sources).Carries path ↔ ∃ n ∈ sources, n.Carries path := by
  induction sources using List.reverseRecOn with
  | nil => exact iff_of_false (relaysAt?_eq_none_iff.1 (fresh.relaysAt?_eq_none path)) (by simp)
  | append_singleton sources s ih =>
    rw [List.forall_mem_append, List.forall_mem_singleton] at formed
    have step : (mergeInto s (target.mergeAll sources)).Carries path ↔
        s.Carries path ∨ (target.mergeAll sources).Carries path := by
      rw [← not_iff_not, not_or]
      simp only [← relaysAt?_eq_none_iff, relaysAt?_mergeInto formed.2]
      cases (target.mergeAll sources).relaysAt? path <;> cases s.relaysAt? path <;>
        simp [takeOver]
      split <;> simp
    rw [mergeAll_append_singleton, step, ih formed.1]
    simp [or_comm]

theorem retained_append_iff : Retained (sources ++ [t]) path s ↔
    (Retained sources path s ∧ (t.Carries path → t.priorityAt path ≤ standing sources path)) ∨
      (s = t ∧ t.Carries path ∧
        ((∃ n ∈ sources, n.Carries path) → standing sources path < t.priorityAt path)) := by
  constructor
  · rintro ⟨before, after, split, carried, first, last⟩
    rcases List.eq_nil_or_concat' after with rfl | ⟨after, u, rfl⟩
    · obtain ⟨rfl, same⟩ := List.append_inj' split rfl
      obtain rfl := List.singleton_inj.1 same
      exact .inr ⟨rfl, carried, first⟩
    · rw [← List.cons_append, ← List.append_assoc] at split
      obtain ⟨rfl, same⟩ := List.append_inj' split rfl
      obtain rfl := List.singleton_inj.1 same
      refine .inl ⟨⟨before, after, rfl, carried, first, fun early u late split => ?_⟩, ?_⟩
      · exact last early u (late ++ [t]) (by simp [split])
      · exact last after t [] rfl
  · rintro (⟨⟨before, after, rfl, carried, first, last⟩, atMost⟩ | ⟨rfl, carried, first⟩)
    · refine ⟨before, after ++ [t], by simp, carried, first, fun early u late split => ?_⟩
      rcases List.eq_nil_or_concat' late with rfl | ⟨late, v, rfl⟩
      · obtain ⟨rfl, same⟩ := List.append_inj' split rfl
        obtain rfl := List.singleton_inj.1 same
        exact atMost
      · rw [← List.cons_append, ← List.append_assoc] at split
        exact last early u late (List.append_inj' split rfl).1
    · exact ⟨sources, [], rfl, carried, first, fun early u late split => by simp at split⟩

theorem exists_retained (carried : ∃ n ∈ sources, n.Carries path) : ∃ s, Retained sources path s := by
  induction sources using List.reverseRecOn with
  | nil => simp at carried
  | append_singleton sources t ih =>
    simp only [retained_append_iff]
    by_cases takes : t.Carries path ∧
        ((∃ n ∈ sources, n.Carries path) → standing sources path < t.priorityAt path)
    · exact ⟨t, .inr ⟨rfl, takes⟩⟩
    · rw [not_and] at takes
      have earlier : ∃ n ∈ sources, n.Carries path := by
        obtain ⟨n, member, carries⟩ := carried
        rcases List.mem_append.1 member with inside | last
        · exact ⟨n, inside, carries⟩
        · rw [List.mem_singleton.1 last] at carries
          exact Classical.byContradiction fun silent => takes carries fun before => absurd before silent
      obtain ⟨s, retained⟩ := ih earlier
      refine ⟨s, .inl ⟨retained, fun carries => ?_⟩⟩
      exact Int.not_lt.1 fun outranks => takes carries fun _ => outranks

theorem Retained.relaysAt?_mergeAll (fresh : target.Fresh) (formed : ∀ n ∈ sources, n.WellFormed)
    (retained : Retained sources path s) :
    (target.mergeAll sources).relaysAt? path = s.relaysAt? path := by
  induction sources using List.reverseRecOn generalizing s with
  | nil => obtain ⟨before, after, split, _⟩ := retained; simp at split
  | append_singleton sources t ih =>
    rw [List.forall_mem_append, List.forall_mem_singleton] at formed
    rw [mergeAll_append_singleton, relaysAt?_mergeInto formed.2, fresh.priorityAt_mergeAll formed.1]
    rcases retained_append_iff.1 retained with ⟨kept, atMost⟩ | ⟨rfl, carried, outranks⟩
    · rw [ih formed.1 kept]
      obtain ⟨ss, brings⟩ := exists_relaysAt? kept.carries
      rw [brings]
      cases offered : t.relaysAt? path with
      | none => rfl
      | some ts =>
        have carries : t.Carries path := carries_of_relaysAt? offered
        simp [takeOver, Int.not_lt.2 (atMost carries)]
    · obtain ⟨ss, brings⟩ := exists_relaysAt? carried
      rw [brings]
      cases held : (target.mergeAll sources).relaysAt? path with
      | none => rfl
      | some ts =>
        have earlier := (fresh.carries_mergeAll_iff formed.1).1 (carries_of_relaysAt? held)
        simp [takeOver, outranks earlier]

/-! ## What is said beside relay steps -/

theorem priorityAt_of_remarkAt? {r : Remark} (said : s.remarkAt? path = some r) :
    s.priorityAt path = r.priority := by
  obtain ⟨m, found, said⟩ := Option.bind_eq_some_iff.1 said
  rw [priorityAt, found]
  exact (Content.remark?_eq_some_iff.1 said).2.2.1

theorem le_standing (member : s ∈ sources) (said : (s.remarkAt? path).isSome) :
    s.priorityAt path ≤ standing sources path := by
  obtain ⟨r, said⟩ := Option.isSome_iff_exists.1 said
  have listed : some r ∈ sources.map (·.remarkAt? path) := List.mem_map.2 ⟨s, member, said⟩
  rw [priorityAt_of_remarkAt? said, standing]
  cases kept : (sources.map (·.remarkAt? path)).foldl supersede none with
  | none => exact absurd listed (foldl_supersede_eq_none_iff.1 kept r)
  | some q => exact (foldl_supersede_eq_some_iff.1 kept).priority_le listed

/-- What stands was said by a source, unless nothing was said. -/
theorem standing_cases (sources : List Node) (path : List Key) :
    (standing sources path = 0 ∧ ∀ n ∈ sources, n.remarkAt? path = none) ∨
      ∃ n ∈ sources, (n.remarkAt? path).isSome ∧ n.priorityAt path = standing sources path := by
  rw [standing]
  cases kept : (sources.map (·.remarkAt? path)).foldl supersede none with
  | none =>
    refine .inl ⟨rfl, fun n member => Option.eq_none_iff_forall_ne_some.2 fun r said => ?_⟩
    exact foldl_supersede_eq_none_iff.1 kept r (List.mem_map.2 ⟨n, member, said⟩)
  | some q =>
    obtain ⟨n, member, said⟩ := List.mem_map.1 (foldl_supersede_eq_some_iff.1 kept).mem
    exact .inr ⟨n, member, by simp [said], priorityAt_of_remarkAt? said⟩

/-- A source that says something itself and outranks all others keeps its relay steps, wherever it
stands among them. -/
theorem retained_of_outranks (perm : sources.Perm (s :: others)) (carried : s.Carries path)
    (said : (s.remarkAt? path).isSome)
    (outranks : ∀ t ∈ others, t.Carries path ∨ (t.remarkAt? path).isSome →
      t.priorityAt path < s.priorityAt path)
    (measured : 0 < s.priorityAt path ∨ ∀ t ∈ others, t.Carries path → (t.remarkAt? path).isSome) :
    Retained sources path s := by
  obtain ⟨before, after, rfl⟩ := List.append_of_mem (perm.mem_iff.2 List.mem_cons_self)
  have others_iff : ∀ t, t ∈ before ∨ t ∈ after ↔ t ∈ others := fun t => by
    rw [← List.mem_append, (List.perm_middle.symm.trans perm).cons_inv.mem_iff]
  refine ⟨before, after, rfl, carried, ?_, ?_⟩
  · rintro ⟨t, member, carries⟩
    rcases standing_cases before path with ⟨zero, silent⟩ | ⟨n, there, spoken, priority⟩
    · -- where nothing was said a priority above zero is enough
      rcases measured with positive | spoken
      · rwa [zero]
      · have := spoken t ((others_iff t).1 (.inl member)) carries
        rw [silent t member] at this
        cases this
    · rw [← priority]
      exact outranks n ((others_iff n).1 (.inl there)) (.inr spoken)
  · rintro early t late rfl carries
    have member : t ∈ others := (others_iff t).1 (.inr (by simp))
    exact Int.le_of_lt (Int.lt_of_lt_of_le (outranks t member (.inl carries)) (le_standing (by simp) said))

/-- Sources are merged into an empty system or a new position. If some of them have relay steps at a
path, the ones that stay are those of the source that is `Retained` there, and there is one. In every
order this is the source of the highest priority, provided that it says something there itself, that
nothing is said there with a priority as high, and that its priority is positive or all others with relay
steps say something, too. -/
theorem retained_mergeAll (fresh : target.Fresh) (formed : ∀ n ∈ sources, n.WellFormed)
    (carried : ∃ n ∈ sources, n.Carries path) :
    (∃ s, Retained sources path s) ∧
    (∀ s, Retained sources path s → (target.mergeAll sources).relaysAt? path = s.relaysAt? path) ∧
    ∀ s others, sources.Perm (s :: others) → s.Carries path → (s.remarkAt? path).isSome →
      (∀ t ∈ others, t.Carries path ∨ (t.remarkAt? path).isSome →
        t.priorityAt path < s.priorityAt path) →
      (0 < s.priorityAt path ∨ ∀ t ∈ others, t.Carries path → (t.remarkAt? path).isSome) →
      (target.mergeAll sources).relaysAt? path = s.relaysAt? path := by
  refine ⟨exists_retained carried, fun s retained => retained.relaysAt?_mergeAll fresh formed, ?_⟩
  intro s others perm carries said outranks measured
  exact (retained_of_outranks perm carries said outranks measured).relaysAt?_mergeAll fresh formed

/-- A system in which a relay follows the cheapest bid. -/
def clubRelaying (relay : String) (description : Option String) (priority : Int) : Node :=
  mk {} [] [(.ofCall (.bid .lowest),
    mk { description, priority } [mk { description := some relay } [] []] [])]

theorem wellFormed_clubRelaying (relay : String) (description : Option String) (priority : Int) :
    (clubRelaying relay description priority).WellFormed := by
  simp [clubRelaying, WellFormed, WellFormedSteps, WellFormedChildren]

/-- What is said about the bid defends its relays against those of a lower priority. -/
theorem retained_mergeAll_clubs :
    (∃ s, Retained [clubRelaying "game" "strong" 3, clubRelaying "shape" none 1]
      [.call (.bid .lowest)] s) ∧
    ((root []).mergeAll [clubRelaying "game" "strong" 3, clubRelaying "shape" none 1]).relaysAt?
        [.call (.bid .lowest)] =
      (clubRelaying "game" "strong" 3).relaysAt? [.call (.bid .lowest)] := by
  have formed : ∀ n ∈ [clubRelaying "game" "strong" 3, clubRelaying "shape" none 1], n.WellFormed := by
    simp [wellFormed_clubRelaying]
  have carries : ∀ relay description priority,
      (clubRelaying relay description priority).Carries [.call (.bid .lowest)] :=
    fun relay description priority => ⟨_, rfl, by simp⟩
  obtain ⟨kept, _, law⟩ := retained_mergeAll (fresh_root []) formed
    ⟨_, List.mem_cons_self, carries "game" "strong" 3⟩
  refine ⟨kept, law _ _ (.refl _) (carries "game" "strong" 3) (by decide +kernel) ?_ (.inl (by decide))⟩
  rw [List.forall_mem_singleton]
  exact fun _ => by decide

/-- Relay steps of the highest priority may be lost: about neither bid is anything said, so that the
second source is measured against no priority at all. -/
theorem not_relaysAt?_of_highest : ¬ ∀ (sources : List Node) (path : List Key),
    (∀ n ∈ sources, n.WellFormed) →
    ((sources.filter fun n => n.Carries path).map (·.priorityAt path)).Nodup →
    ∀ s ∈ sources, s.Carries path → (∀ t ∈ sources, t.Carries path → t.priorityAt path ≤ s.priorityAt path) →
      ((root []).mergeAll sources).relaysAt? path = s.relaysAt? path := by
  intro law
  have same := law [clubRelaying "game" none 3, clubRelaying "shape" none 1] [.call (.bid .lowest)]
    (by simp [wellFormed_clubRelaying]) (by decide +kernel) _ List.mem_cons_self ⟨_, rfl, by simp⟩
    (by
      rw [List.forall_mem_cons, List.forall_mem_singleton]
      exact ⟨fun _ => by decide, fun _ => by decide⟩)
  have other : (((root []).mergeAll [clubRelaying "game" none 3, clubRelaying "shape" none 1]).relaysAt?
        [.call (.bid .lowest)]).map (·.map (·.content.description)) ≠
      ((clubRelaying "game" none 3).relaysAt? [.call (.bid .lowest)]).map
        (·.map (·.content.description)) := by
    decide +kernel
  exact other (congrArg _ same)

end Node

end BidBook
