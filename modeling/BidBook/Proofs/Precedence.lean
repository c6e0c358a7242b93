import Mathlib.Data.List.Induction
import Mathlib.Data.List.Nodup
import Mathlib.Data.List.ReduceOption
import BidBook.Proofs.Observation

/-! # Precedence

Which description stays at a path where any number of trees are merged into one. A single merge looks
only at the priority that the target has at that moment, and that of a position without a description
is no measure of anything: it may be high from a declaration, or zero because the position is new. But
as soon as something is said, its priority is that of what is said, so a run of merges keeps the first
of all remarks that have the highest priority.

* `supersede` — what is said after one merge.
* `FirstHighest` — the first remark of the highest priority.
* `foldl_supersede_eq_some_iff` — which is what a run of merges keeps.
* `firstHighest_mergeAll` — the same for trees, at every path, and in every order of the sources.
-/

namespace BidBook

/-! ## Remarks in a row -/

/-- What is said after a merge, given what was said before and what comes with the source. -/
def supersede : Option Remark → Option Remark → Option Remark
  | none, new => new
  | some old, none => some old
  | some old, some new => if old.priority < new.priority then some new else some old

@[simp] theorem none_supersede (o : Option Remark) : supersede none o = o := rfl

@[simp] theorem supersede_none (o : Option Remark) : supersede o none = o := by
  cases o <;> rfl

theorem supersede_some_some (old new : Remark) : supersede (some old) (some new) =
    if old.priority < new.priority then some new else some old := rfl

/-- Of all that is said, `r` is of the highest priority, and the first of those. -/
def FirstHighest (said : List (Option Remark)) (r : Remark) : Prop :=
  ∃ before after, said = before ++ some r :: after ∧
    (∀ q, some q ∈ before → q.priority < r.priority) ∧ ∀ q, some q ∈ after → q.priority ≤ r.priority

variable {said : List (Option Remark)} {o : Option Remark} {r q : Remark}

theorem FirstHighest.mem (first : FirstHighest said r) : some r ∈ said := by
  obtain ⟨before, after, rfl, _, _⟩ := first
  simp

theorem FirstHighest.priority_le (first : FirstHighest said r) (member : some q ∈ said) :
    q.priority ≤ r.priority := by
  obtain ⟨before, after, rfl, below, atMost⟩ := first
  rcases List.mem_append.1 member with earlier | later
  · exact Int.le_of_lt (below q earlier)
  · rcases List.mem_cons.1 later with same | later
    · exact Option.some.inj same ▸ Int.le_refl _
    · exact atMost q later

theorem firstHighest_append_iff : FirstHighest (said ++ [o]) r ↔
    (FirstHighest said r ∧ ∀ q, o = some q → q.priority ≤ r.priority) ∨
      (o = some r ∧ ∀ q, some q ∈ said → q.priority < r.priority) := by
  constructor
  · rintro ⟨before, after, split, below, atMost⟩
    rcases List.eq_nil_or_concat' after with rfl | ⟨after, last, rfl⟩
    · obtain ⟨rfl, same⟩ := List.append_inj' split rfl
      exact .inr ⟨List.singleton_inj.1 same, below⟩
    · rw [← List.cons_append, ← List.append_assoc] at split
      obtain ⟨rfl, same⟩ := List.append_inj' split rfl
      obtain rfl := List.singleton_inj.1 same
      refine .inl ⟨⟨before, after, rfl, below, fun q member => ?_⟩, fun q same => ?_⟩
      · exact atMost q (List.mem_append_left _ member)
      · exact atMost q (by simp [same])
  · rintro (⟨⟨before, after, rfl, below, atMost⟩, last⟩ | ⟨rfl, below⟩)
    · refine ⟨before, after ++ [o], by simp, below, fun q member => ?_⟩
      rcases List.mem_append.1 member with inside | here
      · exact atMost q inside
      · exact last q (List.mem_singleton.1 here).symm
    · exact ⟨said, [], rfl, below, by simp⟩

theorem foldl_supersede_eq_none_iff :
    said.foldl supersede none = none ↔ ∀ q, some q ∉ said := by
  induction said using List.reverseRecOn with
  | nil => simp
  | append_singleton said o ih =>
    rw [List.foldl_append, List.foldl_cons, List.foldl_nil]
    cases kept : said.foldl supersede none with
    | none =>
      have silent := ih.1 kept
      rw [none_supersede]
      cases o <;> simp [silent]
    | some p =>
      -- once something is said, something is said ever after
      have spoken : ∃ q, some q ∈ said := by
        by_contra silent
        rw [ih.2 (not_exists.1 silent)] at kept
        cases kept
      obtain ⟨q, member⟩ := spoken
      refine iff_of_false ?_ fun silent => silent q (List.mem_append_left _ member)
      cases o with
      | none => simp
      | some s => rw [supersede_some_some]; split <;> simp

/-- A run keeps the first remark of the highest priority. -/
theorem foldl_supersede_eq_some_iff : said.foldl supersede none = some r ↔ FirstHighest said r := by
  induction said using List.reverseRecOn generalizing r with
  | nil => simp [FirstHighest]
  | append_singleton said o ih =>
    rw [List.foldl_append, List.foldl_cons, List.foldl_nil, firstHighest_append_iff]
    cases kept : said.foldl supersede none with
    | none =>
      have silent := foldl_supersede_eq_none_iff.1 kept
      have nothing : ¬ FirstHighest said r := fun first => silent r first.mem
      simp [silent, nothing]
    | some p =>
      have first : FirstHighest said p := ih.1 kept
      have unique : FirstHighest said r ↔ p = r := by rw [← ih, kept, Option.some.injEq]
      rw [unique]
      cases o with
      | none => simp
      | some s =>
        rw [supersede_some_some]
        split
        · next less =>
          have below : ∀ q, some q ∈ said → q.priority < s.priority := fun q member =>
            Int.lt_of_le_of_lt (first.priority_le member) less
          constructor
          · intro same
            obtain rfl := Option.some.inj same
            exact .inr ⟨rfl, below⟩
          · rintro (⟨rfl, atMost⟩ | ⟨same, _⟩)
            · exact absurd (atMost s rfl) (Int.not_le.2 less)
            · exact same
        · next notLess =>
          constructor
          · intro same
            obtain rfl := Option.some.inj same
            exact .inl ⟨rfl, fun q same => Option.some.inj same ▸ Int.not_lt.1 notLess⟩
          · rintro (⟨rfl, _⟩ | ⟨same, below⟩)
            · rfl
            · exact absurd (Option.some.inj same ▸ below p first.mem) notLess

/-- Where no two priorities are equal the order of the remarks does not matter. -/
theorem FirstHighest.eq_of_perm {said' : List (Option Remark)} {r' : Remark} (perm : said'.Perm said)
    (distinct : (said.reduceOption.map Remark.priority).Nodup) (first : FirstHighest said r)
    (first' : FirstHighest said' r') : r' = r := by
  have member : some r' ∈ said := perm.mem_iff.1 first'.mem
  have member' : some r ∈ said' := perm.mem_iff.2 first.mem
  refine List.inj_on_of_nodup_map distinct (List.reduceOption_mem_iff.2 member)
    (List.reduceOption_mem_iff.2 first.mem) (Int.le_antisymm ?_ ?_)
  · exact first.priority_le member
  · exact first'.priority_le member'

theorem foldl_supersede_of_perm {said' : List (Option Remark)} (perm : said'.Perm said)
    (distinct : (said.reduceOption.map Remark.priority).Nodup) :
    said'.foldl supersede none = said.foldl supersede none := by
  cases kept : said.foldl supersede none with
  | none =>
    rw [foldl_supersede_eq_none_iff] at kept ⊢
    exact fun q member => kept q (perm.mem_iff.1 member)
  | some r =>
    cases kept' : said'.foldl supersede none with
    | none =>
      rw [foldl_supersede_eq_none_iff] at kept'
      exact absurd (perm.mem_iff.2 (foldl_supersede_eq_some_iff.1 kept).mem) (kept' r)
    | some r' =>
      rw [FirstHighest.eq_of_perm perm distinct (foldl_supersede_eq_some_iff.1 kept)
        (foldl_supersede_eq_some_iff.1 kept')]

/-! ## Merges in a row -/

namespace Node

variable {source target : Node} {sources : List Node}

def remarkAt? (n : Node) (path : List Key) : Option Remark := (n.at? path).bind (·.content.remark?)

def mergeAll (target : Node) (sources : List Node) : Node :=
  sources.foldl (fun target source => mergeInto source target) target

theorem remark?_forgetWhen (stale : Bool) (n : Node) :
    (n.forgetWhen stale).content.remark? = n.content.remark? := remarks.see_forgetWhen none stale n

theorem remark?_mergeInto (source target : Node) : (mergeInto source target).content.remark? =
    supersede target.content.remark? source.content.remark? := by
  have merged := remark?_content_mergeInto none source target
  rw [Content.remark?_mergeContent] at merged
  simp only [Content.under_none] at merged
  rw [merged]
  cases said : source.content.remark? with
  | none =>
    rw [if_neg (by simp [Content.remark?_eq_none_iff.1 said])]
    cases target.content.remark? <;> rfl
  | some s =>
    obtain ⟨described, _, priority, _⟩ := Content.remark?_eq_some_iff.1 said
    cases said' : target.content.remark? with
    | none => rw [if_pos ⟨described, .inr (Content.remark?_eq_none_iff.1 said')⟩, supersede]
    | some t =>
      obtain ⟨described', _, priority', _⟩ := Content.remark?_eq_some_iff.1 said'
      simp only [supersede, described, described', priority, priority', true_and, Bool.true_eq_false,
        or_false]

/-- One merge, at every path. -/
theorem remarkAt?_mergeInto (formed : source.WellFormed) (path : List Key) :
    (mergeInto source target).remarkAt? path =
      supersede (target.remarkAt? path) (source.remarkAt? path) := by
  obtain ⟨stale, u, merged⟩ := exists_at?_mergeInto formed target path
  rw [remarkAt?, remarkAt?, remarkAt?, merged]
  cases source.at? path with
  | none =>
    cases target.at? path with
    | none => rfl
    | some t =>
      have same := remark?_forgetWhen stale t
      simp [same]
  | some s =>
    cases target.at? path with
    | none => exact remark?_mergeInto s (ofToken u)
    | some t =>
      have same := remark?_mergeInto s (t.forgetWhen stale)
      rwa [remark?_forgetWhen] at same

theorem remarkAt?_mergeAll (formed : ∀ n ∈ sources, n.WellFormed) (path : List Key) :
    (target.mergeAll sources).remarkAt? path =
      ((target :: sources).map (·.remarkAt? path)).foldl supersede none := by
  show _ = (sources.map (·.remarkAt? path)).foldl supersede (target.remarkAt? path)
  induction sources generalizing target with
  | nil => rfl
  | cons s rest ih =>
    rw [List.forall_mem_cons] at formed
    rw [List.map_cons, List.foldl_cons, ← remarkAt?_mergeInto formed.1, ← ih formed.2]
    rfl

/-- However many trees are merged into a target, what is said at a path in the end is the first of all
that was said there with the highest priority, the target's own word coming first. Where no two of
these priorities are equal, the sources may be merged in any order. -/
theorem firstHighest_mergeAll (formed : ∀ n ∈ sources, n.WellFormed) {path : List Key}
    (spoken : ∃ n ∈ target :: sources, ∃ m, n.at? path = some m ∧ m.content.isDescribed = true) :
    (∃ r, FirstHighest ((target :: sources).map (·.remarkAt? path)) r ∧
      (target.mergeAll sources).remarkAt? path = some r) ∧
    ((((target :: sources).filterMap (·.remarkAt? path)).map Remark.priority).Nodup →
      ∀ sources', sources'.Perm sources →
        (target.mergeAll sources').remarkAt? path = (target.mergeAll sources).remarkAt? path) := by
  constructor
  · obtain ⟨n, member, m, found, described⟩ := spoken
    cases kept : (target.mergeAll sources).remarkAt? path with
    | some r => exact ⟨r, foldl_supersede_eq_some_iff.1 (remarkAt?_mergeAll formed path ▸ kept), rfl⟩
    | none =>
      rw [remarkAt?_mergeAll formed, foldl_supersede_eq_none_iff] at kept
      obtain ⟨r, said⟩ := exists_remark?_under none described
      exact absurd (List.mem_map.2 ⟨n, member, by rw [remarkAt?, found]; exact said⟩) (kept r)
  · intro distinct sources' perm
    rw [remarkAt?_mergeAll formed, remarkAt?_mergeAll fun n member => formed n (perm.mem_iff.1 member)]
    refine foldl_supersede_of_perm ((perm.cons target).map _) ?_
    simpa [List.reduceOption, List.filterMap_map] using distinct

/-- A system that says something about the cheapest bid. -/
def clubSaying (description : String) (priority : Int) : Node :=
  mk {} [] [(.ofCall (.bid .lowest), mk { description := some description, priority } [] [])]

theorem wellFormed_clubSaying (description : String) (priority : Int) :
    (clubSaying description priority).WellFormed := by
  simp [clubSaying, WellFormed, WellFormedSteps, WellFormedChildren]

/-- A high priority without a description counts for nothing, and of two equal ones the first stays. -/
theorem firstHighest_mergeAll_clubs :
    (∃ r, FirstHighest ([clubSaying "" 9, clubSaying "natural" 2, clubSaying "strong" 5,
          clubSaying "late" 5].map (·.remarkAt? [.call (.bid .lowest)])) r ∧
        ((clubSaying "" 9).mergeAll [clubSaying "natural" 2, clubSaying "strong" 5,
          clubSaying "late" 5]).remarkAt? [.call (.bid .lowest)] = some r ∧
        r.description = some "strong") ∧
      ((clubSaying "" 9).mergeAll [clubSaying "strong" 5, clubSaying "natural" 2]).remarkAt?
          [.call (.bid .lowest)] =
        ((clubSaying "" 9).mergeAll [clubSaying "natural" 2, clubSaying "strong" 5]).remarkAt?
          [.call (.bid .lowest)] := by
  have formed : ∀ said : List (String × Int), ∀ n ∈ said.map fun e => clubSaying e.1 e.2, n.WellFormed :=
    fun said => List.forall_mem_map.2 fun e _ => wellFormed_clubSaying e.1 e.2
  have spoken : ∀ rest, ∃ n ∈ clubSaying "" 9 :: clubSaying "natural" 2 :: rest,
      ∃ m, n.at? [.call (.bid .lowest)] = some m ∧ m.content.isDescribed = true := fun rest =>
    ⟨clubSaying "natural" 2, by simp, _, rfl, rfl⟩
  constructor
  · obtain ⟨⟨r, first, kept⟩, _⟩ := firstHighest_mergeAll
      (formed [("natural", 2), ("strong", 5), ("late", 5)]) (spoken _)
    have strong : (((clubSaying "" 9).mergeAll [clubSaying "natural" 2, clubSaying "strong" 5,
        clubSaying "late" 5]).remarkAt? [.call (.bid .lowest)]).map Remark.description =
          some (some "strong") := by decide +kernel
    have same := kept ▸ strong
    exact ⟨r, first, kept, Option.some.inj same⟩
  · obtain ⟨_, anyOrder⟩ := firstHighest_mergeAll
      (formed [("natural", 2), ("strong", 5)]) (spoken _)
    exact anyOrder (by decide +kernel) _ (.swap _ _ _)

end Node

end BidBook
