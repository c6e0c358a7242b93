import BidBook.Proofs.Merging
import BidBook.Proofs.Written

/-! # Tidy trees

What holds everywhere in a tree from the document to its expansion: siblings have different keys, their
tokens are of a certain kind, and no description has been asked for.

* `Node.Throughout` — a property of every position, relay steps included.
* `Node.Tidy` — the property of one position, for a kind of tokens.
* `Throughout.mergeInto`, `Throughout.foldl_placeCandidate` — tidy trees are merged into tidy trees.
-/

namespace BidBook

theorem Content.forget_of_fresh {c : Content} (fresh : c.resolved = none) : c.forget = c := by
  unfold forget
  rw [← fresh]

namespace Node

/-- Every position of a tree has the property, and every position of its relay steps. -/
inductive Throughout (P : Node → Prop) : Node → Prop where
  | mk {n : Node} (here : P n) (steps : ∀ s ∈ n.steps, Throughout P s)
      (children : ∀ e ∈ n.children, Throughout P e.2) : Throughout P n

namespace Throughout

variable {P Q : Node → Prop} {n m : Node}

theorem here (h : Throughout P n) : P n := by
  cases h with
  | mk here _ _ => exact here

theorem steps (h : Throughout P n) : ∀ s ∈ n.steps, Throughout P s := by
  cases h with
  | mk _ steps _ => exact steps

theorem children (h : Throughout P n) : ∀ e ∈ n.children, Throughout P e.2 := by
  cases h with
  | mk _ _ children => exact children

theorem imp (h : Throughout P n) (weaker : ∀ m, P m → Q m) : Throughout Q n := by
  induction h with
  | mk here _ _ steps below => exact .mk (weaker _ here) steps below

theorem of_find? {k : Key} (h : Throughout P n) (found : find? k n.children = some m) :
    Throughout P m := by
  obtain ⟨t, member, _⟩ := mem_of_find? found
  exact h.children _ member

theorem of_at? {path : List Key} (h : Throughout P n) (found : n.at? path = some m) :
    Throughout P m := by
  induction path generalizing n with
  | nil =>
    rw [at?_nil, Option.some.injEq] at found
    exact found ▸ h
  | cons k path ih =>
    rw [at?_cons, Option.bind_eq_some_iff] at found
    obtain ⟨c, child, found⟩ := found
    exact ih (h.of_find? child) found

variable {path : List Token}

/-- What holds of new positions besides holds at the end of a path, be it there or not. -/
theorem reach_of_new (h : Throughout P n) (new : ∀ t ∈ path, Throughout P (ofToken t)) :
    Throughout P (n.reach path) := by
  induction path generalizing n with
  | nil => exact h
  | cons t path ih =>
    rw [List.forall_mem_cons] at new
    exact ih (of_childOrNew new.1 h.children) new.2

/-- What can be put at the end of a path, as long as no position on the way minds one more child. -/
theorem put_of_added (h : Throughout P n) (new : ∀ t ∈ path, Throughout P (ofToken t))
    (added : ∀ t ∈ path, ∀ m, P m → ∀ c, P (.mk m.content m.steps (putChild t c m.children)))
    (placed : Throughout P m) : Throughout P (n.put path m) := by
  induction path generalizing n with
  | nil => exact placed
  | cons t path ih =>
    rw [List.forall_mem_cons] at new added
    have child := ih (of_childOrNew new.1 h.children) new.2 added.2
    exact .mk (added.1 n h.here _) h.steps (forall_node_putChild child h.children)

end Throughout

mutual

/-- Tests every position of a tree, and every position of its relay steps. -/
def everywhere (test : Node → Bool) : Node → Bool
  | mk c ss cs => test (mk c ss cs) && everywhereSteps test ss && everywhereChildren test cs

def everywhereSteps (test : Node → Bool) : List Node → Bool
  | [] => true
  | n :: rest => everywhere test n && everywhereSteps test rest

def everywhereChildren (test : Node → Bool) : List (Token × Node) → Bool
  | [] => true
  | (_, n) :: rest => everywhere test n && everywhereChildren test rest

end

theorem everywhereSteps_iff {test : Node → Bool} {ss : List Node} :
    everywhereSteps test ss = true ↔ ∀ s ∈ ss, everywhere test s = true := by
  induction ss with
  | nil => simp [everywhereSteps]
  | cons s rest ih => simp [everywhereSteps, ih]

theorem everywhereChildren_iff {test : Node → Bool} {cs : List (Token × Node)} :
    everywhereChildren test cs = true ↔ ∀ e ∈ cs, everywhere test e.2 = true := by
  induction cs with
  | nil => simp [everywhereChildren]
  | cons e rest ih => simp [everywhereChildren, ih]

theorem everywhere_iff {test : Node → Bool} {n : Node} : everywhere test n = true ↔ test n = true ∧
    (∀ s ∈ n.steps, everywhere test s = true) ∧ ∀ e ∈ n.children, everywhere test e.2 = true := by
  cases n
  simp [everywhere, everywhereSteps_iff, everywhereChildren_iff, and_assoc]

theorem everywhere_iff_throughout {P : Node → Prop} [DecidablePred P] {n : Node} :
    everywhere (fun m => decide (P m)) n = true ↔ Throughout P n := by
  constructor
  · intro passed
    induction n using induction with
    | position c ss cs steps below =>
      obtain ⟨here, stepsPassed, belowPassed⟩ := everywhere_iff.1 passed
      exact .mk (of_decide_eq_true here) (fun s member => steps s member (stepsPassed s member))
        fun e member => below e member (belowPassed e member)
  · intro all
    induction all with
    | mk here _ _ steps below => exact everywhere_iff.2 ⟨decide_eq_true here, steps, below⟩

instance (P : Node → Prop) [DecidablePred P] : DecidablePred (Throughout P) := fun _ =>
  decidable_of_iff _ everywhere_iff_throughout

/-- Nothing is amiss at a position, as far as its children go by tokens of a certain kind. -/
structure Tidy (K : Token → Prop) (n : Node) : Prop where
  distinct : (n.children.map fun e => e.1.key).Nodup
  tokens : ∀ e ∈ n.children, K e.1
  fresh : n.content.resolved = none

variable {K L : Token → Prop}

/-- A tree without children is tidy as long as nothing is remembered in it. -/
theorem throughout_tidy_leaf {c : Content} (fresh : c.resolved = none) :
    Throughout (Tidy K) (mk c [] []) :=
  .mk ⟨by simp, by simp, fresh⟩ (by simp) (by simp)

theorem throughout_tidy_ofToken (t : Token) : Throughout (Tidy K) (ofToken t) :=
  throughout_tidy_leaf rfl

theorem Tidy.imp {n : Node} (tidy : Tidy K n) (weaker : ∀ t, K t → L t) : Tidy L n :=
  ⟨tidy.distinct, fun e member => weaker _ (tidy.tokens e member), tidy.fresh⟩

namespace Throughout

theorem tidy_and {n : Node} (first : Throughout (Tidy K) n) (second : Throughout (Tidy L) n) :
    Throughout (Tidy fun t => K t ∧ L t) n := by
  induction first with
  | mk here _ _ steps below =>
    refine .mk ⟨here.distinct, fun e member => ?_, here.fresh⟩ (fun s member => ?_) fun e member => ?_
    · exact ⟨here.tokens e member, second.here.tokens e member⟩
    · exact steps s member (second.steps s member)
    · exact below e member (second.children e member)

/-- What a child is reached by and what follows it are as they should be. -/
theorem tidy_children {n : Node} (tidy : Throughout (Tidy K) n) :
    ∀ e ∈ n.children, (∀ t, some e.1 = some t → K t) ∧ Throughout (Tidy K) e.2 := fun e member =>
  ⟨fun _ same => Option.some.inj same ▸ tidy.here.tokens e member, tidy.children e member⟩

theorem wellFormed {n : Node} (tidy : Throughout (Tidy K) n) : n.WellFormed := by
  induction tidy with
  | mk here _ _ steps below => exact wellFormed_iff.2 ⟨steps, here.distinct, below⟩

/-! ## Forgetting and copying -/

theorem forgetAll {n : Node} (tidy : Throughout (Tidy K) n) : Throughout (Tidy K) n.forgetAll := by
  induction tidy with
  | @mk n here steps _ _ below =>
    refine .mk ⟨?_, ?_, ?_⟩ ?_ ?_
    · rw [children_forgetAll, forgetChildren_eq_map, List.map_map]
      exact here.distinct
    · simpa only [children_forgetAll, forgetChildren_eq_map, List.forall_mem_map] using here.tokens
    · rw [content_forgetAll]
      rfl
    · rwa [steps_forgetAll]
    · simpa only [children_forgetAll, forgetChildren_eq_map, List.forall_mem_map] using below

theorem forgetAll_eq {n : Node} (tidy : Throughout (Tidy K) n) : n.forgetAll = n := by
  induction tidy with
  | @mk n here _ _ _ below =>
    cases n with
    | mk c ss cs =>
      have content : c.forget = c := Content.forget_of_fresh here.fresh
      have children : cs.map (fun e => (e.1, e.2.forgetAll)) = cs :=
        (List.map_congr_left fun e member => by rw [below e member]).trans (List.map_id' cs)
      rw [Node.forgetAll, content, forgetChildren_eq_map, children]

theorem copy {n : Node} (tidy : Throughout (Tidy K) n) : Throughout (Tidy K) n.copy := by
  induction tidy with
  | @mk n here _ _ steps below =>
    refine .mk ⟨?_, ?_, ?_⟩ ?_ ?_
    · rw [children_copy, copyChildren_eq_map, List.map_map]
      exact here.distinct
    · simpa only [children_copy, copyChildren_eq_map, List.forall_mem_map] using here.tokens
    · rw [content_copy]
      rfl
    · simpa only [steps_copy, copySteps_eq_map, List.forall_mem_map] using steps
    · simpa only [children_copy, copyChildren_eq_map, List.forall_mem_map] using below

theorem mapContent {n : Node} {f : Content → Content} (tidy : Throughout (Tidy K) n)
    (fresh : (f n.content).resolved = none) : Throughout (Tidy K) (n.mapContent f) := by
  cases n with
  | mk c ss cs => exact .mk ⟨tidy.here.distinct, tidy.here.tokens, fresh⟩ tidy.steps tidy.children

theorem copyUnder {n : Node} (tidy : Throughout (Tidy K) n) (t : Token) :
    Throughout (Tidy K) (n.copyUnder t) :=
  tidy.copy.mapContent tidy.copy.here.fresh

/-! ## Merging -/

theorem fresh_mergeContent {source target : Content} (fresh : target.resolved = none) :
    (mergeContent source target).resolved = none := by
  rw [mergeContent_eq]
  by_cases replaces : source.Replaces target
  · rw [Content.prevailing_of_replaces replaces]
    rfl
  · rw [Content.prevailing_of_not_replaces replaces]
    exact fresh

theorem fresh_mergeInto {source target : Node} (fresh : target.content.resolved = none) :
    (mergeInto source target).content.resolved = none := by
  rw [content_mergeInto]
  split
  · rfl
  · exact fresh_mergeContent fresh

theorem mergeInto {source target : Node} (hs : Throughout (Tidy K) source)
    (ht : Throughout (Tidy K) target) : Throughout (Tidy K) (mergeInto source target) := by
  -- what is merged into a child is a child of the source, so the induction is on the source
  induction hs generalizing target with
  | @mk source here steps below _ merged =>
    -- the children of the target as they are when the merge begins
    have begun : ∃ cs, (Node.mergeInto source target).children = mergeChildren source.children cs ∧
        (cs.map fun e => e.1.key).Nodup ∧ (∀ e ∈ cs, K e.1) ∧ ∀ e ∈ cs, Throughout (Tidy K) e.2 := by
      have forgotten := ht.forgetAll
      rw [children_mergeInto]
      refine ⟨_, rfl, ?_⟩
      split
      · rw [← children_forgetAll]
        exact ⟨forgotten.here.distinct, forgotten.here.tokens, forgotten.children⟩
      · exact ⟨ht.here.distinct, ht.here.tokens, ht.children⟩
    obtain ⟨cs, children, distinct, tokens, tidy⟩ := begun
    refine .mk ⟨?_, ?_, fresh_mergeInto ht.here.fresh⟩ ?_ ?_
    · rw [children]
      exact nodup_mergeChildren _ distinct
    · rw [children]
      exact forall_mergeChildren (P := fun t _ => K t) tokens
        (fun t n u m _ _ tokens => tokens) (fun t n member => here.tokens (t, n) member)
    · rw [steps_mergeInto]
      exact forall_mergeSteps (fun s member => (steps s member).copy) ht.steps
    · rw [children]
      exact forall_mergeChildren (P := fun _ n => Throughout (Tidy K) n) tidy
        (fun t n u m member _ tidy => merged (t, n) member tidy)
        (fun t n member => merged (t, n) member (throughout_tidy_ofToken t))

theorem foldl_placeCandidate {c : Content} {ss : List Node} {cands : List (Token × Node)}
    (fresh : c.resolved = none) (steps : ∀ s ∈ ss, Throughout (Tidy K) s)
    (tokens : ∀ e ∈ cands, K e.1) (tidy : ∀ e ∈ cands, Throughout (Tidy K) e.2) :
    Throughout (Tidy K) (.mk c ss (cands.foldl placeCandidate [])) := by
  refine .mk ⟨nodup_foldl_placeCandidate cands List.nodup_nil, ?_, fresh⟩ steps ?_
  · exact forall_foldl_placeCandidate (P := fun t _ => K t) (by simp) tokens
      (fun t n u m _ _ tokens => tokens)
  · exact forall_foldl_placeCandidate (P := fun _ n => Throughout (Tidy K) n) (by simp) tidy
      (fun t n u m member _ present => (tidy (t, n) member).mergeInto present)

end Throughout

end Node

end BidBook
