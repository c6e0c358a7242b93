import BidBook.Proofs.Observation
import BidBook.Proofs.Tidy

/-! # One branch for every choice

Where a tree is written with choices, a path through it is read by taking one branch of each choice
on it. After choices are replaced, a position shows what prevails among all that is written at the
paths that can be read as its own.

* `Key.readings` — what a written key may be read as.
* `Reads` — what a written path may be read as.
* `Observation.at_flatten` — what is seen in a tree without choices.
* `throughout_flatten` — a tidy tree stays tidy, and no choices are left.
-/

namespace BidBook

/-! ## Readings -/

/-- What a written key may be read as: the branches of a choice, with their keys, or the key itself. -/
def Key.readings : Key → List (Option Token × Key)
  | .call c => [(none, .call c)]
  | .text raw =>
    match Token.parse? raw with
    | none => [(none, .text raw)]
    | some t => if t.isChoice then t.alternatives.map fun u => (some u, u.key) else [(none, .text raw)]

theorem Token.isChoice_of_call? {t : Token} {c : Call} (known : t.call? = some c) :
    t.isChoice = false := by
  unfold Token.call? at known
  unfold Token.isChoice
  split at known
  · next reading => rw [reading]
  · cases known

theorem readings_key {t : Token} (written : t.Written) :
    t.key.readings =
      if t.isChoice then t.alternatives.map fun u => (some u, u.key) else [(none, t.key)] := by
  cases key : t.key with
  | call c => simp [Key.readings, Token.isChoice_of_call? (Token.call?_of_key key)]
  | text raw => simp [Key.readings, written.parse?_of_key key]

/-- A written path, what it is read as, and the branch taken last; the first argument is the branch
that was taken before. -/
inductive Reads : Option Token → List Key → List Key → Option Token → Prop where
  | nil (mark : Option Token) : Reads mark [] [] mark
  | cons {mark branch last : Option Token} {k k' : Key} {q p : List Key}
      (reading : (branch, k') ∈ k.readings) (later : Reads branch q p last) :
      Reads mark (k :: q) (k' :: p) last

namespace Node

/-! ## Levels without choices -/

theorem mem_candidates {t u : Token} {n m : Node} :
    (u, m) ∈ candidates t n ↔
      (t.isChoice = true ∧ u ∈ t.alternatives ∧ m = n.copyUnder u) ∨
        (t.isChoice = false ∧ u = t ∧ m = n) := by
  unfold candidates
  cases t.isChoice with
  | true => simp only [if_true, List.mem_map, Prod.mk.injEq]; grind
  | false => simp

theorem content_flattenFuel (fuel : Nat) (n : Node) : (flattenFuel fuel n).1.content = n.content := by
  cases fuel with
  | zero => rfl
  | succ fuel => cases n; rfl

theorem steps_flattenFuel_succ (fuel : Nat) (n : Node) :
    (flattenFuel (fuel + 1) n).1.steps = n.steps.map fun s => (flattenFuel fuel s).1 := by
  cases n
  exact List.map_map

theorem children_flattenFuel_succ (fuel : Nat) (n : Node) :
    (flattenFuel (fuel + 1) n).1.children =
      (flattenLevel n.children).map fun e => (e.1, (flattenFuel fuel e.2).1) := by
  cases n
  exact List.map_map

theorem height_copyUnder_le {n : Node} {h : Nat} (t : Token) (bound : n.height ≤ h) :
    (n.copyUnder t).height ≤ h := by
  have copied := height_copy_le bound
  unfold copyUnder
  cases copy : n.copy with
  | mk c ss cs =>
    rw [copy] at copied
    exact copied

/-- What holds of every child on a level without choices: it holds of what each child stands for, and
merging keeps it. -/
theorem forall_flattenLevel {P : Token → Node → Prop} {cs : List (Token × Node)}
    (choice : ∀ t n, (t, n) ∈ cs → t.isChoice = true → ∀ u ∈ t.alternatives, P u (n.copyUnder u))
    (plain : ∀ t n, (t, n) ∈ cs → t.isChoice = false → P t n)
    (into : ∀ t n u m, P t n → P u m → P u (mergeInto n m)) :
    ∀ e ∈ flattenLevel cs, P e.1 e.2 := by
  have candidate : ∀ t n, (t, n) ∈ (cs.flatMap fun e => candidates e.1 e.2) → P t n := by
    intro u m member
    obtain ⟨⟨t, n⟩, child, member⟩ := List.mem_flatMap.1 member
    rcases mem_candidates.1 member with ⟨isChoice, branch, rfl⟩ | ⟨isChoice, rfl, rfl⟩
    · exact choice t n child isChoice u branch
    · exact plain _ _ child isChoice
  exact forall_foldl_placeCandidate (by simp) (fun e member => candidate e.1 e.2 member)
    (fun t n u m member _ present => into t n u m (candidate t n member) present)

theorem height_le_of_mem_flattenLevel {cs : List (Token × Node)} {h : Nat}
    (bound : ∀ e ∈ cs, e.2.height ≤ h) : ∀ e ∈ flattenLevel cs, e.2.height ≤ h :=
  forall_flattenLevel (P := fun _ n => n.height ≤ h)
    (fun t n member _ u _ => height_copyUnder_le u (bound (t, n) member))
    (fun t n member _ => bound (t, n) member)
    (fun _ _ _ _ source target => height_mergeInto_le source target)

variable {K : Token → Prop}

theorem throughout_of_mem_flattenLevel {cs : List (Token × Node)}
    (tidy : ∀ e ∈ cs, Throughout (Tidy K) e.2) : ∀ e ∈ flattenLevel cs, Throughout (Tidy K) e.2 :=
  forall_flattenLevel (P := fun _ n => Throughout (Tidy K) n)
    (fun t n member _ u _ => (tidy (t, n) member).copyUnder u)
    (fun t n member _ => tidy (t, n) member)
    (fun _ _ _ _ source target => source.mergeInto target)

/-- A tidy tree stays tidy, and no choices are left. -/
theorem throughout_flattenFuel (branches : ∀ t, K t → ∀ u ∈ t.alternatives, K u) {fuel : Nat} {n : Node}
    (bound : n.height ≤ fuel) (tidy : Throughout (Tidy K) n) :
    Throughout (Tidy fun t => K t ∧ t.isChoice = false) (flattenFuel fuel n).1 := by
  induction fuel generalizing n with
  | zero =>
    have := height_pos n
    omega
  | succ fuel ih =>
    rw [height_le_succ_iff] at bound
    refine .mk ⟨?_, ?_, ?_⟩ ?_ ?_
    · rw [children_flattenFuel_succ, List.map_map]
      exact nodup_foldl_placeCandidate _ List.nodup_nil
    · rw [children_flattenFuel_succ, List.forall_mem_map]
      exact forall_flattenLevel (P := fun t _ => K t ∧ t.isChoice = false)
        (fun t n member _ u branch =>
          ⟨branches t (tidy.here.tokens (t, n) member) u branch, Token.isChoice_of_mem_alternatives branch⟩)
        (fun t n member plain => ⟨tidy.here.tokens (t, n) member, plain⟩)
        (fun _ _ _ _ _ target => target)
    · rw [content_flattenFuel]
      exact tidy.here.fresh
    · rw [steps_flattenFuel_succ, List.forall_mem_map]
      exact fun s member => ih (bound.1 s member) (tidy.steps s member)
    · rw [children_flattenFuel_succ, List.forall_mem_map]
      exact fun e member => ih (height_le_of_mem_flattenLevel bound.2 e member)
        (throughout_of_mem_flattenLevel tidy.children e member)

theorem throughout_flatten (branches : ∀ t, K t → ∀ u ∈ t.alternatives, K u) {n : Node}
    (tidy : Throughout (Tidy K) n) :
    Throughout (Tidy fun t => K t ∧ t.isChoice = false) n.flatten.1 :=
  throughout_flattenFuel branches (Nat.le_refl _) tidy

end Node

namespace Observation

open Node

variable {β : Type} (o : Observation β)

/-! ## What is seen without choices -/

theorem at_copyUnder {n : Node} {branch : Token} {q p : List Key} {b : β} :
    (∃ last, Reads none q p last ∧ o.at last (n.copyUnder branch) q = some b) ↔
      ∃ last, Reads (some branch) q p last ∧ o.at last n q = some b := by
  cases q with
  | nil =>
    constructor
    · rintro ⟨last, read, seen⟩
      cases read
      rw [at_nil, o.see_copyUnder] at seen
      exact ⟨some branch, .nil _, by rwa [at_nil]⟩
    · rintro ⟨last, read, seen⟩
      cases read
      rw [at_nil, ← o.see_copyUnder] at seen
      exact ⟨none, .nil _, by rwa [at_nil]⟩
  | cons k q =>
    -- further down a copy shows the same, whatever its own marks are
    have same : ∀ last, o.at last (n.copyUnder branch) (k :: q) = o.at last n (k :: q) := by
      intro last
      rw [← o.at_copy last n, at_cons, at_cons]
      unfold copyUnder
      cases n.copy
      rfl
    constructor
    · rintro ⟨last, read, seen⟩
      cases read with
      | cons reading later => exact ⟨last, .cons reading later, same last ▸ seen⟩
    · rintro ⟨last, read, seen⟩
      cases read with
      | cons reading later => exact ⟨last, .cons reading later, (same last).trans seen⟩

/-- What the candidates for a key show is what is written at the paths that are read by that key. -/
theorem offered_candidates {n : Node} (tidy : Tidy Token.Written n) {k : Key} {p : List Key} {b : β} :
    (∃ q last, Reads none q p last ∧
        ∃ e ∈ n.children.flatMap fun e => candidates e.1 e.2, e.1.key = k ∧ o.at last e.2 q = some b) ↔
      ∃ q last, Reads none q (k :: p) last ∧ o.at last n q = some b := by
  constructor
  · rintro ⟨q, last, read, ⟨u, m⟩, member, rfl, seen⟩
    obtain ⟨⟨t, c⟩, child, member⟩ := List.mem_flatMap.1 member
    have found := find?_of_mem tidy.distinct child
    have readings := readings_key (tidy.tokens (t, c) child)
    rcases mem_candidates.1 member with ⟨isChoice, branch, rfl⟩ | ⟨isChoice, rfl, rfl⟩
    · -- a branch is copied under its own marks
      obtain ⟨last, read, seen⟩ := o.at_copyUnder.1 ⟨last, read, seen⟩
      have reading : (some u, u.key) ∈ t.key.readings := by
        rw [readings, if_pos isChoice]
        exact List.mem_map_of_mem branch
      exact ⟨t.key :: q, last, .cons reading read, by rw [at_cons, found, Option.bind_some, seen]⟩
    · have reading : (none, u.key) ∈ u.key.readings := by
        rw [readings, isChoice]
        simp
      exact ⟨u.key :: q, last, .cons reading read, by rw [at_cons, found, Option.bind_some, seen]⟩
  · rintro ⟨q, last, read, seen⟩
    cases read with
    | @cons _ branch _ k' _ q _ reading later =>
      rw [at_cons, Option.bind_eq_some_iff] at seen
      obtain ⟨c, found, seen⟩ := seen
      obtain ⟨t, child, rfl⟩ := mem_of_find? found
      rw [readings_key (tidy.tokens (t, c) child)] at reading
      cases isChoice : t.isChoice with
      | true =>
        rw [isChoice, if_pos rfl, List.mem_map] at reading
        obtain ⟨u, member, eq⟩ := reading
        cases eq
        obtain ⟨last, read, seen⟩ := o.at_copyUnder.2 ⟨last, later, seen⟩
        exact ⟨q, last, read, (u, c.copyUnder u),
          List.mem_flatMap.2 ⟨(t, c), child, mem_candidates.2 (.inl ⟨isChoice, member, rfl⟩)⟩, rfl, seen⟩
      | false =>
        simp only [isChoice, Bool.false_eq_true, if_false, List.mem_singleton, Prod.mk.injEq] at reading
        obtain ⟨rfl, rfl⟩ := reading
        exact ⟨q, last, later, (t, c),
          List.mem_flatMap.2 ⟨(t, c), child, mem_candidates.2 (.inr ⟨isChoice, rfl, rfl⟩)⟩, rfl, seen⟩

theorem at_flattenFuel (keeps : ∀ fuel n, o.see none (flattenFuel fuel n).1 = o.see none n) {fuel : Nat}
    {n : Node} (bound : n.height ≤ fuel) (tidy : Throughout (Tidy Token.Written) n) (p : List Key) :
    Prevails o.rank (fun b => ∃ q last, Reads none q p last ∧ o.at last n q = some b)
      (o.at none (flattenFuel fuel n).1 p) := by
  induction p generalizing fuel n with
  | nil =>
    rw [at_nil, keeps]
    refine (Prevails.single _).congr fun b => ⟨fun seen => ⟨[], none, .nil _, by rwa [at_nil]⟩, ?_⟩
    rintro ⟨q, last, read, seen⟩
    cases read
    rwa [at_nil] at seen
  | cons k p ih =>
    obtain ⟨fuel, rfl⟩ : ∃ fuel', fuel = fuel' + 1 := ⟨fuel - 1, by have := height_pos n; omega⟩
    rw [height_le_succ_iff] at bound
    rw [at_cons, children_flattenFuel_succ, find?_map k (fun c => (flattenFuel fuel c).1), Option.bind_map]
    -- all candidates for a key are merged at once
    have formed : ∀ e ∈ n.children.flatMap fun e => candidates e.1 e.2, e.2.WellFormed := by
      rintro ⟨u, m⟩ member
      obtain ⟨⟨t, c⟩, child, member⟩ := List.mem_flatMap.1 member
      have below := tidy.children (t, c) child
      rcases mem_candidates.1 member with ⟨_, _, rfl⟩ | ⟨_, rfl, rfl⟩
      · exact (below.copyUnder u).wellFormed
      · exact below.wellFormed
    -- a written path below the level offers what prevails among the candidates, and of all written paths
    -- below one child of the level one prevails in turn
    refine (Prevails.compose (fun i : List Key × Option Token => Reads none i.1 p i.2)
      (fun i => (find? k (flattenLevel n.children)).bind fun c => o.at i.2 c i.1)
      (fun i _ => o.at_foldl_placeCandidate formed k i.2 i.1) ?_).congr fun b => ?_
    · cases found : find? k (flattenLevel n.children) with
      | none => simp [Prevails]
      | some c =>
        obtain ⟨t, member, _⟩ := mem_of_find? found
        refine (ih (height_le_of_mem_flattenLevel bound.2 _ member)
          (throughout_of_mem_flattenLevel tidy.children _ member)).congr fun b => ?_
        simp
    · rw [← o.offered_candidates tidy.here]
      simp only [Prod.exists]

/-- What is seen in a tree without choices prevails among all that is written at the paths that are
read as the position's own. -/
theorem at_flatten (keeps : ∀ fuel n, o.see none (flattenFuel fuel n).1 = o.see none n) {n : Node}
    (tidy : Throughout (Tidy Token.Written) n) (p : List Key) :
    Prevails o.rank (fun b => ∃ q last, Reads none q p last ∧ o.at last n q = some b)
      (o.at none n.flatten.1 p) :=
  o.at_flattenFuel keeps (Nat.le_refl _) tidy p

end Observation

end BidBook
