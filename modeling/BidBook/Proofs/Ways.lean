import BidBook.Proofs.Branches
import BidBook.Proofs.Copies
import BidBook.Proofs.Declared

/-! # Ways through a declared tree

A way leads from the root of a declared tree to one of its positions, and takes one branch of every
choice on it. A binding makes a path of calls out of a way. What an expanded tree shows at a path
prevails among what the declared one has at the ends of all ways that some binding takes there.

* `Node.Way` — a way, with the tokens that are written on it and the branches that are taken.
* `Observation.exists_reads_iff` — paths of written keys against ways.
* `Observation.at_expanded` — what is seen in an expanded tree.
-/

namespace BidBook

/-- What a token stands for: the branches of a choice, or else itself. -/
def Token.options (t : Token) : List Token := if t.isChoice then t.alternatives else [t]

theorem Token.Within.of_mem_options {occurs : Wildcard → Bool} {t u : Token} (within : t.Within occurs)
    (member : u ∈ t.options) : u.Within occurs := by
  unfold options at member
  split at member
  · exact within.of_mem_alternatives member
  · exact List.mem_singleton.1 member ▸ within

/-- What a written key may be read as is what its token stands for. -/
theorem mem_readings_iff {t : Token} (written : t.Written) {branch : Option Token} {k : Key} :
    (branch, k) ∈ t.key.readings ↔
      ∃ u ∈ t.options, u.key = k ∧ branch = if t.isChoice then some u else none := by
  rw [readings_key written, Token.options]
  cases t.isChoice with
  | true =>
    simp only [if_true, List.mem_map, Prod.mk.injEq]
    constructor
    · rintro ⟨u, member, rfl, rfl⟩
      exact ⟨u, member, rfl, rfl⟩
    · rintro ⟨u, member, rfl, rfl⟩
      exact ⟨u, member, rfl, rfl⟩
  | false =>
    simp only [Bool.false_eq_true, if_false, List.mem_singleton, Prod.mk.injEq]
    constructor
    · rintro ⟨rfl, rfl⟩
      exact ⟨t, rfl, rfl, rfl⟩
    · rintro ⟨u, rfl, rfl, rfl⟩
      exact ⟨rfl, rfl⟩

namespace Node

/-- A way from a position to one below: the tokens that are written on it, and what is taken for
each. -/
inductive Way : Node → List Token → List Token → Node → Prop where
  | here (n : Node) : Way n [] [] n
  | onward {n c m : Node} {t u : Token} {written taken : List Token} (child : (t, c) ∈ n.children)
      (option : u ∈ t.options) (later : Way c written taken m) : Way n (t :: written) (u :: taken) m

/-- The keys of a way whose open suits are bound. -/
def boundKeys (b : Binding) (taken : List Token) : List Key :=
  taken.map fun u => (bindToken b u).key

theorem Way.within {occurs : Wildcard → Bool} {n m : Node} {written taken : List Token}
    (way : n.Way written taken m) (tidy : Throughout (Tidy (Token.Within occurs)) n) :
    ∀ u ∈ taken, u.Within occurs := by
  induction way with
  | here => simp
  | @onward n c m t u written taken child option later ih =>
    exact List.forall_mem_cons.2
      ⟨(tidy.here.tokens (t, c) child).of_mem_options option, ih (tidy.children (t, c) child)⟩

theorem Way.at? {K : Token → Prop} {n m : Node} {written taken : List Token} (way : n.Way written taken m)
    (tidy : Throughout (Tidy K) n) : n.at? (written.map Token.key) = some m := by
  induction way with
  | here => simp
  | @onward n c m t u written taken child option later ih =>
    rw [List.map_cons, at?_cons, find?_of_mem tidy.here.distinct child, Option.bind_some,
      ih (tidy.children (t, c) child)]

/-- A written path without choices is a way that takes what is written. -/
theorem exists_way_of_at? {n m : Node} {q : List Key} (tidy : Throughout (Tidy Token.Written) n)
    (plain : ∀ k ∈ q, k.readings = [(none, k)]) (found : n.at? q = some m) :
    ∃ taken, n.Way taken taken m ∧ taken.map Token.key = q := by
  induction q generalizing n with
  | nil =>
    rw [at?_nil, Option.some.injEq] at found
    exact ⟨[], found ▸ .here n, rfl⟩
  | cons k q ih =>
    rw [at?_cons, Option.bind_eq_some_iff] at found
    obtain ⟨c, child, found⟩ := found
    obtain ⟨t, member, rfl⟩ := mem_of_find? child
    rw [List.forall_mem_cons] at plain
    obtain ⟨taken, way, keys⟩ := ih (tidy.children (t, c) member) plain.2 found
    have single : (none, t.key) ∈ t.key.readings := by simp [plain.1]
    obtain ⟨u, option, _, noBranch⟩ := (mem_readings_iff (tidy.here.tokens (t, c) member)).1 single
    have isChoice : t.isChoice = false := by
      cases isChoice : t.isChoice with
      | false => rfl
      | true => rw [isChoice] at noBranch; cases noBranch
    have self : t ∈ t.options := by simp [Token.options, isChoice]
    exact ⟨t :: taken, .onward member self way, by rw [List.map_cons, keys]⟩

end Node

namespace Observation

open Node

variable {β : Type} (o : Observation β)

/-- Nothing but what the position says is observed. -/
def OfRemarks : Prop := ∀ {mark mark' : Option Token} {n n' : Node},
  (n.content.under mark).remark? = (n'.content.under mark').remark? → o.see mark n = o.see mark' n'

theorem ofRemarks_presence : presence.OfRemarks := fun _ => rfl

theorem ofRemarks_remarks : remarks.OfRemarks := fun same => same

variable {o}

variable (o) in
/-- Of the token that leads to a position nothing is observed but its marks. -/
def ByMarks : Prop := ∀ {n : Node} {t : Token}, n.content.marks = t.marks → o.see none n = o.see (some t) n

theorem OfRemarks.byMarks (ofRemarks : o.OfRemarks) : o.ByMarks := by
  intro n t marked
  refine ofRemarks ?_
  cases n with
  | mk c ss cs =>
    cases c
    simp only [content_mk, Content.marks, Token.marks, Marks.mk.injEq] at marked
    simp [Content.under, marked]

/-- Whatever is taken for the token of a child, its marks are those that the child shows. -/
theorem ByMarks.see_option (byMarks : o.ByMarks) {t u : Token} {c : Node}
    (marked : c.content.marks = t.marks) (option : u ∈ t.options) :
    o.see (if t.isChoice then some u else none) c = o.see (some u) c := by
  unfold Token.options at option
  by_cases isChoice : t.isChoice = true
  · rw [if_pos isChoice]
  · rw [if_neg isChoice] at option ⊢
    rw [List.mem_singleton.1 option, byMarks marked]

theorem OfRemarks.see_flattenFuel (ofRemarks : o.OfRemarks) (fuel : Nat) (n : Node) :
    o.see none (flattenFuel fuel n).1 = o.see none n :=
  ofRemarks (by rw [content_flattenFuel])

theorem OfRemarks.see_bind (ofRemarks : o.OfRemarks) (b : Binding) (above : List Glossary)
    (token : Option Token) (n : Node) : o.see none (n.bind b above token) = o.see none n :=
  ofRemarks (by rw [content_bind]; rfl)

/-! ## Written paths and ways -/

/-- A written path that is read as a path of keys is a way that has these keys. `given` is the token
that is known to lead to the position, and `mark` the branch of a choice, if it was one. -/
theorem exists_reads_iff_of_given (byMarks : o.ByMarks) {n : Node} (declared : Throughout Declared n)
    (mark given : Option Token) (agree : o.see mark n = o.see given n) {p : List Key} {b : β} :
    (∃ q last, Reads mark q p last ∧ o.at last n q = some b) ↔
      ∃ written taken m, n.Way written taken m ∧ taken.map Token.key = p ∧
        o.see (taken.getLast?.or given) m = some b := by
  -- one key on the path is one child on the way, and one branch of its token
  induction p generalizing n mark given with
  | nil =>
    constructor
    · rintro ⟨q, last, read, seen⟩
      cases read
      rw [at_nil] at seen
      exact ⟨[], [], n, .here n, rfl, by simp [← agree, seen]⟩
    · rintro ⟨written, taken, m, way, keys, seen⟩
      cases way with
      | here => exact ⟨[], mark, .nil mark, by simpa [agree] using seen⟩
      | onward child option later => cases keys
  | cons k p ih =>
    constructor
    · rintro ⟨q, last, read, seen⟩
      cases read with
      | @cons _ branch _ k₀ _ q _ reading later =>
        rw [at_cons, Option.bind_eq_some_iff] at seen
        obtain ⟨c, found, seen⟩ := seen
        obtain ⟨t, child, rfl⟩ := mem_of_find? found
        obtain ⟨u, option, rfl, rfl⟩ := (mem_readings_iff (declared.here.tokens (t, c) child).written).1 reading
        have agree := byMarks.see_option (declared.here.marked (t, c) child) option
        obtain ⟨written, taken, m, way, keys, seen⟩ :=
          (ih (declared.children (t, c) child) _ _ agree).1 ⟨q, last, later, seen⟩
        -- of the tokens on a way only the last one is observed
        refine ⟨t :: written, u :: taken, m, .onward child option way, by rw [List.map_cons, keys], ?_⟩
        rw [← seen, List.getLast?_cons]
        cases taken.getLast? <;> rfl
    · rintro ⟨written, taken, m, way, keys, seen⟩
      cases way with
      | here => cases keys
      | @onward _ c _ t u written taken child option later =>
        rw [List.map_cons, List.cons.injEq] at keys
        obtain ⟨rfl, keys⟩ := keys
        have reading := (mem_readings_iff (declared.here.tokens (t, c) child).written).2 ⟨u, option, rfl, rfl⟩
        have agree := byMarks.see_option (declared.here.marked (t, c) child) option
        have seen' : o.see (taken.getLast?.or (some u)) m = some b := by
          rw [← seen, List.getLast?_cons]
          cases taken.getLast? <;> rfl
        obtain ⟨q, last, read, seen⟩ := (ih (declared.children (t, c) child) _ _ agree).2
          ⟨written, taken, m, later, keys, seen'⟩
        refine ⟨t.key :: q, last, .cons reading read, ?_⟩
        rw [at_cons, find?_of_mem declared.here.distinct child, Option.bind_some, seen]

theorem exists_reads_iff (byMarks : o.ByMarks) {n : Node} (declared : Throughout Declared n)
    {p : List Key} {b : β} :
    (∃ q last, Reads none q p last ∧ o.at last n q = some b) ↔
      ∃ written taken m, n.Way written taken m ∧ taken.map Token.key = p ∧
        o.see taken.getLast? m = some b := by
  simpa using exists_reads_iff_of_given byMarks declared none none rfl

end Observation

namespace Node

/-! ## Kinds that occur without choices -/

theorem Throughout.tidy_of_declared {n : Node} (declared : Throughout Declared n) :
    Throughout (Tidy Token.Written) n :=
  declared.imp fun _ declared => declared.toTidy.imp fun _ => Token.Spelled.written

theorem throughout_flatten_of_declared {n : Node} (declared : Throughout Declared n) :
    Throughout (Tidy fun t => t.Within (n.mentions none) ∧ t.isChoice = false) n.flatten.1 :=
  throughout_flatten (fun _ within _ => within.of_mem_alternatives)
    (declared.tidy_of_declared.within fun _ => mentions_none.2)

theorem tidy_flatten_of_declared {n : Node} (declared : Throughout Declared n) :
    Throughout (Tidy Token.Written) n.flatten.1 :=
  (throughout_flatten_of_declared declared).imp fun _ tidy => tidy.imp fun _ within => within.1.1

theorem Way.written {n m : Node} {written taken : List Token} (way : n.Way written taken m)
    (declared : Throughout Declared n) : ∀ t ∈ taken, t.Written := fun t member =>
  (way.within (declared.tidy_of_declared.within fun _ => mentions_none.2) t member).1

theorem throughout_expanded {settings : ExpansionSettings} (accepted : settings.Accepted) {n : Node}
    (declared : Throughout Declared n) :
    Throughout (Tidy fun _ => True) (n.flatten.1.expandWildcards settings [] none).1 :=
  throughout_expandWildcards accepted (fun _ _ _ _ => trivial) (fun _ _ _ => trivial)
    (throughout_flatten_of_declared declared)

theorem throughout_copy {n : Node} (declared : Throughout Declared n) (b : Binding) :
    Throughout (Tidy fun _ => True) (n.flatten.1.bind b [] none) :=
  throughout_bind (fun _ _ => trivial) (throughout_flatten_of_declared declared)

theorem mentions_of_mentions_flatten {n : Node} (declared : Throughout Declared n) {w : Wildcard}
    (mentioned : n.flatten.1.mentions none w = true) : n.mentions none w = true :=
  (throughout_flatten_of_declared declared).occurs (fun _ within => within.1) w
    (mentions_none.1 mentioned)

theorem map_bound_congr {n : Node} (tidy : Throughout (Tidy Token.Written) n) {q : List Key}
    (present : (n.at? q).isSome) {b b' : Binding}
    (agree : Binding.Agree (fun w => n.mentions none w = true) b b') :
    q.map (Key.bound b) = q.map (Key.bound b') := by
  obtain ⟨m, found⟩ := Option.isSome_iff_exists.1 present
  obtain ⟨path, _, _, way, rfl⟩ := exists_descends b [] none found
  have within := (way.at? (tidy.within fun w here => mentions_none.2 here)).2
  have written : ∀ t ∈ path, t.Written := fun t member => (within t member).1
  rw [map_bound_key b written, map_bound_key b' written]
  refine List.map_congr_left fun t member => ?_
  rw [bindToken_congr (written t member) fun w here => agree w ((within t member).2 w here)]

/-- The paths of a tree without choices are the keys of ways. -/
theorem isSome_at?_flatten_iff {n : Node} (declared : Throughout Declared n) {q : List Key} :
    (n.flatten.1.at? q).isSome ↔
      ∃ written taken m, n.Way written taken m ∧ taken.map Token.key = q := by
  have prevails := presence.at_flatten
    (fun fuel n => Observation.ofRemarks_presence.see_flattenFuel fuel n) declared.tidy_of_declared q
  have present := prevails.isSome_iff
  rw [presence_at, Option.isSome_map] at present
  rw [present]
  constructor
  · rintro ⟨x, offer⟩
    obtain ⟨written, taken, m, way, keys, _⟩ :=
      (Observation.exists_reads_iff Observation.ofRemarks_presence.byMarks declared).1 offer
    exact ⟨written, taken, m, way, keys⟩
  · rintro ⟨written, taken, m, way, keys⟩
    exact ⟨(), (Observation.exists_reads_iff Observation.ofRemarks_presence.byMarks declared).2
      ⟨written, taken, m, way, keys, rfl⟩⟩

end Node

namespace Observation

open Node

variable {β : Type} {o : Observation β}

/-- An expanded tree shows what prevails at the ends of all ways that some binding takes to the path. -/
theorem at_expanded (ofRemarks : o.OfRemarks) {settings : ExpansionSettings} (accepted : settings.Accepted)
    {n : Node} (declared : Throughout Declared n) (p : List Key) :
    Prevails o.rank
      (fun x => ∃ b ∈ Binding.enumerate settings (n.mentions none), ∃ written taken m,
        n.Way written taken m ∧ boundKeys b taken = p ∧ o.see taken.getLast? m = some x)
      (o.at none (n.flatten.1.expandWildcards settings [] none).1 p) := by
  have tidy := tidy_flatten_of_declared declared
  have fewer : ∀ w, n.flatten.1.mentions none w = true → n.mentions none w = true :=
    fun w => mentions_of_mentions_flatten declared
  have copies := o.at_expandWildcards (fun b above token n => ofRemarks.see_bind b above token n) accepted
    (fun x seen => by rw [← seen]; exact ofRemarks rfl) tidy p
  -- bindings of all kinds that are written reach the same positions
  have reached : Prevails o.rank (fun x => ∃ i : Binding × List Key,
      (i.1 ∈ Binding.enumerate settings (n.mentions none) ∧ i.2.map (Key.bound i.1) = p) ∧
        o.at none n.flatten.1 i.2 = some x)
      (o.at none (n.flatten.1.expandWildcards settings [] none).1 p) := by
    refine copies.congr fun x => ⟨?_, ?_⟩
    · rintro ⟨b, member, q, bound, seen⟩
      obtain ⟨b', member', agree⟩ := Binding.exists_agree_many accepted fewer member
      exact ⟨(b', q), ⟨member', map_bound_congr tidy (o.isSome_of_at seen) agree ▸ bound⟩, seen⟩
    · rintro ⟨⟨b, q⟩, ⟨member, bound⟩, seen⟩
      obtain ⟨b', member', agree⟩ := Binding.exists_agree_few fewer member
      exact ⟨b', member', q, map_bound_congr tidy (o.isSome_of_at seen) agree ▸ bound, seen⟩
  refine (Prevails.compose _ _ (fun i _ => o.at_flatten (ofRemarks.see_flattenFuel)
    declared.tidy_of_declared i.2) reached).congr fun x => ?_
  constructor
  · rintro ⟨⟨b, q⟩, ⟨member, rfl⟩, offer⟩
    obtain ⟨written, taken, m, way, rfl, seen⟩ := (exists_reads_iff ofRemarks.byMarks declared).1 offer
    exact ⟨b, member, written, taken, m, way, (map_bound_key b (way.written declared)).symm, seen⟩
  · rintro ⟨b, member, written, taken, m, way, rfl, seen⟩
    exact ⟨(b, taken.map Token.key), ⟨member, map_bound_key b (way.written declared)⟩,
      (exists_reads_iff ofRemarks.byMarks declared).2 ⟨written, taken, m, way, rfl, seen⟩⟩

end Observation

end BidBook
