import BidBook.Proofs.Commands
import BidBook.Proofs.StandingStages

/-! # Parents hold their children

Through all that commands do in memory every child is held under the key of its own token, once, and by the
one cell that it names as its parent. What each command leaves in memory are cells that stand for the trees
which it gives, and these are well-formed.

* `Memory.Command.yields` — what one command does to cells it does to the trees that they stand for.
* `Memory.nodup_addresses` — no two cells have the same address.
* `Memory.children_held` — every child is held where it should be.
-/

namespace BidBook

open Node Memory

/-! ## Cells follow the trees -/

section Ways

variable {ρ σ τ υ : Type} {R : ρ → σ → Prop} {S : τ → υ → Prop}

theorem rel_bind {x : Option ρ} {y : Option σ} {f : ρ → Option τ} {g : σ → Option υ} (related : Option.Rel R x y)
    (each : ∀ a b, R a b → Option.Rel S (f a) (g b)) : Option.Rel S (x.bind f) (y.bind g) := by
  cases related with
  | none => exact .none
  | some here => exact each _ _ here

theorem rel_and {P : ρ → Prop} {x : Option ρ} {y : Option σ} (related : Option.Rel R x y)
    (holds : ∀ a, x = some a → P a) : Option.Rel (fun a b => R a b ∧ P a) x y := by
  cases related with
  | none => exact .none
  | some here => exact .some ⟨here, holds _ rfl⟩

theorem exists_of_forall₂ {xs : List ρ} {ys : List σ} (all : List.Forall₂ R xs ys) :
    ∀ y ∈ ys, ∃ x ∈ xs, R x y := by
  induction all with
  | nil => exact fun _ member => nomatch member
  | cons here _ ih =>
    refine List.forall_mem_cons.2 ⟨⟨_, List.mem_cons_self, here⟩, fun y member => ?_⟩
    obtain ⟨x, there, related⟩ := ih y member
    exact ⟨x, List.mem_cons_of_mem _ there, related⟩

theorem rel_getElem? {xs : List ρ} {ys : List σ} (all : List.Forall₂ R xs ys) (i : Nat) :
    Option.Rel R xs[i]? ys[i]? := by
  induction all generalizing i with
  | nil => exact .none
  | cons here _ ih =>
    cases i with
    | zero => exact .some here
    | succ i => exact ih i

end Ways

namespace Cell

variable {parent : Option Nat} {token : Option Token} {holder : Nat} {n : Node} {c : Cell}

theorem rel_find? {ns : List (Token × Node)} {cs : List (Option Key × Cell)}
    (all : List.Forall₂ (Child holder) ns cs) (k : Key) :
    Option.Rel (Child holder) (ns.find? fun e => e.1.key = k) (cs.find? fun d => d.1 = some k) := by
  induction all with
  | nil => exact .none
  | @cons e d _ _ here _ ih =>
    rw [List.find?_cons, List.find?_cons, here.key]
    by_cases same : e.1.key = k
    · simpa [same] using Option.Rel.some here
    · simpa [same] using ih

/-- At the end of a way lies the cell that stands for the node there. -/
theorem Stands.locate? (stands : Stands parent token n c) (way : List Move) (above : List Place) :
    Option.Rel (fun (e : Position × Node) d => ∃ parent, Stands parent e.1.token e.2 d)
      (n.locate? way ⟨token, above⟩) (c.locate? way) := by
  induction way generalizing parent token n c above with
  | nil => exact .some ⟨parent, stands⟩
  | cons move way ih =>
    cases move with
    | child k => exact rel_bind (rel_find? stands.children k) fun e d child => ih child.stands _
    | step i => exact rel_bind (rel_getElem? stands.steps i) fun s s' stands => ih stands _

theorem yields_onIndex {τ : Type} {R S : τ → Cell → Prop} {f : τ → τ} (work : Cell → StateM Nat Cell)
    {xs : List τ} {cs : List Cell} (all : List.Forall₂ R xs cs) (others : ∀ x c, R x c → S x c)
    (worked : ∀ x c, R x c → Yields (uses c) (work c) (S (f x))) (i : Nat) :
    Yields (uses cs) (onIndex work i cs) (List.Forall₂ S (xs.modify i f)) := by
  induction all generalizing i with
  | nil => cases i <;> exact .pure .nil fun _ => le_rfl
  | @cons x c xs cs here later ih =>
    cases i with
    | zero =>
      have untouched : List.Forall₂ S xs cs := later.imp others
      refine (worked x c here).bind (r := uses cs) (fun c' here' => .pure (.cons here' untouched) fun a => ?_)
        fun a => ?_
      · rw [uses_cons, Nat.add_comm]
      · rw [uses_cons, Nat.add_comm]
    | succ i =>
      refine (ih i).bind (r := uses c) (fun cs' later' => .pure (.cons (others x c here) later') fun a => ?_)
        fun a => ?_
      · rw [uses_cons]
      · rw [uses_cons]

theorem yields_atKey {e : Token × Node} {d : Option Key × Cell} {m : Node} {k : Key} {work : Cell → StateM Nat Cell}
    (child : Child holder e d) (worked : Yields (uses d.2) (work d.2) (Stands (some holder) (some e.1) m)) :
    Yields (uses d) (atKey k work d) (Child holder (e.1, if e.1.key = k then m else e.2)) := by
  have held : d.1 = some k ↔ e.1.key = k := by rw [child.key, Option.some.injEq]
  by_cases same : e.1.key = k
  · rw [atKey, if_pos (held.2 same), if_pos same]
    refine worked.bind (r := fun _ => 0) (fun c stands => .pure ⟨child.key, stands⟩ fun a => ?_) fun a => ?_
    · rw [uses_pair]
      omega
    · exact (Nat.zero_add _).le
  · rw [atKey, if_neg (mt held.1 same), if_neg same]
    exact .pure child fun a => le_rfl

/-- Work on the cell at the end of a way is work on the node there. -/
theorem yields_workAt {f : Position → Node → Node} {work : List Place → Cell → StateM Nat Cell}
    (worked : ∀ parent token above n c, Throughout (Tidy Token.Written) n → (∀ t, token = some t → t.Written) →
      Stands parent token n c → Yields (uses c) (work above c) (Stands parent token (f ⟨token, above⟩ n)))
    (tidy : Throughout (Tidy Token.Written) n) (written : ∀ t, token = some t → t.Written)
    (stands : Stands parent token n c) (way : List Move) (above : List Place) :
    Yields (uses c) (c.workAt work way above) (Stands parent token (n.workAt f way ⟨token, above⟩)) := by
  induction way generalizing parent token n c above with
  | nil => exact worked _ _ _ _ _ tidy written stands
  | cons move way ih =>
    cases move with
    | child k =>
      have below := Yields.mapM_uses (S := Child c.address)
        (g := fun e => (e.1, if e.1.key = k then e.2.workAt f way ⟨some e.1, c.place :: above⟩ else e.2))
        (f := atKey k (workAt work way (c.place :: above)))
        ((List.forall₂_and_left _ _).2 ⟨tidy.tidy_children, stands.children⟩) fun e d both =>
          yields_atKey both.2 (ih both.1.2 both.1.1 both.2.stands _)
      rw [workAt, Node.workAt, Position.places, ← stands.place_eq]
      refine below.bind (r := fun a => uses c.address a + uses c.steps a) (fun cs children => .pure ?_ fun a => ?_)
        fun a => by rw [uses_cell c]
      · exact stands_iff.2 ⟨stands.parent_eq, stands.token_eq, stands.content_eq, stands.steps, children⟩
      · rw [uses_cell]
    | step i =>
      have steps := yields_onIndex (S := Stands none none) (f := fun s => s.workAt f way {})
        (workAt work way []) ((List.forall₂_and_left _ _).2 ⟨tidy.steps, stands.steps⟩)
        (fun s s' both => both.2) (fun s s' both => ih both.1 (by simp) both.2 []) i
      rw [workAt, Node.workAt]
      refine steps.bind (r := fun a => uses c.address a + uses c.children a) (fun ss steps => .pure ?_ fun a => ?_)
        fun a => by rw [uses_cell c]; omega
      · exact stands_iff.2 ⟨stands.parent_eq, stands.token_eq, stands.content_eq, steps, stands.children⟩
      · rw [uses_cell]
        dsimp only
        omega

end Cell

namespace Memory

open Cell

/-- A root in memory and the tree that it stands for. -/
structure Kept (t : Tree) (c : Cell) : Prop where
  stands : Stands none t.token t.root c
  tidy : Throughout (Tidy Token.Written) t.root
  written : ∀ u, t.token = some u → u.Written

variable {ts : List Tree} {memory : List Cell}

theorem Work.yields {parent : Option Nat} {token : Option Token} {n : Node} {c : Cell} (w : Work)
    (tidy : Throughout (Tidy Token.Written) n) (written : ∀ t, token = some t → t.Written)
    (stands : Stands parent token n c) (above : List Place) :
    Yields (uses c) (w.onCell above c) (Stands parent token (w.onNode ⟨token, above⟩ n)) := by
  cases w with
  | create path => exact yields_create stands _
  | flatten => exact yields_flatten stands
  | bindSuits settings =>
    rw [Work.onCell, Work.onNode, Operation.run, stands.shape_eq, stands.token_eq]
    split
    · exact .pure stands fun _ => le_rfl
    · exact yields_expandWildcards tidy written stands settings _
  | attach settings =>
    rw [Work.onCell, stands.place_eq]
    exact yields_splice stands settings _
  | prune settings =>
    rw [Work.onCell, stands.place_eq]
    exact .pure (stands.prune settings _).1 (stands.prune settings _).2

/-- In memory lies the cell that stands for the node at the end of a way. -/
theorem Kept.locate? (kept : List.Forall₂ Kept ts memory) (i : Nat) (way : List Move) :
    Option.Rel (fun (e : Position × Node) d => (∃ parent, Stands parent e.1.token e.2 d) ∧
        Throughout (Tidy Token.Written) e.2 ∧ ∀ t, e.1.token = some t → t.Written)
      (Memory.locate? ts i way) (memory[i]?.bind (Cell.locate? way)) :=
  rel_bind (rel_getElem? kept i) fun _ _ kept =>
    rel_and (kept.stands.locate? way []) fun _ found => kept.tidy.of_locate? kept.written found

theorem Kept.workAt {f : Position → Node → Node} {work : List Place → Cell → StateM Nat Cell}
    (kept : List.Forall₂ Kept ts memory)
    (tidy : ∀ p n, Throughout (Tidy Token.Written) n → Throughout (Tidy Token.Written) (f p n))
    (worked : ∀ parent token above n c, Throughout (Tidy Token.Written) n → (∀ t, token = some t → t.Written) →
      Stands parent token n c → Yields (uses c) (work above c) (Stands parent token (f ⟨token, above⟩ n)))
    (i : Nat) (way : List Move) : Yields (uses memory) (onIndex (Cell.workAt work way []) i memory)
      (List.Forall₂ Kept (Memory.workAt f i way ts)) := by
  refine yields_onIndex _ kept (fun _ _ => id) (fun t c kept => ?_) i
  refine (yields_workAt worked kept.tidy kept.written kept.stands way []).imp (fun _ => le_rfl) fun _ stands => ?_
  exact ⟨stands, kept.tidy.workAt tidy way _, kept.written⟩

theorem Command.written_of_token? {under : Option Item} {t : Token} (read : token? under = .ok (some t)) :
    t.Written := by
  cases under with
  | none => cases read
  | some item => exact Item.written_of_read read

/-- A document is built in cells of its own. -/
theorem yields_build [Pattern.Judge] {shorthands : List Shorthand} {document : Value} {draft : Document.Draft}
    (built : Document.build shorthands document = .ok draft) :
    Yields (fun _ => 0) (do
        let root ← fresh none none
        keepAll 0 (Document.declarations document) { root with content := { glossary := .ofList shorthands } })
      (Kept ⟨none, draft.node⟩) := by
  have declared := (Document.throughout_declared built).imp fun _ declared =>
    declared.toTidy.imp fun _ => Token.Spelled.written
  have said := Document.build_eq_runAll built
  refine (yields_fresh none none).bind (r := fun _ => 0) (fun root stands => ?_) fun _ => le_rfl
  have started := stands.mapContent fun _ => { glossary := .ofList shorthands }
  refine (yields_keepAll (Document.declarations document) 0 started).imp (fun a => ?_) fun c kept => ?_
  · exact (uses_of_same root root.token _ a).le.trans (Nat.zero_add _).ge
  · exact ⟨said ▸ kept, declared, fun _ same => nomatch same⟩

/-- A command keeps every tree in its cells. -/
theorem Command.yields [Pattern.Judge] (kept : List.Forall₂ Kept ts memory) (command : Command) :
    Yields (uses memory) (command.onCells memory) (List.Forall₂ Kept (command.onTrees ts)) := by
  have added {t : Tree} {m : StateM Nat Cell} (made : Yields (fun _ => 0) m (Kept t)) :
      Yields (uses memory) (do let c ← m; return memory ++ [c]) (List.Forall₂ Kept (ts ++ [t])) := by
    refine made.bind (r := uses memory) (fun c stands => ?_) fun a => (Nat.add_zero _).le
    refine .pure (List.rel_append kept (.cons stands .nil)) fun a => ?_
    rw [uses_append, uses_cons, uses_nil, Nat.add_zero]
  have unchanged : Yields (uses memory) (pure memory) (List.Forall₂ Kept ts) := .pure kept fun _ => le_rfl
  cases command with
  | build shorthands document =>
    rw [onCells, onTrees]
    cases built : Document.build shorthands document with
    | error fault => exact unchanged
    | ok draft => exact added (yields_build built)
  | copy tree way under =>
    have located := Kept.locate? kept tree way
    rw [onCells, onTrees]
    generalize Memory.locate? ts tree way = x, memory[tree]?.bind (Cell.locate? way) = y at located
    cases located with
    | none => exact unchanged
    | some found =>
      obtain ⟨⟨parent, stands⟩, tidy, written⟩ := found
      cases read : token? under with
      | error excess => exact unchanged
      | ok token =>
        cases token with
        | none =>
          refine added ((yields_copy stands none).imp (fun _ => le_rfl) fun c copied => ⟨?_, tidy.copy, written⟩)
          rwa [stands.token_eq] at copied
        | some t =>
          refine added ((yields_copyUnder stands none t).imp (fun _ => le_rfl) fun c copied =>
            ⟨copied, tidy.copyUnder t, fun u same => ?_⟩)
          exact Option.some.inj same ▸ written_of_token? read
  | merge source out target into =>
    have located := Kept.locate? kept source out
    rw [onCells, onTrees]
    generalize Memory.locate? ts source out = x, memory[source]?.bind (Cell.locate? out) = y at located
    cases located with
    | none => exact unchanged
    | some found =>
      obtain ⟨⟨parent, stands⟩, tidy, _⟩ := found
      exact Kept.workAt kept (fun _ _ target => tidy.mergeInto target)
        (fun _ _ _ _ _ _ _ target => yields_mergeInto stands target) target into
  | work tree way w =>
    exact Kept.workAt (f := fun p n => w.onNode p n) kept (fun p n tidy => w.tidy tidy p)
      (fun parent token above n c tidy written stands => w.yields tidy written stands above) tree way

theorem yields_commands [Pattern.Judge] (kept : List.Forall₂ Kept ts memory) (commands : List Command) :
    Yields (uses memory) (commands.foldlM Command.onCells memory)
      (List.Forall₂ Kept (commands.foldl Command.onTrees ts)) := by
  induction commands generalizing ts memory with
  | nil => exact .pure kept fun _ => le_rfl
  | cons command rest ih =>
    rw [List.foldlM_cons]
    refine (command.yields kept).bind (r := fun _ => 0) (fun memory' kept' => ?_) fun a => (Nat.zero_add _).le
    exact (ih kept').imp (fun a => (Nat.zero_add _).ge) fun _ => id

end Memory

/-! ## Children and parents -/

namespace Cell

variable {parent : Option Nat} {token : Option Token} {n : Node} {c d : Cell}

/-- Keys and parents as they should be, as far as a cell and those that it holds are concerned. -/
structure Linked (c : Cell) : Prop where
  distinct : (c.children.map Prod.fst).Nodup
  key : ∀ e ∈ c.children, ∃ t, e.2.token = some t ∧ e.1 = some t.key
  parent : ∀ e ∈ c.children, e.2.parent = some c.address
  steps : ∀ s ∈ c.steps, s.parent = none

theorem mem_cells_iff : d ∈ c.cells ↔
    d = c ∨ (∃ s ∈ c.steps, d ∈ s.cells) ∨ ∃ e ∈ c.children, d ∈ e.2.cells := by
  obtain ⟨address, parent, token, content, ss, cs⟩ := c
  have steps : d ∈ cellsSteps ss ↔ ∃ s ∈ ss, d ∈ s.cells := by
    induction ss with
    | nil => simp [cellsSteps]
    | cons s ss ih => simp [cellsSteps, ih]
  have children : d ∈ cellsChildren cs ↔ ∃ e ∈ cs, d ∈ e.2.cells := by
    induction cs with
    | nil => simp [cellsChildren]
    | cons e cs ih => simp [cellsChildren, ih]
  rw [cells, List.mem_cons, List.mem_append, steps, children]

theorem Stands.linked_here (stands : Stands parent token n c) (formed : n.WellFormed) : c.Linked := by
  have keys : c.children.map Prod.fst = (n.children.map fun e => e.1.key).map some := by
    have each := stands.children
    generalize c.address = holder, c.children = cs, n.children = ns at each
    induction each with
    | nil => rfl
    | cons child _ ih => rw [List.map_cons, child.key, ih, List.map_cons, List.map_cons]
  have child : ∀ d ∈ c.children, ∃ e ∈ n.children, Child c.address e d :=
    exists_of_forall₂ stands.children
  refine ⟨?_, fun d member => ?_, fun d member => ?_, fun s member => ?_⟩
  · rw [keys]
    exact formed.distinct.map (Option.some_injective _)
  · obtain ⟨e, _, child⟩ := child d member
    exact ⟨e.1, child.stands.token_eq, child.key⟩
  · obtain ⟨e, _, child⟩ := child d member
    exact child.stands.parent_eq
  · obtain ⟨s', _, stands⟩ := exists_of_forall₂ stands.steps s member
    exact stands.parent_eq

/-- Wherever a cell is found in one that stands for a well-formed tree, its children are linked to it. -/
theorem Stands.linked (stands : Stands parent token n c) (formed : n.WellFormed) : ∀ d ∈ c.cells, d.Linked := by
  refine Stands.induction (P := fun n c => n.WellFormed → ∀ d ∈ c.cells, d.Linked)
    (fun parent token n c stands steps children formed d member => ?_) stands formed
  obtain ⟨formedSteps, _, formedChildren⟩ := wellFormed_iff.1 formed
  rcases mem_cells_iff.1 member with rfl | ⟨s, step, inside⟩ | ⟨e, child, inside⟩
  · exact stands.linked_here formed
  · obtain ⟨s', there, _, linked⟩ := exists_of_forall₂ steps s step
    exact linked (formedSteps s' there) d inside
  · obtain ⟨e', there, _, linked⟩ := exists_of_forall₂ children e child
    exact linked (formedChildren e' there) d inside

end Cell

namespace Memory

open Cell

def cells [Pattern.Judge] (commands : List Command) : List Cell := (roots commands).flatMap Cell.cells

theorem kept_roots [Pattern.Judge] (commands : List Command) :
    List.Forall₂ Kept (trees commands) (roots commands) :=
  (yields_commands .nil commands 0).2

/-- No two cells have the same address. -/
theorem nodup_addresses [Pattern.Judge] (commands : List Command) :
    ((cells commands).map Cell.address).Nodup := by
  rw [List.nodup_iff_count_le_one]
  intro a
  have few : uses (roots commands) a + given 0 a ≤ 0 + given _ a := (yields_commands .nil commands 0).1 a
  have same : uses (roots commands) a = ((cells commands).map Cell.address).count a := by
    rw [cells, List.map_flatMap]
    rfl
  have once (next : Nat) : given next a ≤ 1 := by
    rw [given]
    split <;> omega
  have := once ((commands.foldlM Command.onCells []).run 0).2
  omega

/-- Whatever has been done to the trees in memory, the cells agree with them, and every cell holds each of its
children once, under the key of the child's own token, and is the one cell that the child names as its
parent. -/
theorem children_held [Pattern.Judge] (commands : List Command) :
    (roots commands).map Cell.tree = trees commands ∧ (∀ t ∈ trees commands, t.root.WellFormed) ∧
      ∀ c ∈ cells commands, (c.children.map Prod.fst).Nodup ∧ (∀ s ∈ c.steps, s.parent = none) ∧
        ∀ e ∈ c.children, (∃ t, e.2.token = some t ∧ e.1 = some t.key) ∧
          ∀ d ∈ cells commands, e.2.parent = some d.address ↔ d = c := by
  have kept := kept_roots commands
  have agree : (roots commands).map Cell.tree = trees commands := by
    generalize roots commands = memory, trees commands = ts at kept
    induction kept with
    | nil => rfl
    | @cons t c _ _ here _ ih =>
      rw [List.map_cons, ih, Cell.tree, here.stands.token_eq, here.stands.shape_eq]
  have formed : ∀ t ∈ trees commands, t.root.WellFormed :=
    ((List.forall₂_and_left _ _).1 (kept.imp fun t c kept => ⟨kept.tidy.wellFormed, kept⟩)).1
  have linked : ∀ c ∈ cells commands, c.Linked := by
    intro c member
    obtain ⟨root, there, inside⟩ := List.mem_flatMap.1 member
    obtain ⟨t, _, here⟩ := exists_of_forall₂ kept root there
    exact here.stands.linked here.tidy.wellFormed c inside
  refine ⟨agree, formed, fun c member => ⟨(linked c member).distinct, (linked c member).steps, fun e child => ?_⟩⟩
  refine ⟨(linked c member).key e child, fun d there => ?_⟩
  rw [(linked c member).parent e child, Option.some.injEq]
  constructor
  · exact fun same => (List.inj_on_of_nodup_map (nodup_addresses commands) member there same).symm
  · rintro rfl
    rfl

/-- A choice of two calls is replaced by copies, which know that they hang below the root. -/
example : ((cells [.build [] (.map [(.text "1C|1D", .text "natural")]), .work 0 [] .flatten]).map fun c =>
    (c.address, c.parent, c.key?.map Key.written)) =
      [(0, none, none), (2, some 0, some "1C"), (3, some 0, some "1D")] := by
  decide +kernel

end Memory

end BidBook
