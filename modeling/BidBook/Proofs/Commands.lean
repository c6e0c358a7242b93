import BidBook.Proofs.Cells
import BidBook.Proofs.Closed
import BidBook.Proofs.Compiled
import BidBook.Proofs.Remembered

/-! # Commands for trees in memory

Several trees are in memory at a time. They come from documents or are copied from one another, and whatever
is done to them is done at some position, which may be inside of relay steps. A command works on trees as they
are written, and on the cells that they lie in.

* `Memory.Command` — what may be done to the trees in memory.
* `Memory.trees`, `Memory.roots` — what comes of commands: trees, and the cells that they lie in.
* `Memory.Work.tidy`, `Node.Throughout.workAt` — no work at any position leaves a tree untidy.
-/

namespace BidBook

open Node

namespace Memory

/-- One step down on the way to a position: to a child, or into a relay step. -/
inductive Move where
  | child (k : Key)
  | step (index : Nat)

/-- Work at one position. -/
inductive Work where
  /-- Makes the missing positions of a written path. -/
  | create (path : List Item)
  | flatten
  | bindSuits (settings : ExpansionSettings)
  | attach (settings : ExpansionSettings)
  | prune (settings : PruningSettings)

/-- What may be done to the trees in memory, which are numbered. -/
inductive Command where
  /-- Builds a tree from a document, if that is accepted. -/
  | build (shorthands : List Shorthand) (document : Value)
  /-- Copies what is at a position into a tree of its own, under another token if one is written. -/
  | copy (tree : Nat) (way : List Move) (under : Option Item)
  /-- Merges what is at one position into what is at another. The source is read as it was before. -/
  | merge (source : Nat) (out : List Move) (target : Nat) (into : List Move)
  | work (tree : Nat) (way : List Move) (w : Work)

def Command.token? : Option Item → Except Excess (Option Token)
  | none => .ok none
  | some item => item.read

end Memory

open Memory

/-! ## On trees -/

namespace Node

/-- The position at the end of a way. Nothing is above relay steps. -/
def locate? : List Move → Position → Node → Option (Position × Node)
  | [], p, n => some (p, n)
  | .child k :: way, p, n =>
    (n.children.find? fun e => e.1.key = k).bind fun e => locate? way ⟨some e.1, p.places n⟩ e.2
  | .step i :: way, _, n => n.steps[i]?.bind (locate? way {})

def workAt (work : Position → Node → Node) : List Move → Position → Node → Node
  | [], p, n => work p n
  | .child k :: way, p, n =>
    .mk n.content n.steps (n.children.map fun e =>
      (e.1, if e.1.key = k then workAt work way ⟨some e.1, p.places n⟩ e.2 else e.2))
  | .step i :: way, _, n => .mk n.content (n.steps.modify i (workAt work way {})) n.children

end Node

namespace Memory

def Work.onNode (p : Position) (n : Node) : Work → Node
  | create path => n.create (Item.readPath path).1
  | flatten => Operation.flatten.run p n
  | bindSuits settings => (Operation.bindSuits settings).run p n
  | attach settings => (Operation.attach settings).run p n
  | prune settings => (Operation.prune settings).run p n

def locate? (trees : List Tree) (tree : Nat) (way : List Move) : Option (Position × Node) :=
  trees[tree]?.bind fun t => t.root.locate? way ⟨t.token, []⟩

def workAt (work : Position → Node → Node) (tree : Nat) (way : List Move) (trees : List Tree) : List Tree :=
  trees.modify tree fun t => { t with root := t.root.workAt work way ⟨t.token, []⟩ }

def Command.onTrees [Pattern.Judge] (trees : List Tree) : Command → List Tree
  | build shorthands document =>
    match Document.build shorthands document with
    | .ok draft => trees ++ [⟨none, draft.node⟩]
    | .error _ => trees
  | copy tree way under =>
    match locate? trees tree way, token? under with
    | some (p, n), .ok t => trees ++ [Tree.detach t p n]
    | _, _ => trees
  | merge source out target into =>
    match locate? trees source out with
    | some (_, n) => workAt (fun _ m => n.mergeInto m) target into trees
    | none => trees
  | work tree way w => workAt (fun p n => w.onNode p n) tree way trees

/-- Trees after commands, one after another. -/
def trees [Pattern.Judge] (commands : List Command) : List Tree := commands.foldl Command.onTrees []

end Memory

/-! ## On cells -/

namespace Cell

def locate? : List Move → Cell → Option Cell
  | [], c => some c
  | .child k :: way, c => (c.children.find? fun e => e.1 = some k).bind fun e => locate? way e.2
  | .step i :: way, c => c.steps[i]?.bind (locate? way)

def onIndex (work : Cell → StateM Nat Cell) : Nat → List Cell → StateM Nat (List Cell)
  | _, [] => return []
  | 0, c :: rest => do
    let c ← work c
    return c :: rest
  | i + 1, c :: rest => do
    let rest ← onIndex work i rest
    return c :: rest

def atKey (k : Key) (work : Cell → StateM Nat Cell) (e : Option Key × Cell) : StateM Nat (Option Key × Cell) :=
  if e.1 = some k then do
    let c ← work e.2
    return (e.1, c)
  else return e

/-- Works on the cell at the end of a way, given the places above it. -/
def workAt (work : List Place → Cell → StateM Nat Cell) : List Move → List Place → Cell → StateM Nat Cell
  | [], above, c => work above c
  | .child k :: way, above, c => do
    let children ← c.children.mapM (atKey k (workAt work way (c.place :: above)))
    return { c with children }
  | .step i :: way, _, c => do
    let steps ← onIndex (workAt work way []) i c.steps
    return { c with steps }

def tree (c : Cell) : Tree := ⟨c.token, c.shape⟩

end Cell

namespace Memory

def Work.onCell (above : List Place) (c : Cell) : Work → StateM Nat Cell
  | create path => c.create (Item.readPath path).1
  | flatten => c.flatten
  | bindSuits settings =>
    if (c.shape.wildcardExcess? settings c.token).isSome then return c
    else c.expandWildcards settings (above.map (·.glossary))
  | attach settings => c.splice settings (c.place :: above)
  | prune settings => return c.prune settings (c.place :: above)

def Command.onCells [Pattern.Judge] (memory : List Cell) : Command → StateM Nat (List Cell)
  | build shorthands document =>
    match Document.build shorthands document with
    | .ok _ => do
      let root ← Cell.fresh none none
      let root ← Cell.keepAll 0 (Document.declarations document)
        { root with content := { glossary := .ofList shorthands } }
      return memory ++ [root]
    | .error _ => return memory
  | copy tree way under =>
    match memory[tree]?.bind (Cell.locate? way), token? under with
    | some c, .ok (some t) => do
      let copy ← c.copyUnder none t
      return memory ++ [copy]
    | some c, .ok none => do
      let copy ← c.copy none
      return memory ++ [copy]
    | _, _ => return memory
  | merge source out target into =>
    match memory[source]?.bind (Cell.locate? out) with
    | some c => Cell.onIndex (Cell.workAt (fun _ d => c.mergeInto d) into []) target memory
    | none => return memory
  | work tree way w => Cell.onIndex (Cell.workAt (fun above c => w.onCell above c) way []) tree memory

/-- Cells after commands, one after another, in a memory that was empty. -/
def roots [Pattern.Judge] (commands : List Command) : List Cell :=
  ((commands.foldlM Command.onCells []).run 0).1

end Memory

/-! ## Trees stay tidy -/

theorem Item.written_of_read {item : Item} {t : Token} (read : item.read = .ok (some t)) : t.Written := by
  cases item with
  | text raw =>
    rw [Item.read, Token.read] at read
    split at read
    · cases read
    · exact Token.written_of_parse? (Except.ok.inj read)
  | call c =>
    cases read
    exact (Token.spelled_ofCall c).written

/-- Every token of a written path is what its own text writes. -/
theorem Item.written_of_readPath (path : List Item) : ∀ t ∈ (Item.readPath path).1, t.Written := by
  induction path with
  | nil => exact fun _ member => nomatch member
  | cons item rest ih =>
    rw [readPath]
    cases read : item.read with
    | error e => exact fun _ member => nomatch member
    | ok t =>
      refine List.forall_mem_append.2 ⟨fun u member => ?_, ih⟩
      exact written_of_read (read.trans (congrArg _ (Option.mem_toList.1 member)))

namespace Node

variable {n : Node} {t : Token}

theorem written_bindToken (b : Binding) (written : t.Written) : (bindToken b t).Written := by
  rcases bindToken_eq written b with ⟨_, same⟩ | ⟨_, _, read⟩
  · rwa [same]
  · exact Token.written_of_parse? read

namespace Throughout

variable {K : Token → Prop}

theorem reach (tidy : Throughout (Tidy K) n) (path : List Token) : Throughout (Tidy K) (n.reach path) :=
  tidy.reach_of_new fun t _ => throughout_tidy_ofToken t

theorem put {new : Node} {path : List Token} (tidy : Throughout (Tidy K) n) (tokens : ∀ t ∈ path, K t)
    (placed : Throughout (Tidy K) new) : Throughout (Tidy K) (n.put path new) := by
  refine tidy.put_of_added (fun t _ => throughout_tidy_ofToken t) (fun t member m here c => ?_) placed
  exact ⟨nodup_putChild here.distinct, forall_token_putChild c (tokens t member) here.tokens, here.fresh⟩

theorem pruned (tidy : Throughout (Tidy K) n) (settings : PruningSettings) (places : List Place) :
    Throughout (Tidy K) (n.pruned settings places) := by
  induction tidy generalizing places with
  | @mk n here steps below _ ih =>
    have formed : n.WellFormed := (Throughout.mk here steps below).wellFormed
    refine .mk ⟨distinct_pruned formed, ?_, ?_⟩ ?_ ?_
    · intro e member
      have kept := (tokens_pruned_sublist settings places n).subset (List.mem_map_of_mem member)
      obtain ⟨old, place, same⟩ := List.mem_map.1 kept
      exact same ▸ here.tokens old place
    · rw [content_pruned]
      exact here.fresh
    · rwa [steps_pruned]
    · intro e' member
      obtain ⟨e, old, rfl, _⟩ := mem_children_pruned_iff.1 member
      exact ih e old _

theorem expandWildcards (tidy : Throughout (Tidy Token.Written) n) (settings : ExpansionSettings)
    (above : List Glossary) (token : Option Token) :
    Throughout (Tidy Token.Written) (n.expandWildcards settings above token).1 := by
  have copies : ∀ a ∈ n.wildcardAlternatives settings above token, Throughout (Tidy Token.Written) a.2 := by
    rw [wildcardAlternatives]
    split
    · rw [List.forall_mem_map]
      exact fun b _ => throughout_bind (fun t => written_bindToken b) tidy
    · exact List.forall_mem_nil _
  unfold Node.expandWildcards
  generalize n.wildcardAlternatives settings above token = alternatives at copies
  cases alternatives with
  | nil => exact tidy
  | cons first later =>
    exact List.foldlRecOn _ _ (throughout_tidy_leaf tidy.here.fresh) fun _ target a member =>
      (copies a member).mergeInto target

theorem forall_mem_modify {α : Type} {P : α → Prop} {f : α → α} {xs : List α} (i : Nat)
    (each : ∀ x ∈ xs, P x ∧ P (f x)) : ∀ x ∈ xs.modify i f, P x := by
  intro x member
  obtain ⟨j, inside, rfl⟩ := List.getElem_of_mem member
  rw [List.getElem_modify]
  split
  · exact (each _ (List.getElem_mem _)).2
  · exact (each _ (List.getElem_mem _)).1

/-- Work at one position leaves all others alone. -/
theorem workAt {work : Position → Node → Node}
    (worked : ∀ p m, Throughout (Tidy K) m → Throughout (Tidy K) (work p m))
    (tidy : Throughout (Tidy K) n) (way : List Move) (p : Position) : Throughout (Tidy K) (n.workAt work way p) := by
  induction way generalizing n p with
  | nil => exact worked p n tidy
  | cons move way ih =>
    cases move with
    | child k =>
      rw [Node.workAt]
      refine .mk ⟨?_, ?_, tidy.here.fresh⟩ tidy.steps ?_
      · rw [children_mk, List.map_map]
        exact tidy.here.distinct
      · rw [children_mk, List.forall_mem_map]
        exact tidy.here.tokens
      · rw [children_mk, List.forall_mem_map]
        intro e member
        dsimp only
        split
        · exact ih (tidy.children e member) _
        · exact tidy.children e member
    | step i =>
      rw [Node.workAt]
      refine .mk ⟨tidy.here.distinct, tidy.here.tokens, tidy.here.fresh⟩ ?_ tidy.children
      exact forall_mem_modify i fun s member => ⟨tidy.steps s member, ih (tidy.steps s member) {}⟩

/-- What is found in a tidy tree is tidy, and so is the token that leads to it. -/
theorem of_locate? {way : List Move} {p q : Position} {m : Node} (tidy : Throughout (Tidy K) n)
    (token : ∀ t, p.token = some t → K t) (found : n.locate? way p = some (q, m)) :
    Throughout (Tidy K) m ∧ ∀ t, q.token = some t → K t := by
  induction way generalizing n p with
  | nil =>
    cases found
    exact ⟨tidy, token⟩
  | cons move way ih =>
    cases move with
    | child k =>
      obtain ⟨e, child, found⟩ := Option.bind_eq_some_iff.1 found
      have member := List.mem_of_find?_eq_some child
      obtain ⟨known, below⟩ := tidy.tidy_children e member
      exact ih below known found
    | step i =>
      obtain ⟨s, step, found⟩ := Option.bind_eq_some_iff.1 found
      exact ih (tidy.steps s (List.mem_of_getElem? step)) (by simp) found

end Throughout

end Node

theorem Memory.Work.tidy {n : Node} (tidy : Throughout (Tidy Token.Written) n) (w : Work) (p : Position) :
    Throughout (Tidy Token.Written) (w.onNode p n) := by
  cases w with
  | create path => exact tidy.put (Item.written_of_readPath path) (tidy.reach _)
  | flatten =>
    exact (throughout_flatten (fun t written u => written.of_mem_alternatives) tidy).imp
      fun _ tidy => tidy.imp fun _ => And.left
  | bindSuits settings =>
    rw [Work.onNode, Operation.run]
    split
    · exact tidy
    · exact tidy.expandWildcards _ _ _
  | attach settings =>
    exact (throughout_splice (fun b => (Token.spelled_ofCall (.bid b)).written) tidy).tidy_of_settled
  | prune settings => exact tidy.pruned _ _

end BidBook
