import BidBook.Proofs.Declarations

/-! # Positions in memory

In a tree a position is where it is. In memory it is a cell with an address: the position above holds it
under a key, and it names the position above as its parent, each on its own account. Operations make cells
and move them about, and every one of them has to keep keys and parents in order. What lies above a cell is
handed down to where it is needed; a walk up from parent to parent would meet the same.

* `Cell` — a position with its address, its parent and the keys of its children.
* `Cell.shape`, `Cell.cells` — the tree that a cell stands for, and the cells in it.
* `Cell.copy`, `Cell.mergeInto` — copying and merging.
* `Cell.flatten`, `Cell.expandWildcards`, `Cell.splice`, `Cell.prune` — the stages of a compilation.
* `Cell.keepAll` — what comes of declarations.
-/

namespace BidBook

/-- A position as it lies in memory. -/
structure Cell where
  address : Nat
  /-- Address of the position that it names as its parent. -/
  parent : Option Nat
  token : Option Token
  content : Content
  steps : List Cell
  /-- Each child with the key under which it is held. -/
  children : List (Option Key × Cell)

namespace Cell

def key? (c : Cell) : Option Key := c.token.map Token.key

def place (c : Cell) : Place := ⟨c.token, c.content.glossary⟩

mutual

/-- The tree that a cell stands for. A child without a token could not be written. -/
def shape : Cell → Node
  | ⟨_, _, _, content, ss, cs⟩ => .mk content (shapeSteps ss) (shapeChildren cs)

def shapeSteps : List Cell → List Node
  | [] => []
  | c :: rest => c.shape :: shapeSteps rest

def shapeChildren : List (Option Key × Cell) → List (Token × Node)
  | [] => []
  | (_, c) :: rest => (c.token.map fun t => (t, c.shape)).toList ++ shapeChildren rest

end

mutual

/-- A cell, the cells of its relay steps and those of its children. -/
def cells : Cell → List Cell
  | ⟨address, parent, token, content, ss, cs⟩ =>
    ⟨address, parent, token, content, ss, cs⟩ :: (cellsSteps ss ++ cellsChildren cs)

def cellsSteps : List Cell → List Cell
  | [] => []
  | c :: rest => c.cells ++ cellsSteps rest

def cellsChildren : List (Option Key × Cell) → List Cell
  | [] => []
  | (_, c) :: rest => c.cells ++ cellsChildren rest

end

/-! ## New cells -/

/-- The next address; none is given out twice. -/
def new : StateM Nat Nat := modifyGet fun next => (next, next + 1)

/-- A position about which nothing is known but the token that leads to it. -/
def fresh (parent : Option Nat) (token : Option Token) : StateM Nat Cell := do
  return {
    address := ← new, parent, token
    content := (token.map Content.ofToken).getD {}, steps := [], children := [] }

mutual

/-- A copy under a parent. Children are held under the keys that they had, relay steps by no one. -/
def copy (parent : Option Nat) : Cell → StateM Nat Cell
  | ⟨_, _, token, content, ss, cs⟩ => do
    let address ← new
    let steps ← copySteps ss
    let children ← copyChildren address cs
    return ⟨address, parent, token, content.forget, steps, children⟩

def copySteps : List Cell → StateM Nat (List Cell)
  | [] => return []
  | c :: rest => do
    let c ← c.copy none
    return c :: (← copySteps rest)

def copyChildren (holder : Nat) : List (Option Key × Cell) → StateM Nat (List (Option Key × Cell))
  | [] => return []
  | (k, c) :: rest => do
    let c ← c.copy (some holder)
    return (k, c) :: (← copyChildren holder rest)

end

def copyUnder (parent : Option Nat) (t : Token) (c : Cell) : StateM Nat Cell := do
  let c ← c.copy parent
  return { c with
    token := some t
    content := { c.content with tag := t.tag, alertable := t.alertable, announceable := t.announceable } }

/-! ## Children -/

def held? (k : Option Key) : List (Option Key × Cell) → Option Cell
  | [] => none
  | (k', c) :: rest => if k' = k then some c else held? k rest

/-- Holds a child under a key, in place of the one that is held there or behind all others. -/
def store (k : Option Key) (c : Cell) : List (Option Key × Cell) → List (Option Key × Cell)
  | [] => [(k, c)]
  | (k', c') :: rest => if k' = k then (k', c) :: rest else (k', c') :: store k c rest

def childFor (holder : Nat) (token : Option Token) (cs : List (Option Key × Cell)) : StateM Nat Cell :=
  match held? (token.map Token.key) cs with
  | some c => return c
  | none => fresh (some holder) token

/-- Works on the child that a token leads to, which is made where it is missing. -/
def onChild (holder : Nat) (token : Option Token) (work : Cell → StateM Nat Cell)
    (cs : List (Option Key × Cell)) : StateM Nat (List (Option Key × Cell)) := do
  let child ← childFor holder token cs
  let child ← work child
  return store (token.map Token.key) child cs

/-- Works on every child; each stays under its key. -/
def onEach (work : Cell → StateM Nat Cell) (cs : List (Option Key × Cell)) :
    StateM Nat (List (Option Key × Cell)) :=
  cs.mapM fun e => do
    let c ← work e.2
    return (e.1, c)

/-! ## Merging -/

def forgetAll : Cell → Cell
  | ⟨address, parent, token, content, ss, cs⟩ =>
    ⟨address, parent, token, content.forget, ss, forgetChildren cs⟩
where
  forgetChildren : List (Option Key × Cell) → List (Option Key × Cell)
    | [] => []
    | (k, c) :: rest => (k, c.forgetAll) :: forgetChildren rest

def mergeSteps (outranks : Bool) (source target : List Cell) : StateM Nat (List Cell) :=
  if !source.isEmpty && (outranks || target.isEmpty) then copySteps source else return target

mutual

/-- Merges a source into a target, which stays where it is. -/
def mergeInto : Cell → Cell → StateM Nat Cell
  | ⟨_, _, _, content, ss, cs⟩, target => do
    let outranks := decide (target.content.priority < content.priority)
    let stale := target.content.glossary.misses content.glossary.entries
    let merged := Node.mergeContent content target.content
    let steps ← mergeSteps outranks ss target.steps
    let children ← mergeChildren target.address cs
      (if stale then forgetAll.forgetChildren target.children else target.children)
    return { target with content := if stale then merged.forget else merged, steps, children }

/-- Merges children into the children of a target, each into the one that its own token leads to. -/
def mergeChildren (holder : Nat) : List (Option Key × Cell) → List (Option Key × Cell) →
    StateM Nat (List (Option Key × Cell))
  | [], target => return target
  | (_, c) :: rest, target => do
    let target ← onChild holder c.token c.mergeInto target
    mergeChildren holder rest target

end

/-- Adds a child under its own key, or merges it into the one that is held there. -/
def placeCandidate (cs : List (Option Key × Cell)) (c : Cell) : StateM Nat (List (Option Key × Cell)) :=
  match held? c.key? cs with
  | none => return cs ++ [(c.key?, c)]
  | some present => do
    let merged ← c.mergeInto present
    return store c.key? merged cs

/-! ## Choices -/

def candidates (holder : Nat) (c : Cell) : StateM Nat (List Cell) :=
  match c.token with
  | some t =>
    if t.isChoice then t.alternatives.mapM fun branch => c.copyUnder (some holder) branch else return [c]
  | none => return [c]

def flattenLevel (holder : Nat) (cs : List (Option Key × Cell)) : StateM Nat (List (Option Key × Cell)) :=
  cs.foldlM (fun done e => do (← candidates holder e.2).foldlM placeCandidate done) []

def flattenFuel : Nat → Cell → StateM Nat Cell
  | 0, c => return c
  | fuel + 1, c => do
    let level ← flattenLevel c.address c.children
    let children ← onEach (flattenFuel fuel) level
    let steps ← c.steps.mapM (flattenFuel fuel)
    return { c with steps, children }

def flatten (c : Cell) : StateM Nat Cell := flattenFuel c.shape.height c

/-! ## Open suits -/

/-- What a binding makes of a token. What it writes has to be read as a token again. -/
def boundToken? (b : Binding) (token : Option Token) : Option Token :=
  token.bind fun t => if t.wildcard?.isSome then Token.parse? (Token.bind b.suit? t.raw) else some t

mutual

/-- The copy of a tree under a binding and a parent. `above` are the glossaries above it. -/
def bind (b : Binding) (above : List Glossary) (parent : Option Nat) : Cell → StateM Nat Cell
  | ⟨_, _, token, content, ss, cs⟩ => do
    let address ← new
    let glossary := Node.inject above content.glossary (Node.injected b token)
    let steps ← bindSteps b ss
    let children ← bindChildren b (glossary :: above) address cs []
    return ⟨address, parent, boundToken? b token, { content.forget with glossary }, steps, children⟩

def bindSteps (b : Binding) : List Cell → StateM Nat (List Cell)
  | [] => return []
  | c :: rest => do
    let c ← c.bind b [] none
    return c :: (← bindSteps b rest)

def bindChildren (b : Binding) (above : List Glossary) (holder : Nat) :
    List (Option Key × Cell) → List (Option Key × Cell) → StateM Nat (List (Option Key × Cell))
  | [], done => return done
  | (_, c) :: rest, done => do
    let c ← c.bind b above (some holder)
    let done ← placeCandidate done c
    bindChildren b above holder rest done

end

/-- The tree with all its copies merged into it in place of its children and relay steps. The copies have the
parent of the tree. -/
def expandWildcards (settings : ExpansionSettings) (above : List Glossary) (c : Cell) : StateM Nat Cell :=
  if Wildcard.all.any (c.shape.mentions c.token) then do
    let copies ← (Binding.enumerate settings (c.shape.mentions c.token)).mapM fun b =>
      c.bind b above c.parent
    match copies with
    | [] => return c
    | copies => copies.foldlM (fun target copy => copy.mergeInto target) { c with steps := [], children := [] }
  else return c

/-! ## Relay steps -/

def attachSteps (alertable : Bool) (holder : Nat) :
    Option Bid → List Cell → List (Option Key × Cell) → StateM Nat (List (Option Key × Cell))
  | _, [], cs => return cs
  | last, step :: rest, cs =>
    match Bid.above? last with
    | none => return cs
    | some b => do
      let cs ← onChild holder (some (.ofCall (.bid b))) (fun child => do
        let child ← step.mergeInto child
        return { child with
          content := { child.content with alertable := child.content.alertable || alertable } }) cs
      attachSteps alertable holder (some b) rest cs

def spliceFuel (alertable : Bool) : Nat → List Place → Cell → StateM Nat Cell
  | 0, _, c => return c
  | fuel + 1, path, c => do
    let attached ← attachSteps alertable c.address (Place.lastBid? path) c.steps c.children
    let children ← onEach (fun child => spliceFuel alertable fuel (child.place :: path) child) attached
    return { c with steps := [], children }

def splice (settings : ExpansionSettings) (path : List Place) (c : Cell) : StateM Nat Cell :=
  spliceFuel settings.relayAlertable c.shape.height path c

/-! ## Pruning -/

def isEmpty (c : Cell) : Bool := !c.content.isDescribed && c.children.isEmpty

def reason? (settings : PruningSettings) (path : List Place) (c : Cell) : Option Removal :=
  match Place.auction? path with
  | none => some (if c.token.all fun t => Token.isConcrete t.raw then .unresolved else .unexpanded)
  | some calls =>
    if settings.illegal && !Auction.isLegal calls then some .illegal
    else if settings.empty && c.isEmpty then some .empty
    else none

def prune (settings : PruningSettings) (path : List Place) : Cell → Cell
  | ⟨address, parent, token, content, ss, cs⟩ =>
    ⟨address, parent, token, content, ss, pruneChildren path cs⟩
where
  pruneChildren (path : List Place) : List (Option Key × Cell) → List (Option Key × Cell)
    | [] => []
    | (k, c) :: rest =>
      let pruned := c.prune settings (c.place :: path)
      match reason? settings (c.place :: path) pruned with
      | none => (k, pruned) :: pruneChildren path rest
      | some _ => pruneChildren path rest

/-! ## Declarations -/

def within (work : Cell → StateM Nat Cell) : List Token → Cell → StateM Nat Cell
  | [], c => work c
  | t :: path, c => do
    let children ← onChild c.address (some t) (within work path) c.children
    return { c with children }

def create : List Token → Cell → StateM Nat Cell := within pure

mutual

def counted : Document.Declaration → Nat
  | .visit | .define _ => 0
  | .entry | .describe _ _ => 1
  | .step parts => countedAll parts

def countedAll : List (List Token × Document.Declaration) → Nat
  | [] => 0
  | (_, a) :: rest => counted a + countedAll rest

end

mutual

/-- What comes of a declaration at a cell, after so many others. -/
def keep (declared : Nat) : Document.Declaration → Cell → StateM Nat Cell
  | .visit, c => return c
  | .entry, c => return { c with content := { c.content with priority := (declared + 1 : Nat) } }
  | .describe _ text, c =>
    return { c with
      content := { c.content with description := some text, priority := (declared + 1 : Nat) } }
  | .define ss, c =>
    return { c with content := { c.content with glossary := c.content.glossary.addAll ss } }
  | .step parts, c => do
    let step ← fresh none none
    let step ← keepAll declared parts step
    return { c with steps := c.steps ++ [step] }

/-- What comes of declarations one after another, each at the end of its path. -/
def keepAll (declared : Nat) : List (List Token × Document.Declaration) → Cell → StateM Nat Cell
  | [], c => return c
  | (path, a) :: rest, c => do
    let c ← within (keep declared a) path c
    keepAll (declared + counted a) rest c

end

end Cell

end BidBook
