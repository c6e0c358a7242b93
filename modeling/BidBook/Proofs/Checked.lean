import Mathlib.Algebra.GroupWithZero.Nat
import BidBook.Auction.Setup
import BidBook.Proofs.Closed
import BidBook.Proofs.Compiled

/-! # A compilation that watches itself

Some operations of a compilation have results only where they are meant to be used: a binding chooses suits
for the kinds that occur, only contracts have a next step and an order, and a tree has to be walked to its
end. Here each of them says so when it is used elsewhere, and nothing stands in for the missing result.

* `Misuse` — an operation is used where it has no result.
* `Checked.compileTree` — expands and prunes a tree, and stops at the first misuse.
* `Checked.bind_eq_ok`, `Checked.splice_eq_ok`, `Checked.prune_eq_ok` and others — the parts never stop.
* `Checked.compileTree_eq_ok` — neither does the whole, for any declared tree.
-/

namespace BidBook

/-- An operation is used where it has no result. -/
inductive Misuse where
  /-- The suit for a kind that the binding chooses none for. -/
  | unbound (kind : Wildcard)
  /-- A child without a token, since the text of one could not be read once it was bound. -/
  | noToken (raw : String)
  /-- The next step of a call that has none. -/
  | noStep (why : InvalidCall)
  /-- A state of an auction that cannot be judged. -/
  | unjudged (why : Auction.Setup.Obstacle)
  /-- A tree has more levels than are visited. -/
  | unfinished

namespace Checked

open Node

/-! ## Choices -/

/-- A position whose children and relay steps have been flattened, and the number of choices. -/
def gatherFlat (c : Content) (choices : Nat) (level : List (Token × Node × Nat)) (steps : List (Node × Nat)) :
    Node × Nat :=
  (mk c (steps.map (·.1)) (level.map fun e => (e.1, e.2.1)),
    choices + (level.map (·.2.2)).sum + (steps.map (·.2)).sum)

/-- `Node.flattenFuel`, which has to reach the last level. -/
def flatten : Nat → Node → Except Misuse (Node × Nat)
  | 0, _ => .error .unfinished
  | fuel + 1, mk c ss cs => do
    let level ← (flattenLevel cs).mapM fun e => (flatten fuel e.2).map fun out => (e.1, out)
    let steps ← ss.mapM (flatten fuel)
    return gatherFlat c (choiceCount cs) level steps

theorem ok_bind {α β : Type} (a : α) (f : α → Except Misuse β) : (Except.ok a >>= f) = f a := rfl

/-- What works on every member of a list works on the list. -/
theorem mapM_eq_ok {α β : Type} {f : α → Except Misuse β} {g : α → β} {xs : List α}
    (each : ∀ x ∈ xs, f x = .ok (g x)) : xs.mapM f = .ok (xs.map g) := by
  induction xs with
  | nil => rfl
  | cons x xs ih =>
    rw [List.forall_mem_cons] at each
    rw [List.mapM_cons, each.1, ok_bind, ih each.2]
    rfl

theorem flatten_eq_ok {fuel : Nat} {n : Node} (bound : n.height ≤ fuel) :
    flatten fuel n = .ok (flattenFuel fuel n) := by
  induction fuel generalizing n with
  | zero =>
    have := height_pos n
    omega
  | succ fuel ih =>
    rw [height_le_succ_iff] at bound
    obtain ⟨c, ss, cs⟩ := n
    have level : ((flattenLevel cs).mapM fun e => (flatten fuel e.2).map fun out => (e.1, out)) =
        .ok ((flattenLevel cs).map fun e => (e.1, flattenFuel fuel e.2)) :=
      mapM_eq_ok fun e member => by rw [ih (height_le_of_mem_flattenLevel bound.2 e member)]; rfl
    have steps : ss.mapM (flatten fuel) = .ok (ss.map (flattenFuel fuel)) :=
      mapM_eq_ok fun s member => ih (bound.1 s member)
    rw [flatten, level, steps]
    rfl

/-! ## Open suits -/

def suit (b : Binding) (w : Wildcard) : Except Misuse String :=
  match b.suit? w with
  | some suit => .ok suit
  | none => .error (.unbound w)

/-- `Node.injected`, for which every kind in the token needs a suit. -/
def injected (b : Binding) : Option Token → Except Misuse (List Shorthand)
  | none => .ok []
  | some t =>
    if t.wildcard?.isSome then do
      let given ← (Token.kinds t.raw).mapM fun w => (suit b w).map (Binding.shorthandsFor w)
      return given.flatten
    else .ok []

/-- `Node.bindToken`, whose text has to be read as a token again. -/
def bindToken (b : Binding) (t : Token) : Except Misuse Token :=
  if t.wildcard?.isSome then
    match Token.parse? (Token.bind b.suit? t.raw) with
    | some u => .ok u
    | none => .error (.noToken t.raw)
  else .ok t

mutual

/-- `Node.bind`, with shorthands and tokens that have to exist. -/
def bind (b : Binding) (above : List Glossary) (token : Option Token) : Node → Except Misuse Node
  | mk c ss cs => do
    let glossary := inject above c.glossary (← injected b token)
    let steps ← bindSteps b ss
    let children ← bindChildren b (glossary :: above) cs []
    return mk { c.forget with glossary } steps children

def bindSteps (b : Binding) : List Node → Except Misuse (List Node)
  | [] => .ok []
  | n :: rest => do return (← bind b [] none n) :: (← bindSteps b rest)

def bindChildren (b : Binding) (above : List Glossary) :
    List (Token × Node) → List (Token × Node) → Except Misuse (List (Token × Node))
  | [], done => .ok done
  | (t, n) :: rest, done => do
    let n ← bind b above (some t) n
    let t ← bindToken b t
    bindChildren b above rest (placeCandidate done (t, n))

end

def expandWildcards (settings : ExpansionSettings) (n : Node) : Except Misuse (Node × Nat) :=
  if Wildcard.all.any (n.mentions none) then do
    let copies ← (Binding.enumerate settings (n.mentions none)).mapM fun b => bind b [] none n
    match copies with
    | [] => return (n, 0)
    | copies =>
      return (copies.foldl (fun target copy => mergeInto copy target) (mk n.content [] []), copies.length)
  else .ok (n, 0)

variable {b : Binding} {occurs : Wildcard → Bool}

theorem injected_eq_ok {token : Option Token} (bound : ∀ w, occurs w = true → ∃ s, b.suit? w = some s)
    (within : ∀ t, token = some t → t.Within occurs) : injected b token = .ok (Node.injected b token) := by
  cases token with
  | none => rfl
  | some t =>
    cases wildcard : t.wildcard?.isSome with
    | false => simp [injected, Node.injected, wildcard]
    | true =>
      have given : ((Token.kinds t.raw).mapM fun w => (suit b w).map (Binding.shorthandsFor w)) =
          .ok ((Token.kinds t.raw).map b.shorthands) := by
        refine mapM_eq_ok fun w member => ?_
        have here : w ∈ Token.wildcardsIn t.raw := by
          simpa [Token.kinds, Wildcard.mem_all] using member
        obtain ⟨s, chosen⟩ := bound w ((within t rfl).2 w here)
        simp [suit, Binding.shorthands, chosen, Except.map]
      rw [injected, if_pos wildcard, given, Node.injected, if_pos wildcard, List.flatMap_def]
      rfl

theorem bindToken_eq_ok {t : Token} (written : t.Written) (b : Binding) :
    bindToken b t = .ok (Node.bindToken b t) := by
  rcases Node.bindToken_eq written b with ⟨known, same⟩ | ⟨w, wildcard, read⟩
  · simp [bindToken, known, same]
  · simp [bindToken, wildcard, read]

theorem bindSteps_eq_ok {ss : List Node} (each : ∀ s ∈ ss, bind b [] none s = .ok (s.bind b [] none)) :
    bindSteps b ss = .ok (Node.bindSteps b ss) := by
  induction ss with
  | nil => rfl
  | cons s ss ih =>
    rw [List.forall_mem_cons] at each
    rw [bindSteps, each.1, ih each.2]
    rfl

theorem bindChildren_eq_ok {above : List Glossary} {cs : List (Token × Node)}
    (tokens : ∀ e ∈ cs, e.1.Written)
    (each : ∀ e ∈ cs, bind b above (some e.1) e.2 = .ok (e.2.bind b above (some e.1)))
    (done : List (Token × Node)) :
    bindChildren b above cs done = .ok (Node.bindChildren b above cs done) := by
  induction cs generalizing done with
  | nil => rfl
  | cons e cs ih =>
    rw [List.forall_mem_cons] at tokens each
    rw [bindChildren, each.1, bindToken_eq_ok tokens.1]
    exact ih tokens.2 each.2 _

/-- A tree is bound without misuse if the binding chooses a suit for every kind in it. -/
theorem bind_eq_ok (bound : ∀ w, occurs w = true → ∃ s, b.suit? w = some s) {n : Node}
    (tidy : Throughout (Tidy (Token.Within occurs)) n) (above : List Glossary) {token : Option Token}
    (within : ∀ t, token = some t → t.Within occurs) :
    bind b above token n = .ok (n.bind b above token) := by
  induction tidy generalizing above token with
  | @mk n here _ _ steps children =>
    obtain ⟨c, ss, cs⟩ := n
    have stepsOk : bindSteps b ss = .ok (Node.bindSteps b ss) :=
      bindSteps_eq_ok fun s member => steps s member [] fun _ eq => nomatch eq
    have childrenOk (above : List Glossary) :
        bindChildren b above cs [] = .ok (Node.bindChildren b above cs []) :=
      bindChildren_eq_ok (fun e member => (here.tokens e member).1)
        (fun e member => children e member above fun _ eq => Option.some.inj eq ▸ here.tokens e member) []
    rw [bind, injected_eq_ok bound within, ok_bind, stepsOk, ok_bind, childrenOk]
    rfl

/-- Every kind that occurs in a tree is chosen for by the bindings of the tree. -/
theorem expandWildcards_eq_ok (settings : ExpansionSettings) {n : Node}
    (tidy : Throughout (Tidy Token.Written) n) :
    expandWildcards settings n = .ok (n.expandWildcards settings [] none) := by
  unfold expandWildcards Node.expandWildcards wildcardAlternatives
  cases Wildcard.all.any (n.mentions none) with
  | false => rfl
  | true =>
    have copies : ((Binding.enumerate settings (n.mentions none)).mapM fun b => bind b [] none n) =
        .ok ((Binding.enumerate settings (n.mentions none)).map fun b => n.bind b [] none) :=
      mapM_eq_ok fun b member => bind_eq_ok (fun w => Binding.suit?_isSome_of_mem_enumerate member)
        (tidy.within fun w => mentions_none.2) [] fun _ eq => nomatch eq
    rw [if_pos rfl, if_pos rfl, copies, ok_bind]
    cases Binding.enumerate settings (n.mentions none) with
    | nil => rfl
    | cons b bs =>
      simp only [List.map_cons, List.foldl_cons, List.foldl_map, List.length_cons, List.length_map]
      rfl

/-! ## Relay steps -/

def lastContract? (keys : List Key) : Option Call :=
  ((keys.filterMap Key.call?).filter Call.isContract).getLast?

/-- The call of a relay step: the cheapest bid, or the next step of the last contract. -/
def stepAbove? : Option Call → Except Misuse (Option Call)
  | none => .ok (some (.bid .lowest))
  | some c => (c.nextStep.map (Option.map Call.bid)).mapError .noStep

/-- `Node.attachSteps`, with a last contract that may be any call. -/
def attachSteps (alertable : Bool) : Option Call → List Node → List (Token × Node) →
    Except Misuse (List (Token × Node) × Nat)
  | _, [], cs => .ok (cs, 0)
  | last, step :: rest, cs => do
    match ← stepAbove? last with
    | none => return (cs, 0)
    | some c =>
      let t := Token.ofCall c
      let child := (mergeInto step (childOrNew t cs)).mapContent fun c =>
        { c with alertable := c.alertable || alertable }
      let (cs, attached) ← attachSteps alertable (some c) rest (putChild t child cs)
      return (cs, attached + 1)

/-- A position with relay steps attached to it and below it, and what is reported. -/
def gatherSpliced (path : List Place) (c : Content) (steps attached : Nat)
    (below : List (Token × Node × Nat × List Event)) : Node × Nat × List Event :=
  let dropped := steps - attached
  let warnings :=
    if dropped = 0 then [] else [Event.stepsDropped (pathText "-" (Place.keys path)) dropped]
  (mk c [] (below.map fun e => (e.1, e.2.1)),
    attached + (below.map (·.2.2.1)).sum,
    warnings ++ below.flatMap (·.2.2.2))

/-- `Node.spliceFuel`, which has to reach the last level. -/
def splice (alertable : Bool) : Nat → List Place → Node → Except Misuse (Node × Nat × List Event)
  | 0, _, _ => .error .unfinished
  | fuel + 1, path, mk c ss cs => do
    let (cs', attached) ← attachSteps alertable (lastContract? (Place.keys path)) ss cs
    let below ← cs'.mapM fun e =>
      (splice alertable fuel (e.2.place (some e.1) :: path) e.2).map fun out => (e.1, out)
    return gatherSpliced path c ss.length attached below

/-- The last contract of a position, as a call among its keys. -/
theorem lastContract?_keys (places : List Place) :
    lastContract? (Place.keys places) = (Place.lastBid? places).map .bid := by
  rw [lastContract?, Place.keys, List.filterMap_reverse, List.filter_reverse, List.getLast?_reverse,
    Place.lastBid?]
  -- the keys stand from the root on, the places nearest first
  induction places with
  | nil => rfl
  | cons p places ih =>
    obtain ⟨token, glossary⟩ := p
    cases token with
    | none => exact ih
    | some t =>
      cases call : t.call? with
      | none => simpa [Place.key?, Token.key, call, Key.call?] using ih
      | some c =>
        cases c with
        | bid b => simp [Place.key?, Token.key, call, Key.call?, Call.isContract, Call.bid?]
        | _ => simpa [Place.key?, Token.key, call, Key.call?, Call.isContract, Call.bid?] using ih

theorem stepAbove?_bid (last : Option Bid) :
    stepAbove? (last.map .bid) = .ok ((Bid.above? last).map .bid) := by
  cases last <;> rfl

/-- A next step is only asked of contracts. -/
theorem attachSteps_eq_ok (alertable : Bool) (last : Option Bid) (ss : List Node)
    (cs : List (Token × Node)) :
    attachSteps alertable (last.map .bid) ss cs = .ok (Node.attachSteps alertable last ss cs) := by
  induction ss generalizing last cs with
  | nil => rfl
  | cons s ss ih =>
    rw [attachSteps, stepAbove?_bid, Node.attachSteps]
    cases Bid.above? last with
    | none => rfl
    | some b =>
      have later := ih (some b)
      rw [Option.map_some] at later
      rw [ok_bind, Option.map_some]
      dsimp only
      rw [later]
      rfl

/-- A relay step after a pass would be noticed. -/
example : stepAbove? (some .pass) = .error (.noStep (.noNextStep .pass)) := rfl

theorem splice_eq_ok {alertable : Bool} {fuel : Nat} {path : List Place} {n : Node}
    (bound : n.height ≤ fuel) : splice alertable fuel path n = .ok (spliceFuel alertable fuel path n) := by
  induction fuel generalizing n path with
  | zero =>
    have := height_pos n
    omega
  | succ fuel ih =>
    have low : ∀ e ∈ (Node.attachSteps alertable (Place.lastBid? path) n.steps n.children).1,
        e.2.height ≤ fuel := height_attachSteps_le bound
    obtain ⟨c, ss, cs⟩ := n
    have below : ((Node.attachSteps alertable (Place.lastBid? path) ss cs).1.mapM fun e =>
          (splice alertable fuel (e.2.place (some e.1) :: path) e.2).map fun out => (e.1, out)) =
        .ok ((Node.attachSteps alertable (Place.lastBid? path) ss cs).1.map fun e =>
          (e.1, spliceFuel alertable fuel (e.2.place (some e.1) :: path) e.2)) :=
      mapM_eq_ok fun e member => by rw [ih (low e member)]; rfl
    rw [splice, lastContract?_keys, attachSteps_eq_ok, ok_bind]
    dsimp only
    rw [below]
    rfl

/-! ## Pruning -/

def judgeAll : Auction.Setup → List Call → Except Auction.Setup.Obstacle Bool
  | _, [] => .ok true
  | s, c :: rest => do
    match ← s.after? c with
    | none => return false
    | some s => judgeAll s rest

/-- `Auction.isLegal`, which has to be able to judge every call. -/
def isLegal (calls : List Call) : Except Misuse Bool :=
  (judgeAll ⟨0, none, none⟩ calls).mapError .unjudged

/-- `Removal.reason?`, for which the auction has to be judged. -/
def reason? (settings : PruningSettings) (path : List Place) (t : Token) (n : Node) :
    Except Misuse (Option Removal) :=
  match Place.auction? path with
  | none => .ok (some (if Token.isConcrete t.raw then .unresolved else .unexpanded))
  | some calls => do
    let legal ← if settings.illegal then isLegal calls else .ok true
    return if !legal then some .illegal
      else if settings.empty && n.isEmpty then some .empty
      else none

mutual

/-- `Node.prune`, for which every auction has to be judged. -/
def prune (settings : PruningSettings) (path : List Place) : Node → Except Misuse (Node × Nat × List Event)
  | mk c ss cs => do
    let (cs, removed, events) ← pruneChildren settings path cs
    return (mk c ss cs, removed, events)

def pruneChildren (settings : PruningSettings) (path : List Place) :
    List (Token × Node) → Except Misuse (List (Token × Node) × Nat × List Event)
  | [] => .ok ([], 0, [])
  | (t, n) :: rest => do
    let here := n.place (some t) :: path
    let (n, removed, events) ← prune settings here n
    let reason ← reason? settings here t n
    let (kept, removed', events') ← pruneChildren settings path rest
    match reason with
    | none => return ((t, n) :: kept, removed + removed', events ++ events')
    | some reason =>
      return (kept, removed + n.size + removed',
        events ++ .pruned (pathText "-" (Place.keys here)) reason.word [] :: events')

end

/-- Where there is a contract, there is a last call other than a pass. -/
def Spoken (s : Auction.State) : Prop := s.highest.isSome = true → s.last.isSome = true

theorem Spoken.advance {s : Auction.State} (spoken : Spoken s) (c : Call) : Spoken (s.advance c) := by
  cases c with
  | pass => exact spoken
  | _ => exact fun _ => rfl

theorem Spoken.after? {s next : Auction.State} {c : Call} (spoken : Spoken s)
    (accepted : s.after? c = some next) : Spoken next := by
  rw [Auction.State.after?, Option.ite_none_right_eq_some] at accepted
  exact Option.some.inj accepted.2 ▸ spoken.advance c

theorem ofState_advance (s : Auction.State) (c : Call) :
    (Auction.Setup.ofState s).advance c = Auction.Setup.ofState (s.advance c) := by
  cases c <;> rfl

theorem after?_ofState {s : Auction.State} (spoken : Spoken s) (c : Call) :
    (Auction.Setup.ofState s).after? c = .ok ((s.after? c).map Auction.Setup.ofState) := by
  rw [Auction.Setup.after?, Auction.Setup.judge_ofState spoken, Auction.State.after?]
  cases s.accepts c with
  | false => rfl
  | true => exact congrArg (fun next => Except.ok (some next)) (ofState_advance s c)

theorem judgeAll_ofState {s : Auction.State} (spoken : Spoken s) (calls : List Call) :
    judgeAll (.ofState s) calls = .ok (s.run? calls).isSome := by
  induction calls generalizing s with
  | nil => rfl
  | cons c rest ih =>
    rw [judgeAll, after?_ofState spoken, Auction.State.run?_cons]
    cases accepted : s.after? c with
    | none => rfl
    | some next => exact ih (spoken.after? accepted)

/-- No auction reaches a state that cannot be judged. -/
theorem isLegal_eq_ok (calls : List Call) : isLegal calls = .ok (Auction.isLegal calls) := by
  have start : judgeAll ⟨0, none, none⟩ calls = .ok (Auction.isLegal calls) :=
    judgeAll_ofState (s := {}) (fun contract => nomatch contract) calls
  rw [isLegal, start]
  rfl

/-- A contract without a last call would be noticed. -/
example : judgeAll ⟨0, none, some (.bid .lowest)⟩ [.double] = .error .noLastCall := rfl

theorem reason?_eq_ok (settings : PruningSettings) (path : List Place) (t : Token) (n : Node) :
    reason? settings path t n = .ok (Removal.reason? settings path t n) := by
  unfold reason? Removal.reason?
  cases Place.auction? path with
  | none => rfl
  | some calls =>
    dsimp only
    rw [isLegal_eq_ok]
    cases settings.illegal <;> cases Auction.isLegal calls <;> rfl

theorem pruneChildren_eq_ok {settings : PruningSettings} {path : List Place} {cs : List (Token × Node)}
    (each : ∀ e ∈ cs, ∀ path, prune settings path e.2 = .ok (e.2.prune settings path)) :
    pruneChildren settings path cs = .ok (Node.pruneChildren settings path cs) := by
  induction cs with
  | nil => rfl
  | cons e cs ih =>
    rw [List.forall_mem_cons] at each
    rw [pruneChildren, Node.pruneChildren, each.1, ok_bind]
    dsimp only
    rw [reason?_eq_ok, ok_bind, ih each.2, ok_bind]
    cases Removal.reason? settings (e.2.place (some e.1) :: path) e.1
      (e.2.prune settings (e.2.place (some e.1) :: path)).1 <;> rfl

theorem prune_eq_ok (settings : PruningSettings) (path : List Place) (n : Node) :
    prune settings path n = .ok (n.prune settings path) := by
  induction n using Node.induction generalizing path with
  | position c ss cs _ children =>
    rw [prune, pruneChildren_eq_ok fun e member path => children e member path]
    rfl

/-! ## The whole compilation -/

/-- `Compiler.compileTree`, whose parts have to go without misuse. -/
def compileTree (settings : Settings) (n : Node) : Except Misuse Compiler.Output := do
  let flat ← flatten n.height n
  let bound ← expandWildcards settings.expansion flat.1
  let spliced ← splice settings.expansion.relayAlertable bound.1.height [bound.1.place none] bound.1
  let pruned ← prune settings.pruning [spliced.1.place none] spliced.1
  let report (stage counted : String) (count : Nat) : Event := .stage stage "" [(counted, .int count)]
  return {
    tree := pruned.1
    events := report "alternation" "flattened" flat.2 :: report "wildcards" "alternatives" bound.2
      :: spliced.2.2 ++ [report "steps" "spliced" spliced.2.1] ++ pruned.2.2
    counts := { declared := n.size, expanded := spliced.1.size, pruned := pruned.2.1 } }

/-- A declared tree is compiled without misuse. -/
theorem compileTree_eq_ok (settings : Settings) {n : Node} (declared : Throughout Declared n) :
    compileTree settings n = .ok (Compiler.compileTree settings n) := by
  have flat : flatten n.height n = .ok n.flatten := flatten_eq_ok (Nat.le_refl _)
  have bound : expandWildcards settings.expansion n.flatten.1 =
      .ok (n.flatten.1.expandWildcards settings.expansion [] none) :=
    expandWildcards_eq_ok _ (tidy_flatten_of_declared declared)
  rw [compileTree, flat, ok_bind, bound, ok_bind, splice_eq_ok (Nat.le_refl _), ok_bind, prune_eq_ok]
  rfl

end Checked

end BidBook
