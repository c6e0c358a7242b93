import BidBook.Proofs.Declarations

/-! # First mention and last description

A position is created by whatever mentions it first, be it on the way to another position, and has the
marks of the call that is written there. A description may be given later, under another call with the
same key: it replaces the one before it, but the marks stay.

* `firstMention?`, `lastDescription?`, `stepsAt` — what a list of declarations says about a position.
* `marks_runAll`, `description_runAll`, `steps_runAll` — that and nothing else comes of it.
* `Faithful`, `Follows` — a tree follows the declarations that made it, in its relay steps as well.
* `marked_build` — every declared tree does, with the call that a description stands under.
-/

namespace BidBook

namespace Node

/-! ## What a position says for itself -/

/-- The content and the relay steps at the end of a path. -/
def said (n : Node) (p : List Key) : Option (Content × List Node) :=
  (n.at? p).map fun m => (m.content, m.steps)

theorem said_nil (n : Node) : n.said [] = some (n.content, n.steps) := by
  rw [said, at?_nil, Option.map_some]

theorem said_cons (n : Node) (k : Key) (p : List Key) :
    n.said (k :: p) = (find? k n.children).bind fun c => c.said p := by
  rw [said, at?_cons, Option.map_bind]
  rfl

def unsaid (t : Token) : Content × List Node := (.ofToken t, [])

theorem said_ofToken (t : Token) (p : List Key) :
    (ofToken t).said p = if p = [] then some (unsaid t) else none := by
  cases p with
  | nil => rfl
  | cons k p => rw [said, at?_ofToken_cons, if_neg (by simp), Option.map_none]

/-- The token by which a path goes to a position, at its end or on the way. -/
def mention? : List Token → List Key → Option Token
  | t :: path, k :: p => if t.key = k then if p = [] then some t else mention? path p else none
  | _, _ => none

theorem said_childOrNew_or (n : Node) (t : Token) (path : List Token) (p : List Key) :
    ((childOrNew t n.children).said p).or ((mention? path p).map unsaid) =
      (n.said (t.key :: p)).or ((mention? (t :: path) (t.key :: p)).map unsaid) := by
  rw [said_cons, childOrNew, mention?, if_pos rfl]
  cases find? t.key n.children with
  | none =>
    rw [Option.getD_none, said_ofToken, Option.bind_none]
    cases p with
    | nil => rfl
    | cons k p => rfl
  | some c =>
    rw [Option.getD_some, Option.bind_some]
    cases p with
    | nil => rw [said_nil]; rfl
    | cons k p => rfl

theorem said_reach (n : Node) (path : List Token) :
    some ((n.reach path).content, (n.reach path).steps) =
      (n.said (path.map Token.key)).or ((mention? path (path.map Token.key)).map unsaid) := by
  induction path generalizing n with
  | nil => rw [List.map_nil, said_nil]; rfl
  | cons t path ih => rw [reach, ih, List.map_cons, said_childOrNew_or]

/-- Where something is put that has the same positions below it, the positions on the way are created
and nothing else happens. -/
theorem said_put {n new : Node} {path : List Token} (children : new.children = (n.reach path).children)
    (p : List Key) : (n.put path new).said p =
      if p = path.map Token.key then some (new.content, new.steps)
      else (n.said p).or ((mention? path p).map unsaid) := by
  induction path generalizing n p with
  | nil =>
    cases p with
    | nil => exact said_nil new
    | cons k p =>
      have same : new.said (k :: p) = n.said (k :: p) := by rw [said_cons, said_cons, children]; rfl
      rw [put, same]
      exact (Option.or_none).symm
  | cons t path ih =>
    cases p with
    | nil => rw [put, said_nil, said_nil]; rfl
    | cons k p =>
      rw [said_cons, find?_children_put]
      by_cases here : t.key = k
      · subst here
        rw [if_pos rfl, Option.bind_some, ih children, said_childOrNew_or, List.map_cons]
        simp only [List.cons.injEq, true_and]
      · have other : k :: p ≠ (t :: path).map Token.key := fun same =>
          here (List.cons.inj same).1.symm
        rw [if_neg here, if_neg other, mention?, if_neg here, Option.map_none, Option.or_none, said_cons]

end Node

namespace Document

open Node

/-! ## What declarations say about a position -/

/-- The description that is given, and the last call of the key it stands under. -/
def Declaration.description? : Declaration → Option (Option Token × String)
  | .describe under text => some (under, text)
  | _ => none

def Declaration.parts? : Declaration → Option (List (List Token × Declaration))
  | .step parts => some parts
  | _ => none

def declaredAt (ds : List (List Token × Declaration)) (p : List Key) : List Declaration :=
  (ds.filter fun e => e.1.map Token.key = p).map Prod.snd

/-- The token by which a position is mentioned first. -/
def firstMention? (ds : List (List Token × Declaration)) (p : List Key) : Option Token :=
  ds.findSome? fun e => mention? e.1 p

/-- The description that a position is given last. -/
def lastDescription? (ds : List (List Token × Declaration)) (p : List Key) :
    Option (Option Token × String) :=
  ((declaredAt ds p).filterMap Declaration.description?).getLast?

/-- The relay steps that a position is given. -/
def stepsAt (ds : List (List Token × Declaration)) (p : List Key) :
    List (List (List Token × Declaration)) :=
  (declaredAt ds p).filterMap Declaration.parts?

variable {ds : List (List Token × Declaration)} {a : Declaration} {path : List Token} {p : List Key}

theorem declaredAt_cons (path : List Token) (a : Declaration) (ds : List (List Token × Declaration))
    (p : List Key) : declaredAt ((path, a) :: ds) p =
      if path.map Token.key = p then a :: declaredAt ds p else declaredAt ds p := by
  rw [declaredAt, List.filter_cons]
  by_cases here : path.map Token.key = p <;> simp [here, declaredAt]

theorem lastDescription?_cons (path : List Token) (a : Declaration) (ds : List (List Token × Declaration))
    (p : List Key) : lastDescription? ((path, a) :: ds) p =
      (lastDescription? ds p).or (if path.map Token.key = p then a.description? else none) := by
  rw [lastDescription?, declaredAt_cons]
  split
  · rw [List.filterMap_cons]
    cases a.description? with
    | none => exact (Option.or_none).symm
    | some x => rw [List.getLast?_cons, lastDescription?]; cases List.getLast? _ <;> rfl
  · exact (Option.or_none).symm

/-! ## What comes of one declaration -/

/-- A relay step that comes of its declarations. -/
def DeclaredBy (parts : List (List Token × Declaration)) (s : Node) : Prop :=
  ∃ k, s = (runAll parts ⟨.mk {} [] [], k⟩).node

theorem children_run (a : Declaration) (d : Draft) : (a.run d).node.children = d.node.children := by
  obtain ⟨⟨c, ss, cs⟩, k⟩ := d
  cases a <;> rw [Declaration.run] <;> rfl

theorem marks_run (a : Declaration) (d : Draft) :
    (a.run d).node.content.marks = d.node.content.marks := by
  obtain ⟨⟨c, ss, cs⟩, k⟩ := d
  cases a <;> rw [Declaration.run] <;> rfl

theorem description_run (a : Declaration) (d : Draft) : (a.run d).node.content.description =
    (a.description?.map Prod.snd).or d.node.content.description := by
  obtain ⟨⟨c, ss, cs⟩, k⟩ := d
  cases a <;> rw [Declaration.run] <;> rfl

theorem exists_steps_run (a : Declaration) (d : Draft) : ∃ new,
    (a.run d).node.steps = d.node.steps ++ new ∧ List.Forall₂ DeclaredBy a.parts?.toList new := by
  obtain ⟨⟨c, ss, cs⟩, k⟩ := d
  cases a with
  | step parts =>
    rw [Declaration.run]
    exact ⟨_, rfl, .cons ⟨k, rfl⟩ .nil⟩
  | visit | entry | describe _ _ | define _ =>
    rw [Declaration.run]
    exact ⟨[], (List.append_nil _).symm, .nil⟩

/-- What a position says after a declaration at the end of a path is what it said before, or what the path
creates there; at its end the declaration is carried out. -/
theorem said_declared (path : List Token) (a : Declaration) (d : Draft) (p : List Key) :
    ∃ after, (d.node.put path (a.run ⟨d.node.reach path, d.declared⟩).node).said p = after ∧
      ((path.map Token.key ≠ p ∧ after = (d.node.said p).or ((mention? path p).map unsaid)) ∨
        (path.map Token.key = p ∧ ∃ x : Draft,
          (d.node.said p).or ((mention? path p).map unsaid) = some (x.node.content, x.node.steps) ∧
            after = some ((a.run x).node.content, (a.run x).node.steps))) := by
  refine ⟨_, said_put (children_run a ⟨d.node.reach path, d.declared⟩) p, ?_⟩
  by_cases here : path.map Token.key = p
  · subst here
    exact .inr ⟨rfl, _, (said_reach d.node path).symm, if_pos rfl⟩
  · exact .inl ⟨here, if_neg fun same => here same.symm⟩

/-! ## What comes of many declarations -/

/-- The marks of a new position are those of its first mention, and no declaration changes any. -/
theorem marks_runAll (ds : List (List Token × Declaration)) (d : Draft) (p : List Key) :
    ((runAll ds d).node.said p).map (fun x => x.1.marks) =
      ((d.node.said p).map fun x => x.1.marks).or ((firstMention? ds p).map Token.marks) := by
  induction ds generalizing d with
  | nil => exact (Option.or_none).symm
  | cons e rest ih =>
    obtain ⟨path, a⟩ := e
    have first : firstMention? ((path, a) :: rest) p = (mention? path p).or (firstMention? rest p) := by
      rw [firstMention?, List.findSome?_cons]
      cases mention? path p <;> rfl
    have kept : ((d.node.said p).or ((mention? path p).map unsaid)).map (fun x => x.1.marks) =
        ((d.node.said p).map fun x => x.1.marks).or ((mention? path p).map Token.marks) := by
      rw [Option.map_or, Option.map_map]
      rfl
    rw [runAll, ih, first, Option.map_or, ← Option.or_assoc, ← kept]
    dsimp only
    obtain ⟨after, said, ⟨_, same⟩ | ⟨_, x, before, same⟩⟩ := said_declared path a d p
    · rw [said, same]
    · rw [said, same, before, Option.map_some, Option.map_some, marks_run]

/-- The description is the one that was given last. -/
theorem description_runAll (ds : List (List Token × Declaration)) (d : Draft) (p : List Key) :
    ((runAll ds d).node.said p).bind (fun x => x.1.description) =
      ((lastDescription? ds p).map Prod.snd).or ((d.node.said p).bind fun x => x.1.description) := by
  induction ds generalizing d with
  | nil => rfl
  | cons e rest ih =>
    obtain ⟨path, a⟩ := e
    have kept : ((d.node.said p).or ((mention? path p).map unsaid)).bind (fun x => x.1.description) =
        (d.node.said p).bind fun x => x.1.description := by
      cases d.node.said p with
      | none => cases mention? path p <;> rfl
      | some x => rfl
    rw [runAll, ih, lastDescription?_cons, Option.map_or, Option.or_assoc]
    dsimp only
    congr 1
    obtain ⟨after, said, ⟨elsewhere, same⟩ | ⟨here, x, before, same⟩⟩ := said_declared path a d p
    · rw [said, same, kept, if_neg elsewhere]
      rfl
    · rw [said, same, if_pos here, ← kept, before, Option.bind_some, Option.bind_some, description_run]

/-- The relay steps are those that were given, in their order. -/
theorem steps_runAll (ds : List (List Token × Declaration)) (d : Draft) (p : List Key) : ∃ new,
    (((runAll ds d).node.said p).map Prod.snd).getD [] = ((d.node.said p).map Prod.snd).getD [] ++ new ∧
      List.Forall₂ DeclaredBy (stepsAt ds p) new := by
  induction ds generalizing d with
  | nil => exact ⟨[], (List.append_nil _).symm, .nil⟩
  | cons e rest ih =>
    obtain ⟨path, a⟩ := e
    have kept : (((d.node.said p).or ((mention? path p).map unsaid)).map Prod.snd).getD [] =
        ((d.node.said p).map Prod.snd).getD [] := by
      cases d.node.said p with
      | none => cases mention? path p <;> rfl
      | some x => rfl
    rw [runAll]
    obtain ⟨later, steps, declared⟩ := ih ⟨d.node.put path (a.run ⟨d.node.reach path, d.declared⟩).node,
      (a.run ⟨d.node.reach path, d.declared⟩).declared⟩
    rw [steps, stepsAt, declaredAt_cons]
    dsimp only
    obtain ⟨after, said, ⟨elsewhere, same⟩ | ⟨here, x, before, same⟩⟩ := said_declared path a d p
    · rw [said, same, kept, if_neg elsewhere]
      exact ⟨later, rfl, declared⟩
    · obtain ⟨new, given, first⟩ := exists_steps_run a x
      rw [said, same, if_pos here, ← kept, before, Option.map_some, Option.map_some, Option.getD_some,
        Option.getD_some, given, List.append_assoc]
      refine ⟨new ++ later, rfl, ?_⟩
      have split : (a :: declaredAt rest p).filterMap Declaration.parts? =
          a.parts?.toList ++ stepsAt rest p := by
        rw [List.filterMap_cons, stepsAt]
        cases a.parts? <;> rfl
      rw [split]
      exact List.rel_append first declared

/-! ## Declared trees -/

/-- A tree holds what a list of declarations says about it. -/
structure Faithful (ds : List (List Token × Declaration)) (n : Node) : Prop where
  /-- The marks of a position are those of its first mention. -/
  marked : ∀ p m, p ≠ [] → n.at? p = some m →
    ∃ t, firstMention? ds p = some t ∧ m.content.marks = t.marks
  /-- Its description is the last one that was given. -/
  described : ∀ p m, n.at? p = some m → m.content.description = (lastDescription? ds p).map Prod.snd
  /-- It has the relay steps that were given. -/
  stepped : ∀ p m, n.at? p = some m → m.steps.length = (stepsAt ds p).length

/-- A relation holds between a list of declarations and a tree, and between those of each relay step and the
step, however deep they lie. -/
inductive Follows (R : List (List Token × Declaration) → Node → Prop) :
    List (List Token × Declaration) → Node → Prop where
  | mk {ds : List (List Token × Declaration)} {n : Node} (here : R ds n)
      (steps : ∀ (p : List Key) (m : Node) (i : Nat) (s : Node) (parts : List (List Token × Declaration)),
        n.at? p = some m → m.steps[i]? = some s → (stepsAt ds p)[i]? = some parts → Follows R parts s) :
      Follows R ds n

theorem said_of_at? {n m : Node} (found : n.at? p = some m) : n.said p = some (m.content, m.steps) := by
  rw [said, found, Option.map_some]

theorem said_leaf (c : Content) (p : List Key) :
    (Node.mk c [] []).said p = if p = [] then some (c, []) else none := by
  cases p with
  | nil => rfl
  | cons k p => rw [said_cons]; rfl

variable {c : Content}

/-- The relay steps of a position come of the declarations that were given for them. -/
theorem steps_of_at?_runAll {m : Node} {k : Nat}
    (found : (runAll ds ⟨.mk c [] [], k⟩).node.at? p = some m) :
    List.Forall₂ DeclaredBy (stepsAt ds p) m.steps := by
  obtain ⟨new, steps, declared⟩ := steps_runAll ds ⟨.mk c [] [], k⟩ p
  have none_before : (((Node.mk c [] []).said p).map Prod.snd).getD [] = [] := by
    rw [said_leaf]
    split <;> rfl
  rw [said_of_at? found, none_before, Option.map_some, Option.getD_some, List.nil_append] at steps
  rwa [← show m.steps = new from steps] at declared

theorem faithful_runAll (undescribed : c.description = none) (ds : List (List Token × Declaration))
    (k : Nat) : Faithful ds (runAll ds ⟨.mk c [] [], k⟩).node where
  marked p m below found := by
    have marks := marks_runAll ds ⟨.mk c [] [], k⟩ p
    rw [said_of_at? found, said_leaf, if_neg below, Option.map_none, Option.none_or, Option.map_some,
      eq_comm, Option.map_eq_some_iff] at marks
    obtain ⟨t, first, same⟩ := marks
    exact ⟨t, first, same.symm⟩
  described p m found := by
    have description := description_runAll ds ⟨.mk c [] [], k⟩ p
    have none_before : ((Node.mk c [] []).said p).bind (fun x => x.1.description) = none := by
      rw [said_leaf]
      split
      · exact undescribed
      · rfl
    rwa [said_of_at? found, none_before, Option.or_none, Option.bind_some] at description
  stepped p m found := (steps_of_at?_runAll found).length_eq.symm

theorem sizeOf_lt_of_mem_stepsAt {parts : List (List Token × Declaration)}
    (member : parts ∈ stepsAt ds p) : sizeOf parts < sizeOf ds := by
  obtain ⟨a, given, isStep⟩ := List.mem_filterMap.1 member
  obtain ⟨⟨path, a⟩, place, rfl⟩ := List.mem_map.1 given
  have smaller := List.sizeOf_lt_of_mem (List.mem_of_mem_filter place)
  cases a with
  | step parts =>
    cases isStep
    simp only [Prod.mk.sizeOf_spec, Declaration.step.sizeOf_spec] at smaller
    omega
  | visit | entry | describe _ _ | define _ => cases isStep

/-- What comes of declarations is faithful to them, relay steps included. -/
theorem follows_runAll {c : Content} (undescribed : c.description = none)
    (ds : List (List Token × Declaration)) (k : Nat) :
    Follows Faithful ds (runAll ds ⟨.mk c [] [], k⟩).node := by
  refine .mk (faithful_runAll undescribed ds k) fun p m i s parts found step given => ?_
  have declared := (List.forall₂_iff_get.1 (steps_of_at?_runAll found)).2
  obtain ⟨early, rfl⟩ := List.getElem?_eq_some_iff.1 given
  obtain ⟨present, rfl⟩ := List.getElem?_eq_some_iff.1 step
  obtain ⟨k', same⟩ := declared i early present
  have smaller : sizeOf (stepsAt ds p)[i] < sizeOf ds := sizeOf_lt_of_mem_stepsAt (List.getElem_mem early)
  rw [List.get_eq_getElem, List.get_eq_getElem] at same
  rw [same]
  exact follows_runAll rfl _ k'
termination_by sizeOf ds

/-! ## Keys of descriptions -/

/-- A declaration below an entry whose key ends with the call `under`: a description stands under the last
call of its own path, or else under that of the entry. -/
inductive Keyed : Option Token → List Token × Declaration → Prop where
  | visit (under : Option Token) (path : List Token) : Keyed under (path, .visit)
  | entry (under : Option Token) (path : List Token) : Keyed under (path, .entry)
  | bare (under : Option Token) (path : List Token) (text : String) : Keyed under (path, .describe none text)
  | describe (under : Option Token) (path : List Token) (text : String) :
      Keyed under (path, .describe (path.getLast?.or under) text)
  | define (under : Option Token) (path : List Token) (ss : List Shorthand) : Keyed under (path, .define ss)
  | step (under : Option Token) (path : List Token) {parts : List (List Token × Declaration)}
      (keyed : ∀ e ∈ parts, Keyed none e) : Keyed under (path, .step parts)

variable {under : Option Token}

theorem Keyed.after {lead : List Token} {e : List Token × Declaration}
    (keyed : Keyed (lead.getLast?.or under) e) : Keyed under (lead ++ e.1, e.2) := by
  cases keyed with
  | visit _ path => exact .visit _ _
  | entry _ path => exact .entry _ _
  | bare _ path text => exact .bare _ _ _
  | describe _ path text =>
    rw [← Option.or_assoc, ← List.getLast?_append]
    exact .describe _ _ _
  | define _ path ss => exact .define _ _ _
  | step _ path keyed => exact .step _ _ keyed

/-- What stands under no call of an entry may stand in any. -/
theorem Keyed.weaken {e : List Token × Declaration} (keyed : Keyed none e) (under : Option Token) :
    Keyed under e := by
  cases keyed with
  | visit _ path => exact .visit _ _
  | entry _ path => exact .entry _ _
  | bare _ path text => exact .bare _ _ _
  | describe _ path text =>
    have described := Keyed.describe under path text
    cases last : path.getLast? with
    | none => exact .bare _ _ _
    | some u => rwa [last] at described
  | define _ path ss => exact .define _ _ _
  | step _ path keyed => exact .step _ _ keyed

theorem keyed_below {lead : List Token} (keyed : ∀ e ∈ ds, Keyed (lead.getLast?.or under) e) :
    ∀ e ∈ below lead ds, Keyed under e := by
  rw [below, List.forall_mem_map]
  exact fun e member => (keyed e member).after

theorem keyed_ofSequence {implied : Bool} {text : String}
    {said : Option Token → List (List Token × Declaration)}
    (keyed : ∀ under, ∀ e ∈ said under, Keyed under e) :
    ∀ e ∈ ofSequence implied text said, Keyed under e := by
  refine keyed_below (List.forall_mem_cons.2 ⟨.entry _ _, fun e member => ?_⟩)
  have inner := keyed _ e member
  rw [List.getLast?_append]
  cases last : (Sequence.tokens text).getLast? with
  | none =>
    rw [last] at inner
    exact inner.weaken _
  | some u => rwa [last] at inner

theorem keyed_ofSequences {implied : Bool} {texts : List String}
    {said : Option Token → List (List Token × Declaration)}
    (keyed : ∀ under, ∀ e ∈ said under, Keyed under e) :
    ∀ e ∈ texts.flatMap fun text => ofSequence implied text said, Keyed under e :=
  List.forall_mem_flatMap.2 fun _ _ => keyed_ofSequence keyed

theorem keyed_ofSteps {implied : Bool} {steps : List (List (List Token × Declaration))}
    (keyed : ∀ parts ∈ steps, ∀ e ∈ parts, Keyed none e) : ∀ e ∈ ofSteps implied steps, Keyed under e := by
  refine keyed_below (List.forall_mem_cons.2 ⟨.visit _ _, ?_⟩)
  rw [List.forall_mem_map]
  exact fun parts member => .step _ _ (keyed parts member)

mutual

theorem keyed_ofEntries (entries : List (Value × Value)) (implied : Bool) (under : Option Token) :
    ∀ e ∈ ofEntries implied under entries, Keyed under e := by
  match entries with
  | [] => exact fun e member => nomatch member
  | (key, value) :: rest =>
    rw [ofEntries, List.forall_mem_append]
    refine ⟨?_, keyed_ofEntries rest implied under⟩
    cases role? key with
    | none => exact fun e member => nomatch member
    | some role => exact keyed_ofValue value implied under role
termination_by sizeOf entries

theorem keyed_ofValue (value : Value) (implied : Bool) (under : Option Token) (role : Role) :
    ∀ e ∈ ofValue implied under role value, Keyed under e := by
  match value with
  | .map entries =>
    cases role with
    | definitions => exact List.forall_mem_singleton.2 (.define _ _ _)
    | scope implied key => exact keyed_ofEntries entries implied under
    | steps _ _ | description => exact fun e member => nomatch member
    | sequences texts =>
      exact keyed_ofSequences fun under => keyed_ofEntries entries true under
  | .list items | .tuple items =>
    cases role with
    | steps implied key => exact keyed_ofSteps (keyed_ofItems items)
    | definitions | scope _ _ | description | sequences _ => exact fun e member => nomatch member
  | .bytes bs =>
    cases role with
    | steps implied key =>
      refine keyed_ofSteps ?_
      rw [List.forall_mem_map]
      exact fun b _ => List.forall_mem_singleton.2 (.bare _ _ _)
    | definitions | scope _ _ | description | sequences _ => exact fun e member => nomatch member
  | .null =>
    cases role with
    | definitions => exact List.forall_mem_singleton.2 (.define _ _ _)
    | scope _ _ | steps _ _ | description => exact fun e member => nomatch member
    | sequences texts =>
      exact keyed_ofSequences fun under e member => nomatch member
  | .bool _ | .int _ | .float _ | .text _ | .date _ =>
    cases role with
    | definitions | scope _ _ | steps _ _ => exact fun e member => nomatch member
    | description => exact List.forall_mem_singleton.2 (.describe _ _ _)
    | sequences texts =>
      exact keyed_ofSequences fun under => List.forall_mem_singleton.2 (.describe _ _ _)
termination_by sizeOf value

theorem keyed_ofItems (items : List Value) : ∀ parts ∈ ofItems items, ∀ e ∈ parts, Keyed none e := by
  match items with
  | [] => exact fun parts member => nomatch member
  | item :: rest =>
    rw [ofItems, List.forall_mem_cons]
    refine ⟨?_, keyed_ofItems rest⟩
    match item with
    | .map entries => exact keyed_ofEntries entries true none
    | .null | .bool _ | .int _ | .float _ | .text _ | .bytes _ | .date _ | .list _ | .tuple _ =>
      exact List.forall_mem_singleton.2 (.bare _ _ _)
termination_by sizeOf items

end

theorem keyed_declarations (document : Value) : ∀ e ∈ declarations document, Keyed none e := by
  cases document with
  | map entries => exact keyed_ofEntries entries false none
  | null | bool _ | int _ | float _ | text _ | bytes _ | date _ | list _ | tuple _ =>
    exact fun e member => nomatch member

theorem getLast?_of_lastDescription? {u : Token} {text : String} (keyed : ∀ e ∈ ds, Keyed none e)
    (last : lastDescription? ds p = some (some u, text)) : p.getLast? = some u.key := by
  obtain ⟨a, given, described⟩ := List.mem_filterMap.1 (List.mem_of_getLast? last)
  obtain ⟨⟨path, a⟩, place, rfl⟩ := List.mem_map.1 given
  obtain ⟨member, there⟩ := List.mem_filter.1 place
  cases keyed _ member with
  | describe _ _ _ =>
    rw [Declaration.description?, Option.some.injEq, Prod.mk.injEq, Option.or_none] at described
    rw [← of_decide_eq_true there, List.getLast?_map, described.1]
    rfl
  | visit _ _ | entry _ _ | bare _ _ _ | define _ _ _ | step _ _ _ => cases described

theorem keyed_of_mem_stepsAt {parts : List (List Token × Declaration)} (keyed : ∀ e ∈ ds, Keyed none e)
    (member : parts ∈ stepsAt ds p) : ∀ e ∈ parts, Keyed none e := by
  obtain ⟨a, given, isStep⟩ := List.mem_filterMap.1 member
  obtain ⟨⟨path, a⟩, place, rfl⟩ := List.mem_map.1 given
  cases keyed _ (List.mem_of_mem_filter place) with
  | step _ _ keyed =>
    cases isStep
    exact keyed
  | visit _ _ | entry _ _ | bare _ _ _ | describe _ _ _ | define _ _ _ => cases isStep

/-! ## Marks and descriptions -/

/-- A tree holds what a list of declarations says about it, and wherever the description was given under a
call, that call leads to the position, which has its marks if and only if the call by which the position
was first mentioned has the same. -/
structure Marked (ds : List (List Token × Declaration)) (n : Node) : Prop extends Faithful ds n where
  agree_iff : ∀ p m u text, n.at? p = some m → lastDescription? ds p = some (some u, text) →
    p.getLast? = some u.key ∧
      (m.content.marks = u.marks ↔ ∃ t, firstMention? ds p = some t ∧ t.marks = u.marks)

theorem Faithful.toMarked {n : Node} (faithful : Faithful ds n) (keyed : ∀ e ∈ ds, Keyed none e) :
    Marked ds n where
  toFaithful := faithful
  agree_iff p m u text found last := by
    have leads := getLast?_of_lastDescription? keyed last
    have below : p ≠ [] := by
      rintro rfl
      cases leads
    obtain ⟨t, first, marks⟩ := faithful.marked p m below found
    refine ⟨leads, ?_⟩
    rw [first, marks]
    simp

theorem Follows.toMarked {n : Node} (follows : Follows Faithful ds n) (keyed : ∀ e ∈ ds, Keyed none e) :
    Follows Marked ds n := by
  induction follows with
  | mk here _ steps =>
    refine .mk (here.toMarked keyed) fun p m i s parts found step given => ?_
    exact steps p m i s parts found step given
      (keyed_of_mem_stepsAt keyed (List.mem_of_getElem? given))

/-- In a declared tree, and in each of its relay steps, every position has the description that it was
given last, but the marks of its first mention. They are those of the call under which it is described only
if the first mention has them, too. -/
theorem marked_build [Pattern.Judge] {shorthands : List Shorthand} {document : Value} {draft : Draft}
    (built : build shorthands document = .ok draft) :
    Follows Marked (declarations document) draft.node := by
  rw [build_eq_runAll built]
  exact (follows_runAll rfl _ _).toMarked (keyed_declarations document)

/-- One club is mentioned on the way to the answer, and described with an alert only then. -/
def lateAlert : Value := .map [(.text "1C-1D", .text "waiting"), (.text "1C!", .text "strong")]

def club : List Key := (Sequence.tokens "1C").map Token.key

/-- The marks of one club are not those of the call under which it is described. -/
theorem exists_unlike_description : ∃ draft m u, build [] lateAlert = .ok draft ∧
    draft.node.at? club = some m ∧ Token.parse? "1C!" = some u ∧
    lastDescription? (declarations lateAlert) club = some (some u, "strong") ∧
    m.content.description = some "strong" ∧ m.content.marks ≠ u.marks := by
  obtain ⟨draft, built, holds⟩ := exists_draft lateAlert
    (fun draft => (draft.node.at? club).any fun m : Node => decide
      (m.content.description = some "strong" ∧ m.content.marks = {})) (by decide +kernel)
  obtain ⟨m, found, holds⟩ := (Option.any_eq_true _ _).1 holds
  obtain ⟨description, marks⟩ := of_decide_eq_true holds
  have said : (Token.parse? "1C!").any (fun u => decide
      (lastDescription? (declarations lateAlert) club = some (some u, "strong") ∧ u.marks ≠ {})) := by
    decide +kernel
  obtain ⟨u, written, last⟩ := (Option.any_eq_true _ _).1 said
  obtain ⟨last, alerted⟩ := of_decide_eq_true last
  exact ⟨draft, m, u, built, found, written, last, description, fun same => alerted (same ▸ marks)⟩

theorem marked_build_lateAlert : ∃ draft, build [] lateAlert = .ok draft ∧
    Follows Marked (declarations lateAlert) draft.node ∧ (draft.node.at? club).isSome := by
  obtain ⟨draft, built, present⟩ :=
    exists_draft lateAlert (fun draft => (draft.node.at? club).isSome) (by decide +kernel)
  exact ⟨draft, built, marked_build built, present⟩

end Document

end BidBook
