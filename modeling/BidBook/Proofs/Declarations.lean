import BidBook.Proofs.Expanded

/-! # A document as a list of declarations

The entries of a document are nested, but the tree that it declares comes about by one declaration after
another, each of them at the end of a path. Relay steps are declared as trees of their own.

* `Declaration`, `runAll` — what a document may say about a position, and what comes of it.
* `declarations` — all that a document says, in the order in which it says it.
* `runAll_below` — declarations below a path, carried out on the position at its end.
* `build_eq_runAll` — the tree that a document declares is what comes of its declarations.
-/

namespace BidBook

namespace Node

/-! ## Twice at one path -/

theorem putChild_putChild (t : Token) (n m : Node) (cs : List (Token × Node)) :
    putChild t m (putChild t n cs) = putChild t m cs := by
  induction cs with
  | nil => simp [putChild]
  | cons e rest ih =>
    obtain ⟨u, c⟩ := e
    by_cases same : u.key = t.key <;> simp [putChild, same, ih]

theorem childOrNew_putChild (t : Token) (n : Node) (cs : List (Token × Node)) :
    childOrNew t (putChild t n cs) = n := by
  rw [childOrNew, find?_putChild, if_pos rfl, Option.getD_some]

theorem reach_put_append (n new : Node) (path rest : List Token) :
    (n.put path new).reach (path ++ rest) = new.reach rest := by
  induction path generalizing n with
  | nil => rfl
  | cons t path ih => rw [put, List.cons_append, reach, children_mk, childOrNew_putChild, ih]

theorem put_put_append (n new newer : Node) (path rest : List Token) :
    (n.put path new).put (path ++ rest) newer = n.put path (new.put rest newer) := by
  induction path generalizing n with
  | nil => rfl
  | cons t path ih =>
    rw [put, List.cons_append, put, content_mk, steps_mk, children_mk, childOrNew_putChild, ih,
      putChild_putChild, put]

end Node

namespace Document

open Node

/-! ## Declarations -/

/-- One thing that a document says about a position. -/
inductive Declaration where
  /-- It is there. -/
  | visit
  /-- The key of an entry leads to it. -/
  | entry
  /-- A description; `under` is the last call of the key that leads to the position. -/
  | describe (under : Option Token) (text : String)
  | define (shorthands : List Shorthand)
  /-- A relay step, by the declarations of its own tree. -/
  | step (parts : List (List Token × Declaration))

mutual

/-- What comes of a declaration at a position. -/
def Declaration.run : Declaration → Draft → Draft
  | .visit, d => d
  | .entry, d => d.declare
  | .describe _ text, d => d.describe text
  | .define ss, d => d.define ss
  | .step parts, d =>
    let step := runAll parts ⟨.mk {} [] [], d.declared⟩
    { d with declared := step.declared }.addStep step.node

/-- What comes of declarations one after another, each at the end of its path. -/
def runAll : List (List Token × Declaration) → Draft → Draft
  | [], d => d
  | (path, a) :: rest, d =>
    let inner := a.run ⟨d.node.reach path, d.declared⟩
    runAll rest ⟨d.node.put path inner.node, inner.declared⟩

end

/-- The same declarations, at positions below the end of a path. -/
def below (path : List Token) (ds : List (List Token × Declaration)) : List (List Token × Declaration) :=
  ds.map fun e => (path ++ e.1, e.2)

/-! ## What a document says -/

/-- The shorthand of a rule. One with a null side gives none. -/
def rule? : Value × Value → Option Shorthand
  | (.null, _) => none
  | (_, .null) => none
  | (pattern, replacement) => some ⟨pattern.shown, replacement.shown⟩

def ofSequence (impliedPass : Bool) (text : String)
    (said : Option Token → List (List Token × Declaration)) : List (List Token × Declaration) :=
  below (stepTokens impliedPass ++ Sequence.tokens text) (([], .entry) :: said (Sequence.tokens text).getLast?)

/-- Relay steps of a position, or of the one after a pass. -/
def ofSteps (impliedPass : Bool) (steps : List (List (List Token × Declaration))) :
    List (List Token × Declaration) :=
  below (stepTokens impliedPass) (([], .visit) :: steps.map fun parts => ([], .step parts))

mutual

/-- What the entries of a mapping say. -/
def ofEntries (impliedPass : Bool) (under : Option Token) :
    List (Value × Value) → List (List Token × Declaration)
  | [] => []
  | (key, value) :: rest =>
    (match role? key with
      | none => []
      | some role => ofValue impliedPass under role value) ++ ofEntries impliedPass under rest

def ofValue (impliedPass : Bool) (under : Option Token) (role : Role) :
    Value → List (List Token × Declaration)
  | .map entries =>
    match role with
    | .definitions => [([], .define (entries.filterMap rule?))]
    | .scope implied _ => ofEntries implied under entries
    | .steps _ _ | .description => []
    | .sequences texts =>
      texts.flatMap fun text => ofSequence impliedPass text fun under => ofEntries true under entries
  | .list items =>
    match role with
    | .steps implied _ => ofSteps implied (ofItems items)
    | _ => []
  | .tuple items =>
    match role with
    | .steps implied _ => ofSteps implied (ofItems items)
    | _ => []
  | .bytes bs =>
    match role with
    | .steps implied _ => ofSteps implied (bs.map fun b => [([], .describe none (toString b.toNat))])
    | _ => []
  | .null =>
    match role with
    | .definitions => [([], .define [])]
    | .sequences texts => texts.flatMap fun text => ofSequence impliedPass text fun _ => []
    | _ => []
  | value =>
    match role with
    | .description => [([], .describe under value.shown)]
    | .sequences texts =>
      texts.flatMap fun text =>
        ofSequence impliedPass text fun under => [([], .describe under value.shown)]
    | _ => []

def ofItems : List Value → List (List (List Token × Declaration))
  | [] => []
  | item :: rest => ofItem item :: ofItems rest

def ofItem : Value → List (List Token × Declaration)
  | .map entries => ofEntries true none entries
  | value => [([], .describe none value.shown)]

end

/-- What a document says. -/
def declarations : Value → List (List Token × Declaration)
  | .map entries => ofEntries false none entries
  | _ => []

/-! ## Carrying out declarations -/

variable {ds es : List (List Token × Declaration)} {d d' : Draft} {work : Draft → Except Fault Draft}
  {path : List Token}

theorem runAll_append (ds es : List (List Token × Declaration)) (d : Draft) :
    runAll (ds ++ es) d = runAll es (runAll ds d) := by
  induction ds generalizing d with
  | nil => rw [List.nil_append, runAll]
  | cons e rest ih =>
    obtain ⟨path, a⟩ := e
    rw [List.cons_append, runAll, runAll, ih]

theorem runAll_here (a : Declaration) (ds : List (List Token × Declaration)) (d : Draft) :
    runAll (([], a) :: ds) d = runAll ds (a.run d) := by
  rw [runAll]
  rfl

/-- Declarations below a path are carried out on what was put there. -/
theorem runAll_below (path : List Token) (ds : List (List Token × Declaration)) (n x : Node) (k : Nat) :
    runAll (below path ds) ⟨n.put path x, k⟩ =
      ⟨n.put path (runAll ds ⟨x, k⟩).node, (runAll ds ⟨x, k⟩).declared⟩ := by
  induction ds generalizing x k with
  | nil => rfl
  | cons e rest ih =>
    obtain ⟨rel, a⟩ := e
    rw [below, List.map_cons, ← below, runAll, runAll]
    dsimp only
    rw [reach_put_append, put_put_append, ih]

/-- The work at the end of a path, if it begins with a declaration of that position. -/
theorem within_eq_runAll {a : Declaration}
    (worked : ∀ d d', work d = .ok d' → d' = runAll (([], a) :: ds) d)
    (h : d.within path work = .ok d') : d' = runAll (below path (([], a) :: ds)) d := by
  rw [Draft.within, bind_eq_ok] at h
  obtain ⟨inner, ran, h⟩ := h
  cases h
  have said := worked _ _ ran
  rw [runAll_here] at said
  rw [below, List.map_cons, ← below, runAll, List.append_nil]
  dsimp only
  rw [runAll_below, ← said]

theorem readAll_eq (raws : List String) : Token.readAll raws =
    match raws.findSome? Token.excess? with
    | some e => .error e
    | none => .ok (raws.filterMap Token.parse?) := by
  induction raws with
  | nil => rfl
  | cons raw rest ih =>
    rw [Token.readAll, Token.read, List.findSome?_cons, ih]
    cases Token.excess? raw with
    | some e => rfl
    | none =>
      cases rest.findSome? Token.excess? with
      | some e => rfl
      | none => cases read : Token.parse? raw <;> simp [read] <;> rfl

theorem sequenceTokens_eq_ok {implied : Bool} {text : String}
    (h : sequenceTokens implied text = .ok path) : path = stepTokens implied ++ Sequence.tokens text := by
  rw [sequenceTokens, mapError_eq_ok, readAll_eq] at h
  split at h
  · cases h
  · cases h
    have pass : ["P"].filterMap Token.parse? = [.ofCall .pass] := by decide +kernel
    rw [List.filterMap_append, Sequence.tokens]
    cases implied with
    | false => rfl
    | true => rw [if_pos rfl, pass]; rfl

theorem atEach_eq_runAll {implied : Bool} {said : Option Token → List (List Token × Declaration)}
    (worked : ∀ under d d', work d = .ok d' → d' = runAll (said under) d) {texts : List String}
    (h : atEach implied work texts d = .ok d') :
    d' = runAll (texts.flatMap fun text => ofSequence implied text said) d := by
  induction texts generalizing d with
  | nil =>
    cases h
    rfl
  | cons text rest ih =>
    rw [atEach, bind_eq_ok] at h
    obtain ⟨path, read, h⟩ := h
    obtain ⟨next, declared, h⟩ := bind_eq_ok.1 h
    rw [sequenceTokens_eq_ok read] at declared
    have first : next = runAll (ofSequence implied text said) d :=
      within_eq_runAll (fun inner inner' ran => by
        rw [runAll_here]
        exact worked _ _ _ ran) declared
    rw [List.flatMap_cons, runAll_append, ← first]
    exact ih h

theorem byteSteps_eq_runAll (bs : List UInt8) (d : Draft) :
    byteSteps bs d = runAll (bs.map fun b => ([], .step [([], .describe none (toString b.toNat))])) d := by
  induction bs generalizing d with
  | nil => rfl
  | cons b rest ih =>
    rw [byteSteps, ih, List.map_cons, runAll_here]
    rfl

theorem textOf_eq_ok {v : Value} {text : String} (h : textOf v = .ok text) : text = v.shown := by
  rw [textOf, mapError_eq_ok, Value.render] at h
  split at h
  · cases h
  · cases h
    rfl

theorem describe_eq_runAll {value : Value} (under : Option Token) {text : String}
    (shown : textOf value = .ok text) :
    d.describe text = runAll [([], .describe under value.shown)] d := by
  rw [textOf_eq_ok shown, runAll_here]
  rfl

theorem ofValue_of_isScalar {value : Value} (scalar : value.isScalar = true) (implied : Bool)
    (under : Option Token) (role : Role) : ofValue implied under role value =
      match role with
      | .description => [([], .describe under value.shown)]
      | .sequences texts =>
        texts.flatMap fun text => ofSequence implied text fun under => [([], .describe under value.shown)]
      | _ => [] := by
  cases value with
  | null | bytes _ | date _ | list _ | tuple _ | map _ => cases scalar
  | bool _ | int _ | float _ | text _ => cases role <;> rfl

theorem ofItem_of_isScalar {value : Value} (scalar : value.isScalar = true) :
    ofItem value = [([], .describe none value.shown)] := by
  cases value with
  | null | bytes _ | date _ | list _ | tuple _ | map _ => cases scalar
  | bool _ | int _ | float _ | text _ => rfl

variable [Pattern.Judge]

theorem definitionsOf_eq_ok {path : String} {entries : List (Value × Value)} {ss : List Shorthand}
    (h : definitionsOf path entries = .ok ss) : ss = entries.filterMap rule? := by
  fun_induction definitionsOf path entries generalizing ss with
  | case1 =>
    cases h
    rfl
  | case2 rest replacement ih => exact ih h
  | case3 pattern rest notNull ih =>
    rw [List.filterMap_cons_none (by cases pattern <;> rfl)]
    exact ih h
  | case4 rest pattern replacement noPattern noReplacement ih =>
    obtain ⟨written, shown, h⟩ := bind_eq_ok.1 h
    dsimp only at h
    split at h
    · cases h
    · obtain ⟨_, compiled, h⟩ := bind_eq_ok.1 h
      obtain ⟨replaced, shown', h⟩ := bind_eq_ok.1 h
      obtain ⟨later, defined, h⟩ := bind_eq_ok.1 h
      cases h
      have rule : rule? (pattern, replacement) = some ⟨pattern.shown, replacement.shown⟩ := by
        unfold rule?
        split
        · next eq => cases eq; exact absurd rfl noPattern
        · next eq => cases eq; exact absurd rfl noReplacement
        · next eq => cases eq; rfl
      rw [List.filterMap_cons_some rule, ← ih defined, textOf_eq_ok shown, textOf_eq_ok shown']

theorem buildValue_of_isScalar {value : Value} (scalar : value.isScalar = true) (implied : Bool)
    (path : String) (role : Role) (d : Draft) : buildValue implied path role value d =
      match role with
      | .definitions => refuse path .definitionsNotMapping
      | .scope _ key => refuse path (.scopeNotMapping key)
      | .steps _ key => refuse path (.stepsNotSequence key)
      | .description => (textOf value).map d.describe
      | .sequences texts => atEach implied (fun inner => (textOf value).map inner.describe) texts d := by
  cases value with
  | null | bytes _ | date _ | list _ | tuple _ | map _ => cases scalar
  | bool _ | int _ | float _ | text _ =>
    rw [buildValue.eq_def]
    cases role <;> rfl

theorem scalar_eq_runAll {value : Value} (scalar : value.isScalar = true) {implied : Bool}
    (under : Option Token) {path : String} {role : Role}
    (h : buildValue implied path role value d = .ok d') :
    d' = runAll (ofValue implied under role value) d := by
  rw [buildValue_of_isScalar scalar] at h
  rw [ofValue_of_isScalar scalar]
  cases role with
  | definitions | scope _ _ | steps _ _ => cases h
  | description =>
    obtain ⟨text, shown, rfl⟩ := map_eq_ok.1 h
    exact describe_eq_runAll under shown
  | sequences texts =>
    refine atEach_eq_runAll (fun under d d' ran => ?_) h
    obtain ⟨text, shown, rfl⟩ := map_eq_ok.1 ran
    exact describe_eq_runAll under shown

theorem buildStep_of_isScalar {value : Value} (scalar : value.isScalar = true) (path : String) (d : Draft) :
    buildStep path value d = (textOf value).map d.describe := by
  cases value with
  | null | bytes _ | date _ | list _ | tuple _ | map _ => cases scalar
  | bool _ | int _ | float _ | text _ => rw [buildStep.eq_def]; rfl

theorem item_eq_runAll {item : Value} {path : String} (ofMap : ∀ entries, item = .map entries →
      buildEntries true path entries d = .ok d' → d' = runAll (ofEntries true none entries) d)
    (h : buildStep path item d = .ok d') : d' = runAll (ofItem item) d := by
  cases item with
  | map entries =>
    rw [buildStep.eq_def] at h
    exact ofMap entries rfl h
  | null | list _ | tuple _ | bytes _ | date _ =>
    rw [buildStep.eq_def] at h
    cases h
  | bool _ | int _ | float _ | text _ =>
    rw [buildStep_of_isScalar rfl] at h
    obtain ⟨text, shown, rfl⟩ := map_eq_ok.1 h
    rw [ofItem_of_isScalar rfl]
    exact describe_eq_runAll none shown

mutual

theorem entries_eq_runAll (entries : List (Value × Value)) (implied : Bool) (under : Option Token)
    (path : String) (d d' : Draft) (h : buildEntries implied path entries d = .ok d') :
    d' = runAll (ofEntries implied under entries) d := by
  match entries with
  | [] =>
    rw [buildEntries] at h
    cases h
    rfl
  | (key, value) :: rest =>
    rw [buildEntries, bind_eq_ok] at h
    obtain ⟨text, _, h⟩ := h
    rw [ofEntries, runAll_append]
    cases known : role? key with
    | none =>
      rw [known] at h
      cases h
    | some role =>
      rw [known] at h
      obtain ⟨next, built, h⟩ := bind_eq_ok.1 h
      dsimp only
      rw [← value_eq_runAll value implied under _ role d next built]
      exact entries_eq_runAll rest implied under path next d' h
termination_by sizeOf entries

theorem value_eq_runAll (value : Value) (implied : Bool) (under : Option Token) (path : String)
    (role : Role) (d d' : Draft) (h : buildValue implied path role value d = .ok d') :
    d' = runAll (ofValue implied under role value) d := by
  match value with
  | .map entries =>
    rw [buildValue.eq_def] at h
    cases role with
    | definitions =>
      obtain ⟨ss, defined, h⟩ := bind_eq_ok.1 h
      cases h
      rw [definitionsOf_eq_ok defined]
      rfl
    | scope implied key => exact entries_eq_runAll entries implied under path d d' h
    | steps implied key => cases h
    | description => cases h
    | sequences texts =>
      exact atEach_eq_runAll (fun under d d' => entries_eq_runAll entries true under path d d') h
  | .list items =>
    rw [buildValue.eq_def] at h
    cases role with
    | steps implied key =>
      exact within_eq_runAll (fun d d' => items_eq_runAll items path 0 d d') h
    | definitions | scope _ _ | description | sequences _ => exact absurd h Steady.noSequence_ne_ok
  | .tuple items =>
    rw [buildValue.eq_def] at h
    cases role with
    | steps implied key =>
      exact within_eq_runAll (fun d d' => items_eq_runAll items path 0 d d') h
    | definitions | scope _ _ | description | sequences _ => exact absurd h Steady.noSequence_ne_ok
  | .bytes bs =>
    rw [buildValue.eq_def] at h
    cases role with
    | steps implied key =>
      refine within_eq_runAll (fun d d' ran => ?_) h
      cases ran
      rw [byteSteps_eq_runAll, runAll_here, List.map_map]
      rfl
    | definitions | scope _ _ | description | sequences _ => cases h
  | .null =>
    rw [buildValue.eq_def] at h
    cases role with
    | definitions => cases h; rfl
    | scope _ _ | steps _ _ => cases h
    | description => cases h; rfl
    | sequences texts => exact atEach_eq_runAll (fun under d d' ran => by cases ran; rfl) h
  | .date _ =>
    rw [buildValue.eq_def] at h
    cases role <;> cases h
  | .bool _ | .int _ | .float _ | .text _ => exact scalar_eq_runAll rfl under h
termination_by sizeOf value

theorem items_eq_runAll (items : List Value) (path : String) (index : Nat) (d d' : Draft)
    (h : buildSteps path index items d = .ok d') :
    d' = runAll (([], .visit) :: (ofItems items).map fun parts => ([], .step parts)) d := by
  match items with
  | [] =>
    rw [buildSteps] at h
    cases h
    rfl
  | item :: rest =>
    rw [buildSteps, bind_eq_ok] at h
    obtain ⟨step, built, h⟩ := h
    have first : step = runAll (ofItem item) ⟨.mk {} [] [], d.declared⟩ :=
      item_eq_runAll (fun entries _ => entries_eq_runAll entries true none _ _ step) built
    rw [items_eq_runAll rest path (index + 1) _ d' h, runAll_here, runAll_here, ofItems, List.map_cons,
      runAll_here, first]
    rfl
termination_by sizeOf items
decreasing_by
  · subst item
    simp
    omega
  · simp only [List.cons.sizeOf_spec]
    omega

end

/-- The tree that a document declares is what comes of all that the document says. -/
theorem build_eq_runAll {shorthands : List Shorthand} {document : Value} {draft : Draft}
    (built : build shorthands document = .ok draft) :
    draft = runAll (declarations document) ⟨.root shorthands, 0⟩ := by
  unfold build at built
  split at built
  · exact entries_eq_runAll _ _ none _ _ _ built
  · cases built

end Document

end BidBook
