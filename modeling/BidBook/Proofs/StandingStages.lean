import BidBook.Proofs.Closed
import BidBook.Proofs.Copies
import BidBook.Proofs.Landings
import BidBook.Proofs.Pruned
import BidBook.Proofs.Standing

/-! # Stages of a compilation in memory

Whatever a stage does to cells that stand for a tree, afterwards they stand for the tree that the stage makes.
A stage drops cells and makes new ones, but it leaves none in two places.

* `Cell.yields_flatten`, `Cell.yields_expandWildcards`, `Cell.yields_splice` — expansion.
* `Cell.Stands.prune` — pruning.
* `Cell.yields_keepAll` — what a document says.
-/

namespace BidBook.Cell

open Node

variable {parent : Option Nat} {token : Option Token} {holder : Nat} {t : Token} {n m : Node} {c d : Cell}
  {ns : List (Token × Node)} {cs : List (Option Key × Cell)}

/-- A cell stands for another content once it has that. -/
theorem Stands.mapContent (stands : Stands parent token n c) (f : Content → Content) :
    Stands parent token (n.mapContent f) { c with content := f c.content } := by
  cases n
  exact stands_iff.2 ⟨stands.parent_eq, stands.token_eq, congrArg f stands.content_eq, stands.steps, stands.children⟩

/-! ## Choices -/

theorem yields_copyUnder (stands : Stands parent token n c) (under : Option Nat) (t : Token) :
    Yields (fun _ => 0) (c.copyUnder under t) (Stands under (some t) (n.copyUnder t)) := by
  refine (yields_copy stands under).bind (r := fun _ => 0) (fun c' copied => .pure ?_ fun a => ?_) fun a => by omega
  · have under : Stands under (some t) n.copy { c' with token := some t } :=
      stands_iff.2 ⟨copied.parent_eq, rfl, copied.content_eq, copied.steps, copied.children⟩
    exact under.mapContent fun c =>
      { c with tag := t.tag, alertable := t.alertable, announceable := t.announceable }
  · rw [uses_of_same]
    omega

/-- A child stands for itself or is replaced by copies of it. -/
theorem yields_candidates (stands : Stands (some holder) (some t) n c) :
    Yields (uses c) (candidates holder c)
      (List.Forall₂ (fun e => Stands (some holder) (some e.1) e.2) (Node.candidates t n)) := by
  rw [candidates, stands.token_eq, Node.candidates]
  dsimp only
  split
  · have branches : List.Forall₂ Eq t.alternatives t.alternatives := List.forall₂_same.2 fun _ _ => rfl
    refine (Yields.mapM_new branches fun branch _ same => ?_).imp (by simp) fun _ => id
    exact same ▸ yields_copyUnder stands (some holder) branch
  · refine .pure (.cons stands .nil) fun a => ?_
    simp

theorem yields_flattenLevel (all : List.Forall₂ (Child holder) ns cs) :
    Yields (uses cs) (flattenLevel holder cs) (List.Forall₂ (Child holder) (Node.flattenLevel ns)) := by
  rw [flattenLevel, Node.flattenLevel, List.foldl_flatMap]
  refine (Yields.foldlM all (fun s done e d placed child => ?_) .nil).imp (fun a => by simp) fun _ => id
  refine (yields_candidates child.stands).bind (r := uses done) (fun ds candidates => ?_) fun a => ?_
  · exact Yields.foldlM candidates (fun _ _ _ _ placed candidate => yields_placeCandidate placed candidate) placed
  · rfl

theorem yields_flattenFuel (stands : Stands parent token n c) (fuel : Nat) :
    Yields (uses c) (flattenFuel fuel c) (Stands parent token (Node.flattenFuel fuel n).1) := by
  induction fuel generalizing parent token n c with
  | zero => exact .pure stands fun a => le_rfl
  | succ fuel ih =>
    rw [flattenFuel]
    refine (yields_flattenLevel stands.children).bind (r := fun a => uses c.address a + uses c.steps a)
      (fun level placed => ?_) fun a => by rw [uses_cell c]
    have below := yields_onEach_uses (flattenFuel fuel) placed fun e d child => ⟨child.key, ih child.stands⟩
    refine below.bind (r := fun a => uses c.address a + uses c.steps a) (fun cs children => ?_) fun a => le_rfl
    have steps := Yields.mapM_uses stands.steps fun s s' stands => ih stands
    refine steps.bind (r := fun a => uses c.address a + uses cs a) (fun ss steps => .pure ?_ fun a => ?_)
      fun a => by omega
    · refine stands_iff.2 ⟨stands.parent_eq, stands.token_eq, ?_, ?_, ?_⟩
      · rw [content_flattenFuel, stands.content_eq]
      · rwa [steps_flattenFuel_succ]
      · rwa [children_flattenFuel_succ]
    · rw [uses_cell]
      dsimp only
      omega

theorem yields_flatten (stands : Stands parent token n c) :
    Yields (uses c) c.flatten (Stands parent token n.flatten.1) := by
  rw [flatten, stands.shape_eq]
  exact yields_flattenFuel stands _

/-! ## Open suits -/

variable {b : Binding} {above : List Glossary}

theorem boundToken?_eq (written : ∀ t, token = some t → t.Written) :
    boundToken? b token = token.map (bindToken b) := by
  cases token with
  | none => rfl
  | some t =>
    rw [boundToken?, Option.bind_some, Option.map_some]
    rcases bindToken_eq (written t rfl) b with ⟨known, same⟩ | ⟨w, wildcard, read⟩
    · rw [known, same]
      rfl
    · rw [wildcard, read]
      rfl

theorem bindSteps_eq_mapM (ss : List Cell) : bindSteps b ss = ss.mapM (bind b [] none) := by
  induction ss with
  | nil => rfl
  | cons c rest ih => rw [bindSteps, ih, List.mapM_cons]

/-- Children are bound one after another, each into the place of its new key. -/
theorem yields_bindChildren {ms : List (Token × Node)} {done : List (Option Key × Cell)}
    (each : List.Forall₂ (fun e d => d.2.token = some e.1 ∧ ∀ above under, Yields (fun _ => 0) (d.2.bind b above under)
      (Stands under (some (bindToken b e.1)) (e.2.bind b above (some e.1)))) ns cs)
    (placed : List.Forall₂ (Child holder) ms done) : Yields (uses done) (bindChildren b above holder cs done)
      (List.Forall₂ (Child holder) ((boundChildren b above ns).foldl Node.placeCandidate ms)) := by
  induction each generalizing ms done with
  | nil => exact .pure placed fun a => le_rfl
  | @cons e d ns cs here _ ih =>
    obtain ⟨k, c⟩ := d
    rw [bindChildren]
    refine (here.2 above (some holder)).bind (r := uses done) (fun c bound => ?_) fun a => by omega
    refine (yields_placeCandidate placed bound).bind (r := fun _ => 0) (fun done placed => ?_) fun a => by omega
    exact (ih placed).imp (fun a => by omega) fun _ => id

/-- The copy that a binding gives is made of new cells only. -/
theorem yields_bind (tidy : Throughout (Tidy Token.Written) n) (written : ∀ t, token = some t → t.Written)
    (stands : Stands parent token n c) (b : Binding) (above : List Glossary) (under : Option Nat) :
    Yields (fun _ => 0) (c.bind b above under)
      (Stands under (token.map (bindToken b)) (n.bind b above token)) := by
  refine Stands.induction (P := fun n c => Throughout (Tidy Token.Written) n → ∀ parent token,
    Stands parent token n c → (∀ t, token = some t → t.Written) → ∀ above under,
      Yields (fun _ => 0) (c.bind b above under) (Stands under (token.map (bindToken b)) (n.bind b above token)))
    (fun _ _ n c _ steps children tidy parent token stands written above under => ?_) stands tidy _ _ stands
      written above under
  have boundSteps : Yields (fun _ => 0) (bindSteps b c.steps)
      (List.Forall₂ (Stands none none) (n.steps.map fun s => s.bind b [] none)) := by
    rw [bindSteps_eq_mapM]
    refine Yields.mapM_new ((List.forall₂_and_left _ _).2 ⟨tidy.steps, steps⟩) fun s s' both => ?_
    exact both.2.2 both.1 _ _ both.2.1 nofun [] none
  have boundBelow (above : List Glossary) (holder : Nat) :
      Yields (fun _ => 0) (bindChildren b above holder c.children [])
        (List.Forall₂ (Child holder) ((boundChildren b above n.children).foldl Node.placeCandidate [])) := by
    refine yields_bindChildren ?_ .nil
    refine ((List.forall₂_and_left _ _).2 ⟨tidy.tidy_children, children⟩).imp fun e d both => ?_
    exact ⟨both.2.1.stands.token_eq, both.2.2 both.1.2 _ _ both.2.1.stands both.1.1⟩
  obtain ⟨address, parent', token', content, ss, cs⟩ := c
  obtain rfl : token' = token := stands.token_eq
  obtain rfl : content = n.content := stands.content_eq
  rw [bind, bind_eq_mk, ← boundToken?_eq written]
  refine yields_new.bind (r := fun _ => 0) (fun holder _ => ?_) fun a => by omega
  refine boundSteps.bind (r := uses holder) (fun ss' stepsStand => ?_) fun a => by omega
  refine (boundBelow _ holder).bind (r := fun a => uses holder a + uses ss' a)
    (fun cs' childrenStand => .pure ?_ fun a => ?_) fun a => by omega
  · exact stands_iff.2 ⟨rfl, rfl, rfl, stepsStand, childrenStand⟩
  · rw [uses_cell]

/-- The copies are merged into the tree, and are gone. -/
theorem yields_mergeCopies {alternatives : List (Option Token × Node)} {copies : List Cell}
    (all : List.Forall₂ (fun alternative d => Stands parent alternative.1 alternative.2 d) alternatives copies)
    {parent' : Option Nat} (target : Stands parent' token m d) :
    Yields (fun a => uses d a + uses copies a) (copies.foldlM (fun target copy => copy.mergeInto target) d)
      (Stands parent' token (alternatives.foldl (fun target a => Node.mergeInto a.2 target) m)) :=
  Yields.foldlM (S := Stands parent' token) (g := fun target a => Node.mergeInto a.2 target)
    (f := fun target copy => copy.mergeInto target) all
    (fun _ _ _ _ target copy => (yields_mergeInto copy target).imp (fun _ => Nat.le_add_right _ _) fun _ => id)
    target

theorem yields_expandWildcards (tidy : Throughout (Tidy Token.Written) n)
    (written : ∀ t, token = some t → t.Written) (stands : Stands parent token n c) (settings : ExpansionSettings)
    (above : List Glossary) : Yields (uses c) (c.expandWildcards settings above)
      (Stands parent token (n.expandWildcards settings above token).1) := by
  rw [expandWildcards, Node.expandWildcards, wildcardAlternatives, stands.shape_eq, stands.token_eq]
  split
  · generalize Binding.enumerate settings (n.mentions token) = bs
    have same : List.Forall₂ Eq bs bs := List.forall₂_same.2 fun _ _ => rfl
    have copied := Yields.mapM_new (S := fun (alternative : Option Token × Node) d =>
        Stands c.parent alternative.1 alternative.2 d)
      (g := fun b => (token.map (bindToken b), n.bind b above token)) (f := fun b => c.bind b above c.parent) same
      fun b b' eq => eq ▸ yields_bind tidy written stands b above c.parent
    refine copied.bind (r := uses c) (fun copies stand => ?_) fun a => by omega
    generalize (bs.map fun b => (token.map (bindToken b), n.bind b above token)) = alternatives at stand
    cases stand with
    | nil => exact .pure stands fun a => by simp
    | cons first later =>
      have start : Stands parent token (.mk n.content [] []) { c with token, steps := [], children := [] } :=
        stands_iff.2 ⟨stands.parent_eq, rfl, stands.content_eq, .nil, .nil⟩
      refine (yields_mergeCopies (.cons first later) start).imp (fun a => ?_) fun _ => id
      rw [uses_cell, uses_cell c]
      simp only [uses_nil]
      omega
  · exact .pure stands fun a => le_rfl

/-! ## Relay steps -/

/-- A relay step is copied into the child at its bid. -/
theorem yields_attachSteps {ss : List Node} {ss' : List Cell} (alertable : Bool)
    (steps : List.Forall₂ (Stands none none) ss ss') (all : List.Forall₂ (Child holder) ns cs) (last : Option Bid) :
    Yields (uses cs) (attachSteps alertable holder last ss' cs)
      (List.Forall₂ (Child holder) (Node.attachSteps alertable last ss ns).1) := by
  induction steps generalizing ns cs last with
  | nil => exact .pure all fun a => le_rfl
  | @cons s s' _ _ here _ ih =>
    rw [attachSteps, attachSteps_cons]
    cases Bid.above? last with
    | none => exact .pure all fun a => le_rfl
    | some b =>
      have relayed := yields_onChild (t := .ofCall (.bid b)) (f := fun m => (Node.mergeInto s m).mapContent fun c =>
          { c with alertable := c.alertable || alertable }) all fun u m d stands =>
        (yields_mergeInto here stands).bind (r := fun _ => 0)
          (fun d' merged => .pure (merged.mapContent _) fun a => by rw [uses_of_same]; omega)
          fun a => by omega
      refine relayed.bind (r := fun _ => 0) (fun cs' attached => ?_) fun a => by omega
      exact (ih attached _).imp (fun a => by omega) fun _ => id

theorem yields_spliceFuel (stands : Stands parent token n c) (alertable : Bool) (fuel : Nat) (path : List Place) :
    Yields (uses c) (spliceFuel alertable fuel path c)
      (Stands parent token (Node.spliceFuel alertable fuel path n).1) := by
  induction fuel generalizing parent token n c path with
  | zero => exact .pure stands fun a => le_rfl
  | succ fuel ih =>
    rw [spliceFuel, spliceFuel_succ]
    refine (yields_attachSteps alertable stands.steps stands.children _).bind (r := uses c.address)
      (fun attached placed => ?_) fun a => by rw [uses_cell c]; omega
    have below := yields_onEach_uses (fun child => spliceFuel alertable fuel (child.place :: path) child)
      (g := fun e => (Node.spliceFuel alertable fuel (e.2.place (some e.1) :: path) e.2).1) placed fun e d child =>
        ⟨child.key, by rw [child.stands.place_eq]; exact ih child.stands _⟩
    refine below.bind (r := uses c.address) (fun cs children => .pure ?_ fun a => ?_) fun a => le_rfl
    · exact stands_iff.2 ⟨stands.parent_eq, stands.token_eq, stands.content_eq, .nil, children⟩
    · rw [uses_cell]
      simp only [uses_nil]
      omega

theorem yields_splice (stands : Stands parent token n c) (settings : ExpansionSettings) (path : List Place) :
    Yields (uses c) (c.splice settings path) (Stands parent token (n.splice settings path).1) := by
  rw [splice, stands.shape_eq]
  exact yields_spliceFuel stands _ _ _

/-! ## Pruning -/

variable {settings : PruningSettings}

theorem Stands.reason?_eq (stands : Stands parent (some t) n c) (path : List Place) :
    reason? settings path c = Removal.reason? settings path t n := by
  have empty : c.isEmpty = n.isEmpty := by
    rw [isEmpty, Node.isEmpty, stands.content_eq, isEmpty_eq_of_forall₂ stands.children]
  rw [reason?, Removal.reason?]
  cases Place.auction? path with
  | none =>
    dsimp only
    rw [stands.token_eq, Option.all_some]
  | some calls =>
    dsimp only
    rw [empty]

/-- What stays after pruning stays in its cells. -/
theorem Stands.prune (stands : Stands parent token n c) (settings : PruningSettings) (path : List Place) :
    Stands parent token (n.pruned settings path) (c.prune settings path) ∧
      ∀ a, uses (c.prune settings path) a ≤ uses c a := by
  refine Stands.induction (P := fun n c => ∀ parent token, Stands parent token n c → ∀ path,
    Stands parent token (n.pruned settings path) (c.prune settings path) ∧
      ∀ a, uses (c.prune settings path) a ≤ uses c a)
    (fun _ _ n c _ _ children parent token stands path => ?_) stands parent token stands path
  obtain ⟨content, ns, ms⟩ := n
  obtain ⟨address, parent', token', content', ss, cs⟩ := c
  change List.Forall₂ _ ms cs at children
  have kept : List.Forall₂ (Child address) ((ms.map (prunedChild settings path)).filter (stays settings path))
      (prune.pruneChildren settings path cs) ∧ ∀ a, uses (prune.pruneChildren settings path cs) a ≤ uses cs a := by
    clear * - children
    induction children with
    | nil => exact ⟨.nil, fun a => le_rfl⟩
    | @cons e d ms cs both _ ih =>
      obtain ⟨k, c⟩ := d
      obtain ⟨later, few⟩ := ih
      obtain ⟨here, fewHere⟩ := both.2 _ _ both.1.stands (c.place :: path)
      have place : c.place = e.2.place (some e.1) := both.1.stands.place_eq
      have stay : stays settings path (prunedChild settings path e) =
          (reason? settings (c.place :: path) (c.prune settings (c.place :: path))).isNone := by
        rw [here.reason?_eq, place, stays, prunedChild, place_pruned]
      rw [prune.pruneChildren, List.map_cons, List.filter_cons, stay]
      cases reason? settings (c.place :: path) (c.prune settings (c.place :: path)) with
      | none =>
        refine ⟨.cons ⟨both.1.key, place ▸ here⟩ later, fun a => ?_⟩
        rw [uses_cons, uses_cons, uses_pair, uses_pair]
        exact Nat.add_le_add (fewHere a) (few a)
      | some reason =>
        refine ⟨later, fun a => (few a).trans ?_⟩
        rw [uses_cons]
        exact Nat.le_add_left _ _
  rw [Cell.prune]
  refine ⟨stands_iff.2 ⟨stands.parent_eq, stands.token_eq, ?_, ?_, ?_⟩, fun a => ?_⟩
  · rw [content_pruned, ← stands.content_eq]
  · rw [steps_pruned]
    exact stands.steps
  · rw [children_pruned]
    exact kept.1
  · rw [uses_cell, uses_cell]
    exact Nat.add_le_add_left (kept.2 a) _

/-! ## Declarations -/

/-- Work at the end of a path is work on the node there. -/
theorem yields_within {f : Node → Node} (work : Cell → StateM Nat Cell)
    (worked : ∀ parent token n c, Stands parent token n c →
      Yields (uses c) (work c) (Stands parent token (f n)))
    (stands : Stands parent token n c) (path : List Token) :
    Yields (uses c) (within work path c) (Stands parent token (n.put path (f (n.reach path)))) := by
  induction path generalizing parent token n c with
  | nil => exact worked _ _ _ _ stands
  | cons t path ih =>
    have child := yields_onChild (t := t) (f := fun m => m.put path (f (m.reach path))) stands.children
      fun u m d stands => ih stands
    rw [within]
    refine child.bind (r := fun a => uses c.address a + uses c.steps a) (fun cs children => .pure ?_ fun a => ?_)
      fun a => by rw [uses_cell c]
    · rw [put, reach]
      exact stands_iff.2 ⟨stands.parent_eq, stands.token_eq, stands.content_eq, stands.steps, children⟩
    · rw [uses_cell]

theorem yields_create (stands : Stands parent token n c) (path : List Token) :
    Yields (uses c) (create path c) (Stands parent token (n.create path)) :=
  yields_within (f := id) pure (fun _ _ _ _ stands => .pure stands fun _ => le_rfl) stands path

section Declarations

open Document

mutual

theorem declared_run (a : Declaration) (d : Draft) : (a.run d).declared = d.declared + counted a := by
  cases a with
  | visit | entry | describe _ _ | define _ => rfl
  | step parts => exact declared_runAll parts _

theorem declared_runAll (ds : List (List Token × Declaration)) (d : Draft) :
    (runAll ds d).declared = d.declared + countedAll ds := by
  match ds with
  | [] => rfl
  | (path, a) :: rest =>
    rw [runAll, countedAll, declared_runAll rest, declared_run a, Nat.add_assoc]

end

mutual

theorem yields_keep (a : Declaration) (declared : Nat) {parent : Option Nat} {token : Option Token} {n : Node}
    {c : Cell} (stands : Stands parent token n c) :
    Yields (uses c) (keep declared a c) (Stands parent token (a.run ⟨n, declared⟩).node) := by
  match a with
  | .visit => exact .pure stands fun _ => le_rfl
  | .entry | .describe _ _ | .define _ =>
    exact .pure (stands.mapContent _) fun a => (uses_of_same c c.token _ a).le
  | .step parts =>
    refine (yields_fresh none none).bind (r := uses c) (fun step fresh => ?_) fun a => by omega
    refine (yields_keepAll parts declared fresh).bind (r := uses c) (fun step kept => .pure ?_ fun a => ?_)
      fun a => by omega
    · exact stands_iff.2 ⟨stands.parent_eq, stands.token_eq, stands.content_eq,
        List.rel_append stands.steps (.cons kept .nil), stands.children⟩
    · rw [uses_cell, uses_cell c]
      simp only [uses_append, uses_cons, uses_nil]
      omega

theorem yields_keepAll (ds : List (List Token × Declaration)) (declared : Nat) {parent : Option Nat}
    {token : Option Token} {n : Node} {c : Cell} (stands : Stands parent token n c) :
    Yields (uses c) (keepAll declared ds c) (Stands parent token (runAll ds ⟨n, declared⟩).node) := by
  match ds with
  | [] => exact .pure stands fun _ => le_rfl
  | (path, a) :: rest =>
    have first := yields_within (f := fun n => (a.run ⟨n, declared⟩).node) (keep declared a)
      (fun _ _ _ _ stands => yields_keep a declared stands) stands path
    rw [keepAll, runAll]
    refine first.bind (r := fun _ => 0) (fun c' kept => ?_) fun a => by omega
    rw [declared_run]
    exact (yields_keepAll rest _ kept).imp (fun a => by omega) fun _ => id

end

end Declarations

end BidBook.Cell
