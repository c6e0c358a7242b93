import BidBook.Proofs.Expanded
import BidBook.Proofs.Templates

/-! # Relay steps and bindings

What becomes of the relay steps of a single position when open suits are bound. Copies of the tree
that take the position to the same path compete there, and the relay steps of one of them are kept
whole; the other copies lose what they bound otherwise.

* `Node.HostedAt` — where a binding takes positions that carry relay steps.
* `isSome_at?_expand_of_kept` — a copy loses nothing on a path where it agrees with those that were kept.
* `exists_lost_relays` — and it may lose what it binds otherwise, or what competes for one place.
-/

namespace BidBook

/-- The last contract on a path, or else one that is known from before. -/
def lastBidAlong (last : Option Bid) (path : List Key) : Option Bid :=
  path.foldl (fun last k => k.bid?.or last) last

namespace Node

variable {last : Option Bid} {n m : Node} {path p q : List Key} {ss : List Node}

/-! ## The first relay step on a way -/

/-- What lands in a tree stands there, or is reached by way of a first relay step. -/
theorem Lands.split (lands : Lands last n path ss) : (∃ m, n.at? path = some m ∧ ss = m.steps) ∨
    ∃ p m i s b rest, path = p ++ .call (.bid b) :: rest ∧ n.at? p = some m ∧ m.steps[i]? = some s ∧
      relayBid? (lastBidAlong last p) i = some b ∧ Lands (some b) s rest ss := by
  -- only the first relay step counts: behind it, the way leads through the step itself
  induction lands with
  | here last n => exact .inl ⟨n, at?_nil n, rfl⟩
  | child found later ih =>
    rcases ih with ⟨m, there, rfl⟩ | ⟨p, m, i, s, b, rest, rfl, there, step, bid, later⟩
    · exact .inl ⟨m, by rw [at?_cons, found, Option.bind_some, there], rfl⟩
    · refine .inr ⟨_ :: p, m, i, s, b, rest, rfl, ?_, step, bid, later⟩
      rw [at?_cons, found, Option.bind_some, there]
  | relay step bid later _ => exact .inr ⟨[], _, _, _, _, _, rfl, at?_nil _, step, bid, later⟩

theorem Lands.eq_nil (lands : Lands last n path ss) (bare : Throughout (fun m => m.steps = []) n) :
    ss = [] := by
  induction lands with
  | here last n => exact bare.here
  | child found _ ih => exact ih (bare.of_find? found)
  | relay step _ _ _ => rw [bare.here] at step; cases step

/-- Relay steps without relay steps of their own never compete. -/
theorem uncontested_of_flat
    (flat : Throughout (fun m => ∀ s ∈ m.steps, Throughout (fun m => m.steps = []) s) n) :
    Uncontested path (Lands last n) := by
  intro p ss ss' _ left right
  rcases left.split with ⟨m, found, rfl⟩ | ⟨_, m, _, s, _, _, _, found, step, _, later⟩
  · rcases right.split with ⟨m', found', rfl⟩ | ⟨_, m', _, s, _, _, _, found', step, _, later⟩
    · rw [found, Option.some.injEq] at found'
      exact .inr (.inr (by rw [found']))
    · exact .inr (.inl (later.eq_nil ((flat.of_at? found').here s (List.mem_of_getElem? step))))
  · exact .inl (later.eq_nil ((flat.of_at? found).here s (List.mem_of_getElem? step)))

theorem lands_of_relay {i : Nat} {s : Node} {b : Bid} {rest : List Key} (found : n.at? p = some m)
    (step : m.steps[i]? = some s) (bid : relayBid? (lastBidAlong last p) i = some b)
    (later : Lands (some b) s rest ss) : Lands last n (p ++ .call (.bid b) :: rest) ss := by
  induction p generalizing n last with
  | nil =>
    rw [at?_nil, Option.some.injEq] at found
    subst found
    exact .relay step bid later
  | cons k p ih =>
    rw [at?_cons, Option.bind_eq_some_iff] at found
    obtain ⟨c, child, found⟩ := found
    exact .child child (ih found bid)

/-- The relay steps that the first tree carries on a path are carried by the second tree, too. -/
def Followed (path : List Key) (n n' : Node) : Prop :=
  ∀ p m, p <+: path → n.at? p = some m → m.steps ≠ [] → ∃ m', n'.at? p = some m' ∧ m'.steps = m.steps

theorem Followed.of_le {n' : Node} (followed : Followed path n n') (le : p <+: path) : Followed p n n' :=
  fun p' m le' => followed p' m (le'.trans le)

theorem followed_of_single {n' : Node}
    (single : ∀ r m, r <+: path → n.at? r = some m → m.steps ≠ [] → r = p)
    (same : (n'.at? p).map steps = (n.at? p).map steps) : Followed path n n' := by
  intro r m le found nonempty
  obtain rfl := single r m le found nonempty
  rw [found, Option.map_some, Option.map_eq_some_iff] at same
  exact same

/-- What lands in one tree lands in another, unless it is a position that carries no relay steps. -/
theorem Lands.transfer {n' : Node} (lands : Lands last n path ss) (followed : Followed path n n') :
    (ss = [] ∧ (n.at? path).isSome) ∨ Lands last n' path ss := by
  -- all that matters is where the way leaves the tree, and by which step
  rcases lands.split with ⟨m, found, rfl⟩ | ⟨p, m, i, s, b, rest, rfl, found, step, bid, later⟩
  · by_cases empty : m.steps = []
    · exact .inl ⟨empty, Option.isSome_iff_exists.2 ⟨m, found⟩⟩
    · obtain ⟨m', found', steps⟩ := followed path m List.prefix_rfl found empty
      exact .inr (steps ▸ lands_of_at? last found')
  · have nonempty : m.steps ≠ [] := fun empty => by rw [empty] at step; cases step
    obtain ⟨m', found', steps⟩ := followed p m (List.prefix_append p _) found nonempty
    exact .inr (lands_of_relay found' (steps ▸ step) bid later)

/-! ## Paths of the tree itself -/

variable {K : Token → Prop} {k : Key}

theorem isSome_at?_mergeInto {source target : Node} (formed : source.WellFormed)
    (present : (target.at? path).isSome) : ((mergeInto source target).at? path).isSome := by
  obtain ⟨m, found⟩ := Option.isSome_iff_exists.1 present
  have merged : Prevails presence.rank _ (presence.at none (mergeInto source target) path) :=
    presence.at_mergeInto formed none path
  have there := merged.isSome_iff.2 ⟨(), .inl (by rw [presence_at, found]; rfl)⟩
  rwa [presence_at, Option.isSome_map] at there

theorem isSome_at?_mapContent (f : Content → Content) (n : Node) (path : List Key) :
    ((n.mapContent f).at? path).isSome = (n.at? path).isSome := by
  cases path with
  | nil => rw [at?_nil, at?_nil, Option.isSome_some, Option.isSome_some]
  | cons k path => rw [at?_cons, at?_cons, children_mapContent]

theorem isSome_at?_attachSteps (alertable : Bool) (last : Option Bid) {c : Node}
    (tidy : Throughout (Tidy K) n) (child : find? k n.children = some c) (present : (c.at? path).isSome) :
    ∃ d, find? k (attachSteps alertable last n.steps n.children).1 = some d ∧ (d.at? path).isSome := by
  by_cases relay : ∃ i s b, n.steps[i]? = some s ∧ relayBid? last i = some b ∧ k = .call (.bid b)
  · obtain ⟨i, s, b, step, bid, rfl⟩ := relay
    refine ⟨_, find?_attachSteps_of_relay step bid, ?_⟩
    -- the step is merged into the child, which keeps its paths
    have known : childOrNew (.ofCall (.bid b)) n.children = c := by
      rw [childOrNew, show (Token.ofCall (.bid b)).key = .call (.bid b) from rfl, child, Option.getD_some]
    have formed := (tidy.steps s (List.mem_of_getElem? step)).wellFormed
    rw [attached, known, isSome_at?_mapContent]
    exact isSome_at?_mergeInto formed present
  · rw [find?_attachSteps_of_forall fun i s b step bid same => relay ⟨i, s, b, step, bid, same⟩]
    exact ⟨c, child, present⟩

/-- Attaching relay steps loses no path of the tree itself. -/
theorem isSome_at?_spliceFuel {alertable : Bool} {fuel : Nat} {places : List Place}
    (tidy : Throughout (Tidy K) n) (present : (n.at? path).isSome) :
    ((spliceFuel alertable fuel places n).1.at? path).isSome := by
  induction path generalizing n fuel places with
  | nil => simp
  | cons k path ih =>
    cases fuel with
    | zero => exact present
    | succ fuel =>
      obtain ⟨m, found⟩ := Option.isSome_iff_exists.1 present
      rw [at?_cons, Option.bind_eq_some_iff] at found
      obtain ⟨c, child, found⟩ := found
      obtain ⟨d, child, present⟩ := isSome_at?_attachSteps alertable (Place.lastBid? places) tidy child
        (Option.isSome_iff_exists.2 ⟨m, found⟩)
      rw [find?_eq_map_find?, Option.map_eq_some_iff] at child
      obtain ⟨e, looked, rfl⟩ := child
      rw [at?_spliceFuel_cons, looked, Option.bind_some]
      exact ih (throughout_attachSteps tidy e (List.mem_of_find?_eq_some looked)) present

/-! ## Where relay steps are hosted -/

/-- A way that the binding takes to the path ends at a position with relay steps. -/
def HostedAt (n : Node) (b : Binding) (path : List Key) : Prop :=
  ∃ written taken m, n.Way written taken m ∧ m.steps ≠ [] ∧ path = boundKeys b taken

/-- The relay steps that are kept at a path: those of a position that hosts them, as a binding binds
them that takes the position there. -/
structure Keeps (settings : ExpansionSettings) (n host : Node) (path : List Key) (b : Binding) :
    Prop where
  enumerated : b ∈ Binding.enumerate settings (n.mentions none)
  hosted : n.HostedAt b path
  steps : ((n.flatten.1.expandWildcards settings [] none).1.at? path).map steps =
    some (host.steps.map fun s => s.flatten.1.bind b [] none)

theorem carries_copy_iff (declared : Throughout Declared n) (b : Binding) :
    (n.flatten.1.bind b [] none).Carries path ↔ n.HostedAt b path := by
  have byMarks : carries.ByMarks := fun _ => rfl
  rw [carries_bind_iff (tidy_flatten_of_declared declared)]
  constructor
  · rintro ⟨q, rfl, carried⟩
    obtain ⟨q', last, read, carried⟩ := (carries_flatten_iff declared.tidy_of_declared).1 carried
    obtain ⟨_, taken, m, way, rfl, seen⟩ := (carries.exists_reads_iff byMarks declared).1
      ⟨q', last, read, (carries_at_eq_some_iff last).2 carried⟩
    exact ⟨_, taken, m, way, (carries_see_eq_some_iff _).1 seen,
      map_bound_key b (way.written declared)⟩
  · rintro ⟨_, taken, m, way, steps, rfl⟩
    obtain ⟨q', last, read, seen⟩ := (carries.exists_reads_iff byMarks declared).2
      ⟨_, taken, m, way, rfl, (carries_see_eq_some_iff _).2 steps⟩
    exact ⟨taken.map Token.key, map_bound_key b (way.written declared),
      (carries_flatten_iff declared.tidy_of_declared).2
        ⟨q', last, read, (carries_at_eq_some_iff last).1 seen⟩⟩

theorem Way.length_eq {written taken : List Token} (way : n.Way written taken m) :
    taken.length = written.length := by
  induction way with
  | here => rfl
  | onward child option later ih => rw [List.length_cons, List.length_cons, ih]

theorem HostedAt.length_eq {b : Binding} {place : List Key} (tidy : Throughout (Tidy K) n)
    (single : ∀ q, n.Carries q → q = place) (hosted : n.HostedAt b p) : p.length = place.length := by
  obtain ⟨written, taken, m, way, steps, rfl⟩ := hosted
  rw [← single _ ⟨m, way.at? tidy, steps⟩, boundKeys, List.length_map, List.length_map, way.length_eq]

theorem bind_steps_congr {b b' : Binding} (declared : Throughout Declared n)
    (agree : Binding.Agree (fun w => ∃ s ∈ n.steps, w ∈ s.wildcardsBelow) b b') :
    n.steps.map (fun s => s.flatten.1.bind b [] none) =
      n.steps.map fun s => s.flatten.1.bind b' [] none := by
  refine List.map_congr_left fun s member => ?_
  have tidy : Throughout (Tidy (Token.Within (s.mentions none))) s.flatten.1 :=
    (throughout_flatten_of_declared (declared.steps s member)).imp fun _ tidy =>
      tidy.imp fun _ within => within.1
  exact bind_congr tidy (fun w mentioned => agree w ⟨s, member, mentions_none.1 mentioned⟩) rfl

theorem steps_at?_copy {b : Binding} (declared : Throughout Declared n)
    (carry : n.flatten.1.Carry (ss.map fun s => s.flatten.1)) (hosted : n.HostedAt b p) :
    ((n.flatten.1.bind b [] none).at? p).map steps =
      some (ss.map fun s => s.flatten.1.bind b [] none) := by
  obtain ⟨m, found, nonempty⟩ := (carries_copy_iff declared b).2 hosted
  have bound := carry_bind (throughout_flatten_of_declared declared) carry b p m found nonempty
  rw [found, Option.map_some, bound, List.map_map]
  rfl

/-! ## What is kept of a copy -/

def spliced (settings : ExpansionSettings) (n : Node) : Node := (n.splice settings [n.place none]).1

/-- Where nothing is contested, only the relay steps that are carried on a path matter for it. -/
theorem isSome_at?_spliced_of_followed {settings : ExpansionSettings} {n' : Node}
    (tidy : Throughout (Tidy K) n) (tidy' : Throughout (Tidy K) n')
    (uncontested : Uncontested path (Lands none n))
    (followed : Followed path n n') (follows : Followed path n' n)
    (found : (n.at? path).isSome → (n'.at? path).isSome)
    (present : ((n.spliced settings).at? path).isSome) : ((n'.spliced settings).at? path).isSome := by
  have lands' : ∃ ss, Lands none n' path ss := by
    obtain ⟨ss, lands⟩ := exists_lands_of_isSome tidy present
    rcases lands.transfer followed with ⟨_, there⟩ | lands
    · obtain ⟨m, there⟩ := Option.isSome_iff_exists.1 (found there)
      exact ⟨_, lands_of_at? none there⟩
    · exact ⟨ss, lands⟩
  obtain ⟨ss, lands⟩ := lands'
  refine isSome_of_lands (Nat.le_refl _) tidy' (uncontested.mono fun p xs le there => ?_) lands
  -- whatever competes in one tree competes in the other
  rcases there.transfer (follows.of_le le) with ⟨empty, _⟩ | there
  · exact .inl empty
  · exact .inr there

variable {settings : ExpansionSettings} {host : Node} {b : Binding}

theorem exists_keeps (accepted : settings.Accepted) (declared : Throughout Declared n)
    (carry : n.flatten.1.Carry (host.steps.map fun s => s.flatten.1))
    (enumerated : b ∈ Binding.enumerate settings (n.mentions none)) (hosted : n.HostedAt b path) :
    ∃ b', n.Keeps settings host path b' := by
  have carried := carries_of_copy accepted declared enumerated ((carries_copy_iff declared b).2 hosted)
  obtain ⟨m, found, nonempty⟩ := carried
  obtain ⟨b', among, carried, kept⟩ := exists_kept accepted declared carry found nonempty
  refine ⟨b', among, (carries_copy_iff declared b').1 carried, ?_⟩
  rw [found, Option.map_some, kept, List.map_map]
  rfl

/-- On a path that a copy takes by way of its relay steps, what is kept of them must be what it has. -/
theorem isSome_at?_spliced_of_hosted {place : List Key} (accepted : settings.Accepted)
    (declared : Throughout Declared n) (single : ∀ q, n.Carries q → q = place)
    (carry : n.flatten.1.Carry (host.steps.map fun s => s.flatten.1))
    (enumerated : b ∈ Binding.enumerate settings (n.mentions none))
    (uncontested : Uncontested path (Lands none (n.flatten.1.bind b [] none)))
    (le : p <+: path) (hosted : n.HostedAt b p)
    (kept : ((n.flatten.1.expandWildcards settings [] none).1.at? p).map steps =
      some (host.steps.map fun s => s.flatten.1.bind b [] none))
    (present : (((n.flatten.1.bind b [] none).spliced settings).at? path).isSome) :
    (((n.flatten.1.expandWildcards settings [] none).1.spliced settings).at? path).isSome := by
  have own := steps_at?_copy declared carry hosted
  -- all hosts are as far from the root as the single position, so a path has one of them at most
  have alone : ∀ b' r, r <+: path → n.HostedAt b' r → r = p := by
    intro b' r le' hosted'
    have length := hosted'.length_eq declared.tidy_of_declared single
    rw [← hosted.length_eq declared.tidy_of_declared single] at length
    exact (List.prefix_of_prefix_length_le le' le (Nat.le_of_eq length)).eq_of_length length
  have followed : Followed path (n.flatten.1.bind b [] none)
      (n.flatten.1.expandWildcards settings [] none).1 := by
    refine followed_of_single (fun r m le' found nonempty => ?_) (kept.trans own.symm)
    exact alone b r le' ((carries_copy_iff declared b).1 ⟨m, found, nonempty⟩)
  have follows : Followed path (n.flatten.1.expandWildcards settings [] none).1
      (n.flatten.1.bind b [] none) := by
    refine followed_of_single (fun r m le' found nonempty => ?_) (own.trans kept.symm)
    obtain ⟨b', _, carried, _⟩ := exists_kept accepted declared carry found nonempty
    exact alone b' r le' ((carries_copy_iff declared b').1 carried)
  exact isSome_at?_spliced_of_followed (throughout_copy declared b) (throughout_expanded accepted declared)
    uncontested followed follows (isSome_at?_of_copy accepted declared enumerated) present

/-- Other paths are those of the copy itself. -/
theorem isSome_at?_spliced_of_not_hosted (accepted : settings.Accepted) (declared : Throughout Declared n)
    (enumerated : b ∈ Binding.enumerate settings (n.mentions none))
    (nowhere : ∀ p, p <+: path → ¬ n.HostedAt b p)
    (present : (((n.flatten.1.bind b [] none).spliced settings).at? path).isSome) :
    (((n.flatten.1.expandWildcards settings [] none).1.spliced settings).at? path).isSome := by
  obtain ⟨ss, lands⟩ := exists_lands_of_isSome (throughout_copy declared b) present
  have itself : ((n.flatten.1.bind b [] none).at? path).isSome := by
    rcases lands.split with ⟨m, found, _⟩ | ⟨p, m, i, s, c, rest, rfl, found, step, _⟩
    · rw [found, Option.isSome_some]
    · have nonempty : m.steps ≠ [] := fun empty => by rw [empty] at step; cases step
      have hosted := (carries_copy_iff declared b).1 ⟨m, found, nonempty⟩
      exact absurd hosted (nowhere p (List.prefix_append p _))
  exact isSome_at?_spliceFuel (throughout_expanded accepted declared)
    (isSome_at?_of_copy accepted declared enumerated itself)

end Node

open Node

variable {shorthands : List Shorthand} {document : Value} {draft : Document.Draft}
  {settings : ExpansionSettings} {place : List Key} {host : Node} {b : Binding}

/-- Wherever a single position with relay steps is taken, the relay steps of one copy are kept
whole. A copy that binds them as they are kept, wherever it hosts them on a path, loses nothing on
this path, unless relay steps compete on it. -/
theorem isSome_at?_expand_of_kept [Pattern.Judge] (built : Document.build shorthands document = .ok draft)
    (accepted : settings.Accepted) (hosted : draft.node.at? place = some host)
    (single : ∀ q, draft.node.Carries q → q = place)
    (enumerated : b ∈ Binding.enumerate settings (draft.node.mentions none)) :
    (∀ p, draft.node.HostedAt b p → ∃ b', draft.node.Keeps settings host p b') ∧
      ∀ path, Uncontested path (Lands none (draft.node.flatten.1.bind b [] none)) →
        (∀ p, p <+: path → draft.node.HostedAt b p → ∃ b', draft.node.Keeps settings host p b' ∧
          Binding.Agree (fun w => ∃ s ∈ host.steps, w ∈ s.wildcardsBelow) b b') →
        (((draft.node.flatten.1.bind b [] none).spliced settings).at? path).isSome →
        ((draft.node.expand settings {}).1.at? path).isSome := by
  have declared := Document.throughout_declared built
  -- all that is carried anywhere are copies of the relay steps of the one position
  have only : draft.node.Carry host.steps := by
    intro q m found nonempty
    rw [single q ⟨m, found, nonempty⟩, hosted, Option.some.injEq] at found
    rw [found]
  have carry : draft.node.flatten.1.Carry (host.steps.map fun s => s.flatten.1) :=
    carry_flattenFuel (Nat.le_refl _) declared.tidy_of_declared only
  refine ⟨fun p hosts => exists_keeps accepted declared carry enumerated hosts, ?_⟩
  intro path uncontested agrees present
  -- either the copy takes the path by way of its relay steps, or it has the path itself
  by_cases reached : ∃ p, p <+: path ∧ draft.node.HostedAt b p
  · obtain ⟨p, le, hosts⟩ := reached
    obtain ⟨b', keeps, agree⟩ := agrees p le hosts
    have kept := keeps.steps
    rw [← bind_steps_congr (declared.of_at? hosted) agree] at kept
    exact isSome_at?_spliced_of_hosted accepted declared single carry enumerated uncontested le hosts
      kept present
  · refine isSome_at?_spliced_of_not_hosted accepted declared enumerated (fun p le hosts => ?_) present
    exact reached ⟨p, le, hosts⟩

def relayRaises : Value :=
  .map [(.text "1M", .map [(.text "-steps", .list [.map [(.text "2M", .text "raise")]])])]

def heartRaise : List Key := (Sequence.tokens "1H-1S-P-2H").map Token.key

theorem isSome_at?_expand_of_kept_relayRaises : ∃ draft host b, Document.build [] relayRaises = .ok draft ∧
    ({} : ExpansionSettings).Accepted ∧ draft.node.at? [.text "1M"] = some host ∧
    (∀ q, draft.node.Carries q → q = [.text "1M"]) ∧
    b ∈ Binding.enumerate {} (draft.node.mentions none) ∧
    ((draft.node.expand {} {}).1.at? heartRaise).isSome := by
  obtain ⟨draft, built, holds⟩ := exists_draft relayRaises
    (fun draft => decide (draft.node.carriers = [[.text "1M"]] ∧ (draft.node.at? [.text "1M"]).isSome ∧
      (∃ b ∈ Binding.enumerate {} (draft.node.mentions none),
        (draft.node.flatten.1.bind b [] none).Carries (heartRaise.take 1)) ∧
      ∀ b ∈ Binding.enumerate {} (draft.node.mentions none),
        (draft.node.flatten.1.bind b [] none).Carries (heartRaise.take 1) →
          (draft.node.flatten.1.bind b [] none).carriers = [heartRaise.take 1] ∧
          Throughout (fun m => ∀ s ∈ m.steps, Throughout (fun m => m.steps = []) s)
            (draft.node.flatten.1.bind b [] none) ∧
          (((draft.node.flatten.1.bind b [] none).spliced {}).at? heartRaise).isSome))
    (by decide +kernel)
  rw [decide_eq_true_eq] at holds
  obtain ⟨carriers, present, ⟨b, member, carried⟩, flat⟩ := holds
  obtain ⟨host, hosted⟩ := Option.isSome_iff_exists.1 present
  have declared := Document.throughout_declared built
  have single : ∀ q, draft.node.Carries q → q = [.text "1M"] := fun q carried =>
    List.mem_singleton.1 (carriers ▸ carried.mem_carriers)
  have hosts := (carries_copy_iff declared b).1 carried
  obtain ⟨b', keeps⟩ :=
    (isSome_at?_expand_of_kept built accepted_default hosted single member).1 _ hosts
  -- the copy whose relay steps are kept at the opening loses nothing
  obtain ⟨alone, flat, raised⟩ := flat b' keeps.enumerated ((carries_copy_iff declared b').2 keeps.hosted)
  have nothingLost := (isSome_at?_expand_of_kept built accepted_default hosted single keeps.enumerated).2
  refine ⟨draft, host, b', built, accepted_default, hosted, single, keeps.enumerated,
    nothingLost _ (uncontested_of_flat flat) (fun p _ hosts => ⟨b', ?_, fun w _ => rfl⟩) raised⟩
  have there := ((carries_copy_iff declared b').2 hosts).mem_carriers
  rw [alone, List.mem_singleton] at there
  exact there ▸ keeps

/-- A single position of a document's tree carries relay steps, and some copy of the tree has a path
that is lost when all copies are merged. -/
def Loses (document : Value) (place : List Key) : Prop :=
  ∃ draft b path, Document.build [] document = .ok draft ∧ (∀ q, draft.node.Carries q ↔ q = place) ∧
    b ∈ Binding.enumerate {} (draft.node.mentions none) ∧
    (((draft.node.flatten.1.bind b [] none).spliced {}).at? path).isSome ∧
    ((draft.node.expand {} {}).1.at? path).isSome = false

theorem loses_of_decide {document : Value} {place : List Key} (path : List Key)
    (holds : (Document.build [] document).toOption.any (fun draft =>
      decide (draft.node.carriers = [place] ∧ draft.node.Carries place ∧
        (∃ b ∈ Binding.enumerate {} (draft.node.mentions none),
          (((draft.node.flatten.1.bind b [] none).spliced {}).at? path).isSome) ∧
        ((draft.node.expand {} {}).1.at? path).isSome = false)) = true) : Loses document place := by
  obtain ⟨draft, built, holds⟩ := exists_draft document _ holds
  obtain ⟨carriers, carried, ⟨b, member, present⟩, absent⟩ := of_decide_eq_true holds
  have single : ∀ q, draft.node.Carries q → q = place := fun q other =>
    List.mem_singleton.1 (carriers ▸ other.mem_carriers)
  exact ⟨draft, b, path, built, fun q => ⟨single q, fun same => same ▸ carried⟩, member, present, absent⟩

/-- A relay over one notrump is answered in either major. -/
def relayAnswers : Value :=
  .map [(.text "1NT", .map [(.text "-steps", .list [.map [(.text "2M", .text "natural")]])])]

/-- A relay over one club has relay steps of its own, and so does what follows it. A major that is
declared there besides is the place where the latter go, if it is spades. -/
def relayContest : Value :=
  .map [
    (.text "1C", .map [(.text "-steps", .list [.map [
      (.text "-", .map [(.text "1H", .map [
        (.text "description", .text "natural"),
        (.text "-steps", .list [.text "relay"])])]),
      (.text "-steps", .list [.map [
        (.text "description", .text "relay"),
        (.text "-steps", .list [.map [(.text "-", .map [(.text "7C", .text "to play")])]])]])]])]),
    (.text "1C-1D-1M", .text "natural")]

/-- Something may be lost: of two copies that bind a relay step differently only one is kept, and a
copy of which nothing is lost by itself may lose relay steps for which others compete in the end. -/
theorem exists_lost_relays : ({} : ExpansionSettings).Accepted ∧
    Loses relayAnswers ((Sequence.tokens "1NT").map Token.key) ∧
    Loses relayContest ((Sequence.tokens "1C").map Token.key) :=
  ⟨accepted_default, loses_of_decide ((Sequence.tokens "1NT-2C-P-2H").map Token.key) (by decide +kernel),
    loses_of_decide ((Sequence.tokens "1C-1D-1H-1S-7C").map Token.key) (by decide +kernel)⟩

end BidBook
