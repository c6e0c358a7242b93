import BidBook.Proofs.Merging

/-! # What is seen at a position

Merging decides at each position which of several contents stays. An `Observation` is something to
be seen at a position, or not, together with a rank; of what two trees show at a path, a merge of
them shows one thing that no other outranks. From this single fact, stated for two positions,
follows what is seen at each path after any number of merges.

* `Prevails` — of all that is offered, nothing outranks the outcome.
* `Observation` — what can be seen, and what a merge of two positions has to do with it.
* `Observation.at_mergeInto` — the same for every path of a merge.
* `Observation.at_foldl_placeCandidate` — the same for candidates that were placed one after another.
* `presence`, `remarks`, `holding` — three observations: a position, what it says, and a shorthand.
-/

namespace BidBook

/-! ## Prevailing -/

/-- The outcome is one of the offers, and none outranks it; it is nothing only if nothing is offered. -/
def Prevails {β : Type} (rank : β → Int) (offered : β → Prop) : Option β → Prop
  | none => ∀ b, ¬ offered b
  | some b => offered b ∧ ∀ c, offered c → rank c ≤ rank b

namespace Prevails

variable {β ι : Type} {rank : β → Int} {offered offered' : β → Prop}

theorem single (o : Option β) : Prevails rank (fun b => o = some b) o := by
  cases o with
  | none => exact fun b h => by cases h
  | some b => exact ⟨rfl, fun c h => by cases h; exact Int.le_refl _⟩

theorem congr {o : Option β} (h : Prevails rank offered o) (same : ∀ b, offered b ↔ offered' b) :
    Prevails rank offered' o := by
  have eq : offered = offered' := funext fun b => propext (same b)
  exact eq ▸ h

theorem isSome_iff {o : Option β} (h : Prevails rank offered o) :
    o.isSome ↔ ∃ b, offered b := by
  cases o with
  | none => exact iff_of_false (by simp) fun ⟨b, offer⟩ => h b offer
  | some b => exact iff_of_true rfl ⟨b, h.1⟩

/-- Where the offers are themselves outcomes, the outcome prevails over all that was offered for
them. -/
theorem compose (among : ι → Prop) (outcome : ι → Option β) {offers : ι → β → Prop} {o : Option β}
    (inner : ∀ i, among i → Prevails rank (offers i) (outcome i))
    (outer : Prevails rank (fun b => ∃ i, among i ∧ outcome i = some b) o) :
    Prevails rank (fun b => ∃ i, among i ∧ offers i b) o := by
  -- an offer for `i` means that something came of `i`, and what came of it is no worse
  have reached : ∀ b i, among i → offers i b →
      ∃ c, outcome i = some c ∧ rank b ≤ rank c := by
    intro b i member offer
    have prevails := inner i member
    cases result : outcome i with
    | none => exact absurd offer ((result ▸ prevails) b)
    | some c =>
      rw [result] at prevails
      exact ⟨c, rfl, prevails.2 b offer⟩
  cases o with
  | none =>
    rintro b ⟨i, member, offer⟩
    obtain ⟨c, result, _⟩ := reached b i member offer
    exact outer c ⟨i, member, result⟩
  | some b =>
    obtain ⟨⟨i, member, result⟩, best⟩ := outer
    have prevails := inner i member
    rw [result] at prevails
    refine ⟨⟨i, member, prevails.1⟩, ?_⟩
    rintro c ⟨j, member', offer⟩
    obtain ⟨d, result', le⟩ := reached c j member' offer
    exact Int.le_trans le (best d ⟨j, member', result'⟩)

theorem substitute {others : β → Prop} {o r : Option β} (inner : Prevails rank offered o)
    (outer : Prevails rank (fun b => o = some b ∨ others b) r) :
    Prevails rank (fun b => offered b ∨ others b) r := by
  -- the other offers stand for themselves
  have composed : Prevails rank (fun b => ∃ i : Option β, (∀ c, i = some c → others c) ∧
      i.elim (offered b) fun c => c = b) r := by
    refine compose (fun i => ∀ c, i = some c → others c) (fun i => i.elim o some) (fun i _ => ?_) ?_
    · cases i with
      | none => exact inner
      | some c => exact (single (some c)).congr fun b => by simp
    · refine outer.congr fun b => ⟨?_, ?_⟩
      · rintro (same | other)
        · exact ⟨none, fun _ h => (by cases h), same⟩
        · exact ⟨some b, fun c h => (by cases h; exact other), rfl⟩
      · rintro ⟨_ | c, member, result⟩
        · exact .inl result
        · cases result
          exact .inr (member _ rfl)
  refine composed.congr fun b => ⟨?_, ?_⟩
  · rintro ⟨_ | c, member, offer⟩
    · exact .inl offer
    · exact .inr (offer ▸ member c rfl)
  · rintro (offer | other)
    · exact ⟨none, fun _ h => (by cases h), offer⟩
    · exact ⟨some b, fun c h => (by cases h; exact other), rfl⟩

end Prevails

/-! ## Observations -/

structure Marks where
  tag : Option String := none
  alertable : Bool := false
  announceable : Bool := false
  deriving DecidableEq

def Token.marks (t : Token) : Marks := ⟨t.tag, t.alertable, t.announceable⟩

namespace Content

def marks (c : Content) : Marks := ⟨c.tag, c.alertable, c.announceable⟩

/-- Content with the marks of a branch of a choice, if it was one that led here. -/
def under : Option Token → Content → Content
  | none, c => c
  | some t, c => { c with tag := t.tag, alertable := t.alertable, announceable := t.announceable }

@[simp] theorem under_none (c : Content) : under none c = c := rfl

end Content

/-- Something to be seen at a position, or not. It may depend on the branch of a choice that leads
there, but not on what is remembered; of two positions, a merge shows what has the higher rank. -/
structure Observation (β : Type) where
  see : Option Token → Node → Option β
  rank : β → Int
  see_mergeInto : ∀ mark source target,
    Prevails rank (fun b => see mark target = some b ∨ see mark source = some b)
      (see mark (Node.mergeInto source target))
  see_mergeInto_ofToken : ∀ mark source t,
    see mark (Node.mergeInto source (Node.ofToken t)) = see mark source
  see_forgetAll : ∀ mark n, see mark n.forgetAll = see mark n
  see_copy : ∀ mark n, see mark n.copy = see mark n
  see_copyUnder : ∀ branch n, see none (n.copyUnder branch) = see (some branch) n

namespace Observation

open Node

variable {β : Type} (o : Observation β)

/-- What is seen at the end of a path. -/
def «at» (mark : Option Token) (n : Node) (path : List Key) : Option β :=
  (n.at? path).bind (o.see mark)

@[simp] theorem at_nil (mark : Option Token) (n : Node) : o.at mark n [] = o.see mark n := by
  simp [Observation.at]

theorem at_eq_some_iff {mark : Option Token} {n : Node} {path : List Key} {b : β} :
    o.at mark n path = some b ↔ ∃ m, n.at? path = some m ∧ o.see mark m = some b :=
  Option.bind_eq_some_iff

theorem isSome_of_at {mark : Option Token} {n : Node} {path : List Key} {b : β}
    (seen : o.at mark n path = some b) : (n.at? path).isSome := by
  obtain ⟨m, found, _⟩ := o.at_eq_some_iff.1 seen
  exact Option.isSome_iff_exists.2 ⟨m, found⟩

theorem at_cons (mark : Option Token) (n : Node) (k : Key) (path : List Key) :
    o.at mark n (k :: path) = (find? k n.children).bind fun c => o.at mark c path := by
  rw [Observation.at, at?_cons, Option.bind_assoc]
  rfl

theorem at_copy (mark : Option Token) (n : Node) (path : List Key) :
    o.at mark n.copy path = o.at mark n path := by
  rw [Observation.at, at?_copy, Option.bind_map]
  exact Option.bind_congr fun m _ => o.see_copy mark m

theorem see_forgetWhen (mark : Option Token) (stale : Bool) (n : Node) :
    o.see mark (n.forgetWhen stale) = o.see mark n := by
  cases stale with
  | false => rfl
  | true => exact o.see_forgetAll mark n

/-- At each path of a merge, one of the two things seen there prevails. -/
theorem at_mergeInto {source target : Node} (formed : source.WellFormed) (mark : Option Token)
    (path : List Key) :
    Prevails o.rank (fun b => o.at mark target path = some b ∨ o.at mark source path = some b)
      (o.at mark (mergeInto source target) path) := by
  obtain ⟨stale, u, merged⟩ := exists_at?_mergeInto formed target path
  rw [Observation.at, Observation.at, Observation.at, merged]
  cases source.at? path with
  | none =>
    have kept : ((target.at? path).map (forgetWhen stale)).bind (o.see mark) =
        (target.at? path).bind (o.see mark) := by
      rw [Option.bind_map]
      exact Option.bind_congr fun m _ => o.see_forgetWhen mark stale m
    rw [kept]
    exact (Prevails.single _).congr fun b => by simp
  | some s =>
    cases target.at? path with
    | none =>
      -- nothing is seen in a new position, or else what is seen comes from the source
      have new : o.see mark (mergeInto s (ofToken u)) = o.see mark s := o.see_mergeInto_ofToken mark s u
      simp only [Option.map_none, Option.getD_none, Option.bind_some, Option.bind_none, new]
      exact (Prevails.single _).congr fun b => by simp
    | some t =>
      have met := o.see_mergeInto mark s (t.forgetWhen stale)
      rwa [o.see_forgetWhen] at met

/-- What is seen in the child with a certain key, after candidates were placed one after another. -/
theorem at_foldl_placeCandidate {cands : List (Token × Node)}
    (formed : ∀ e ∈ cands, e.2.WellFormed) (k : Key) (mark : Option Token) (path : List Key) :
    Prevails o.rank (fun b => ∃ e ∈ cands, e.1.key = k ∧ o.at mark e.2 path = some b)
      ((find? k (cands.foldl placeCandidate [])).bind fun c => o.at mark c path) := by
  -- the induction needs the children placed before, which offer something, too
  suffices general : ∀ done : List (Token × Node),
      Prevails o.rank (fun b => ((find? k done).bind fun c => o.at mark c path) = some b ∨
          ∃ e ∈ cands, e.1.key = k ∧ o.at mark e.2 path = some b)
        ((find? k (cands.foldl placeCandidate done)).bind fun c => o.at mark c path) by
    exact (general []).congr fun b => by simp [find?]
  induction cands with
  | nil => exact fun done => (Prevails.single _).congr fun b => by simp
  | cons e rest ih =>
    intro done
    obtain ⟨t, n⟩ := e
    have later := ih (fun e member => formed e (List.mem_cons_of_mem _ member))
      (placeCandidate done (t, n))
    have formedHere : n.WellFormed := formed (t, n) List.mem_cons_self
    rw [List.foldl_cons]
    have here : Prevails o.rank (fun b => ((find? k done).bind fun c => o.at mark c path) = some b ∨
        (t.key = k ∧ o.at mark n path = some b))
        ((find? k (placeCandidate done (t, n))).bind fun c => o.at mark c path) := by
      rw [find?_placeCandidate]
      by_cases hit : t.key = k
      · cases present : find? k done with
        | none =>
          simp only [hit, if_true, Option.bind_some]
          exact (Prevails.single _).congr fun b => by simp
        | some m =>
          simp only [hit, if_true, Option.bind_some]
          exact (o.at_mergeInto formedHere mark path).congr fun b => by simp
      · simp only [hit, if_false]
        exact (Prevails.single _).congr fun b => by simp
    exact (Prevails.substitute here later).congr fun b => by simp [or_assoc]

end Observation

/-! ## Presence -/

def presence : Observation Unit where
  see _ _ := some ()
  rank _ := 0
  see_mergeInto _ _ _ := ⟨.inl rfl, fun _ _ => Int.le_refl _⟩
  see_mergeInto_ofToken _ _ _ := rfl
  see_forgetAll _ _ := rfl
  see_copy _ _ := rfl
  see_copyUnder _ _ := rfl

theorem presence_at (mark : Option Token) (n : Node) (path : List Key) :
    presence.at mark n path = (n.at? path).map fun _ => () := by
  rw [Observation.at]
  cases n.at? path <;> rfl

/-! ## Remarks -/

/-- What a described position says: its description with the priority and the marks that go with it. -/
structure Remark where
  description : Option String
  priority : Int
  marks : Marks
  deriving DecidableEq

namespace Content

def remark? (c : Content) : Option Remark :=
  if c.isDescribed then some ⟨c.description, c.priority, c.marks⟩ else none

theorem remark?_forget_under (mark : Option Token) (c : Content) :
    (c.forget.under mark).remark? = (c.under mark).remark? := by
  cases mark <;> rfl

theorem remark?_eq_some_iff {c : Content} {r : Remark} :
    c.remark? = some r ↔
      c.isDescribed ∧ c.description = r.description ∧ c.priority = r.priority ∧
        c.marks = r.marks := by
  obtain ⟨description, priority, marks⟩ := r
  unfold remark?
  split <;> simp_all

theorem remark?_eq_none_iff {c : Content} : c.remark? = none ↔ c.isDescribed = false := by
  unfold remark?
  split <;> simp_all

/-- The description stays unless a described source has a higher priority, or there is none. -/
theorem remark?_mergeContent (mark : Option Token) (source target : Content) :
    ((Node.mergeContent source target).under mark).remark? =
      if source.isDescribed = true ∧
          (target.priority < source.priority ∨ target.isDescribed = false) then
        (source.under mark).remark?
      else (target.under mark).remark? := by
  rw [Node.mergeContent_eq]
  by_cases replaces : source.Replaces target
  · rw [prevailing_of_replaces replaces]
    refine Eq.trans ?_ (if_pos replaces).symm
    cases mark <;> rfl
  · rw [prevailing_of_not_replaces replaces]
    refine Eq.trans ?_ (if_neg replaces).symm
    cases mark <;> rfl

end Content

theorem remark?_content_mergeInto (mark : Option Token) (source target : Node) :
    ((Node.mergeInto source target).content.under mark).remark? =
      ((Node.mergeContent source.content target.content).under mark).remark? := by
  rw [Node.content_mergeInto]
  split
  · exact Content.remark?_forget_under mark _
  · rfl

theorem isDescribed_under (mark : Option Token) (c : Content) :
    (c.under mark).isDescribed = c.isDescribed := by
  cases mark <;> rfl

theorem priority_under (mark : Option Token) (c : Content) :
    (c.under mark).priority = c.priority := by
  cases mark <;> rfl

theorem described_of_remark? {mark : Option Token} {c : Content} {r : Remark}
    (said : (c.under mark).remark? = some r) : c.isDescribed = true ∧ r.priority = c.priority := by
  obtain ⟨described, _, priority, _⟩ := Content.remark?_eq_some_iff.1 said
  rw [isDescribed_under] at described
  rw [priority_under] at priority
  exact ⟨described, priority.symm⟩

theorem remark?_under_eq_none_iff {mark : Option Token} {c : Content} :
    (c.under mark).remark? = none ↔ c.isDescribed = false := by
  rw [Content.remark?_eq_none_iff, isDescribed_under]

theorem exists_remark?_under (mark : Option Token) {c : Content} (described : c.isDescribed = true) :
    ∃ r, (c.under mark).remark? = some r := by
  simp [Content.remark?, isDescribed_under, described]

/-- What the position says. -/
def remarks : Observation Remark where
  see mark n := (n.content.under mark).remark?
  rank r := r.priority
  see_mergeInto mark source target := by
    rw [remark?_content_mergeInto, Content.remark?_mergeContent]
    split
    · next replaced =>
      -- the source speaks, and what the target says has a lower priority
      obtain ⟨r, said⟩ := exists_remark?_under mark replaced.1
      rw [said]
      refine ⟨.inr rfl, ?_⟩
      rintro c (offer | offer)
      · obtain ⟨described, priority⟩ := described_of_remark? offer
        obtain ⟨_, priority'⟩ := described_of_remark? said
        rcases replaced.2 with less | silent
        · show c.priority ≤ r.priority
          omega
        · rw [silent] at described
          cases described
      · cases offer
        exact Int.le_refl _
    · next kept =>
      cases said : (target.content.under mark).remark? with
      | none =>
        have silent := remark?_under_eq_none_iff.1 said
        rintro c (offer | offer)
        · cases offer
        · exact kept ⟨(described_of_remark? offer).1, .inr silent⟩
      | some r =>
        refine ⟨.inl rfl, ?_⟩
        rintro c (offer | offer)
        · cases offer
          exact Int.le_refl _
        · obtain ⟨described, priority⟩ := described_of_remark? offer
          obtain ⟨_, priority'⟩ := described_of_remark? said
          have notLess : ¬ target.content.priority < source.content.priority := fun less =>
            kept ⟨described, .inl less⟩
          show c.priority ≤ r.priority
          omega
  see_mergeInto_ofToken mark source t := by
    rw [remark?_content_mergeInto, Content.remark?_mergeContent]
    have silent : (Node.ofToken t).content.isDescribed = false := rfl
    cases described : source.content.isDescribed with
    | true => rw [if_pos ⟨rfl, .inr silent⟩]
    | false =>
      rw [if_neg fun h => Bool.false_ne_true h.1, remark?_under_eq_none_iff.2 silent,
        remark?_under_eq_none_iff.2 described]
  see_forgetAll mark n := by
    rw [Node.content_forgetAll, Content.remark?_forget_under]
  see_copy mark n := by
    rw [Node.content_copy, Content.remark?_forget_under]
  see_copyUnder branch n := by
    cases n
    rfl

/-! ## Shorthands -/

theorem Glossary.mem_addAll {g : Glossary} {ss : List Shorthand} {s : Shorthand} :
    s ∈ g.addAll ss ↔ s ∈ g ∨ s ∈ ss := by
  unfold Glossary.addAll
  induction ss generalizing g with
  | nil => simp
  | cons t rest ih => rw [List.foldl_cons, ih, Glossary.mem_add, List.mem_cons, or_assoc]

theorem mem_glossary_mergeInto {source target : Node} {s : Shorthand} :
    s ∈ (Node.mergeInto source target).content.glossary ↔
      s ∈ target.content.glossary ∨ s ∈ source.content.glossary := by
  have merged : s ∈ (Node.mergeContent source.content target.content).glossary ↔
      s ∈ target.content.glossary ∨ s ∈ source.content.glossary := by
    rw [Node.mergeContent_eq]
    exact Glossary.mem_addAll
  rw [Node.content_mergeInto]
  split <;> exact merged

/-- One shorthand of the position's glossary. -/
def holding (s : Shorthand) : Observation Unit where
  see _ n := if s ∈ n.content.glossary then some () else none
  rank _ := 0
  see_mergeInto _ source target := by
    by_cases held : s ∈ (Node.mergeInto source target).content.glossary
    · rw [if_pos held]
      refine ⟨?_, fun _ _ => Int.le_refl _⟩
      rcases mem_glossary_mergeInto.1 held with held | held <;> simp [held]
    · rw [if_neg held]
      rw [mem_glossary_mergeInto, not_or] at held
      simp [Prevails, held]
  see_mergeInto_ofToken _ source t := by
    have empty : s ∉ (Node.ofToken t).content.glossary := List.not_mem_nil
    simp [mem_glossary_mergeInto, empty]
  see_forgetAll _ n := by rw [Node.content_forgetAll]; rfl
  see_copy _ n := by rw [Node.content_copy]; rfl
  see_copyUnder _ n := by cases n; rfl

end BidBook
