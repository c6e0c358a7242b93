import BidBook.Proofs.Landings

/-! # Laws of merging

A merge keeps the order of the target and puts behind it what only the source has. This is so for the
shorthands of a glossary and for the children of a position. Of two descriptions one stays as a whole,
with its priority and its marks. Hence a source that is merged a second time changes nothing, and of three
trees without relay steps it does not matter which two are merged first.

* `appendNew` — a list, and behind it what is new in another.
* `keys_mergeChildren`, `childAt?_mergeChildren` — the children of a merge, and their order.
* `mergeInto_mergeInto_self`, `mergeInto_assoc` — the laws for trees in which nothing is remembered.
* `merged_merged_self`, `merged_assoc` — the laws for all trees.
-/

namespace BidBook

/-! ## What is new behind what is there -/

section Lists

variable {α : Type} [DecidableEq α]

/-- A list, and behind it those members of another that do not occur in it. -/
def appendNew (old new : List α) : List α := old ++ new.filter (· ∉ old)

theorem mem_appendNew {x : α} {old new : List α} : x ∈ appendNew old new ↔ x ∈ old ∨ x ∈ new := by
  rw [appendNew, List.mem_append, List.mem_filter, decide_eq_true_eq]
  tauto

theorem appendNew_of_forall {old new : List α} (known : ∀ x ∈ new, x ∈ old) : appendNew old new = old := by
  have nothing : new.filter (· ∉ old) = [] :=
    List.filter_eq_nil_iff.2 fun x member => by simpa using known x member
  rw [appendNew, nothing, List.append_nil]

/-- What was put behind a list once is not put there again. -/
theorem appendNew_appendNew_self (old new : List α) :
    appendNew (appendNew old new) new = appendNew old new :=
  appendNew_of_forall fun _ member => mem_appendNew.2 (.inr member)

theorem appendNew_assoc (xs ys zs : List α) :
    appendNew (appendNew xs ys) zs = appendNew xs (appendNew ys zs) := by
  -- new behind both lists is what is new behind either
  have split : (appendNew ys zs).filter (· ∉ xs) =
      ys.filter (· ∉ xs) ++ zs.filter (· ∉ appendNew xs ys) := by
    rw [appendNew, List.filter_append, List.filter_filter]
    congr 1
    exact List.filter_congr fun z _ => by rw [← Bool.decide_and, decide_eq_decide, mem_appendNew, not_or]
  rw [appendNew, appendNew.eq_1 xs (appendNew ys zs), split, ← List.append_assoc]
  rfl

/-- Members may be added one after another, provided that they differ. -/
theorem appendNew_cons {x : α} {xs : List α} (old : List α) (first : x ∉ xs) :
    appendNew old (x :: xs) = appendNew (appendNew old [x]) xs := by
  have apart : appendNew [x] xs = x :: xs := by
    have all : xs.filter (· ∉ [x]) = xs :=
      List.filter_eq_self.2 fun y member => by
        have other : y ≠ x := fun same => first (same ▸ member)
        simpa using other
    rw [appendNew, all, List.singleton_append]
  rw [appendNew_assoc, apart]

theorem appendNew_singleton (old : List α) (x : α) :
    appendNew old [x] = if x ∈ old then old else old ++ [x] := by
  by_cases there : x ∈ old
  · rw [if_pos there, appendNew_of_forall (by simpa using there)]
  · rw [if_neg there, appendNew, List.filter_eq_self.2 (by simpa using there)]

end Lists

/-! ## Glossaries -/

namespace Glossary

theorem eq_of_entries {g h : Glossary} (same : g.entries = h.entries) : g = h := by
  cases g
  cases h
  congr

theorem entries_addAll (g : Glossary) {ss : List Shorthand} (distinct : ss.Nodup) :
    (g.addAll ss).entries = appendNew g.entries ss := by
  induction ss generalizing g with
  | nil => simp [addAll, appendNew]
  | cons s ss ih =>
    rw [List.nodup_cons] at distinct
    have one : (g.add s).entries = appendNew g.entries [s] := by rw [entries_add, appendNew_singleton]
    rw [appendNew_cons _ distinct.1, ← one, ← ih _ distinct.2]
    rfl

theorem addAll_addAll_self (g h : Glossary) :
    (g.addAll h.entries).addAll h.entries = g.addAll h.entries := by
  apply eq_of_entries
  rw [entries_addAll _ h.nodup, entries_addAll _ h.nodup, appendNew_appendNew_self]

theorem addAll_assoc (g h k : Glossary) :
    (g.addAll h.entries).addAll k.entries = g.addAll (h.addAll k.entries).entries := by
  apply eq_of_entries
  rw [entries_addAll _ k.nodup, entries_addAll _ h.nodup, entries_addAll _ (h.addAll k.entries).nodup,
    entries_addAll _ k.nodup, appendNew_assoc]

end Glossary

/-! ## Contents -/

namespace Content

variable {a b c : Content}

theorem not_replaces_self : ¬ a.Replaces a := fun ⟨described, above⟩ =>
  above.elim (fun less => Int.lt_irrefl _ less) fun silent => by simp [described] at silent

theorem Replaces.trans (first : a.Replaces b) (second : b.Replaces c) : a.Replaces c := by
  refine ⟨first.1, second.2.imp_left fun below => ?_⟩
  rcases first.2 with above | silent
  · exact Int.lt_trans below above
  · rw [second.1] at silent
    cases silent

/-- Whatever replaces a description replaces any other, or that other replaces the same one. -/
theorem Replaces.or_replaces (replaces : a.Replaces c) (b : Content) : a.Replaces b ∨ b.Replaces c := by
  obtain ⟨described, above⟩ := replaces
  cases silent : b.isDescribed with
  | false => exact .inl ⟨described, .inr silent⟩
  | true =>
    rcases above with above | nothing
    · by_cases less : b.priority < a.priority
      · exact .inl ⟨described, .inl less⟩
      · exact .inr ⟨silent, .inl (Int.lt_of_lt_of_le above (Int.not_lt.1 less))⟩
    · exact .inr ⟨silent, .inr nothing⟩

theorem prevailing_prevailing_self (a b : Content) : prevailing a (prevailing a b) = prevailing a b := by
  by_cases replaces : a.Replaces b
  · rw [prevailing_of_replaces replaces]
    exact prevailing_of_not_replaces (not_replaces_self (a := a))
  · rw [prevailing_of_not_replaces replaces, prevailing_of_not_replaces replaces]

theorem prevailing_assoc (a b c : Content) :
    prevailing a (prevailing b c) = prevailing (prevailing a b) c := by
  by_cases ab : a.Replaces b
  · have right : prevailing (prevailing a b) c = prevailing a c := by
      rw [prevailing_of_replaces ab]
      rfl
    by_cases bc : b.Replaces c
    · have left : prevailing a b.forget = a.forget := prevailing_of_replaces ab
      rw [right, prevailing_of_replaces bc, left, prevailing_of_replaces (ab.trans bc)]
    · rw [right, prevailing_of_not_replaces bc]
  · have right : prevailing (prevailing a b) c = prevailing b c := by
      rw [prevailing_of_not_replaces ab]
    by_cases bc : b.Replaces c
    · have left : prevailing a b.forget = b.forget := prevailing_of_not_replaces ab
      rw [right, prevailing_of_replaces bc, left]
    · have ac : ¬ a.Replaces c := fun replaces => (replaces.or_replaces b).elim ab bc
      rw [right, prevailing_of_not_replaces bc, prevailing_of_not_replaces ac]

/-- Glossaries have no part in it. -/
theorem prevailing_glossary (g g' h : Glossary) :
    { prevailing { a with glossary := g } { b with glossary := g' } with glossary := h } =
      { prevailing a b with glossary := h } := by
  by_cases replaces : a.Replaces b
  · have same : { a with glossary := g }.Replaces { b with glossary := g' } := replaces
    rw [prevailing_of_replaces replaces, prevailing_of_replaces same]
    rfl
  · have same : ¬ { a with glossary := g }.Replaces { b with glossary := g' } := replaces
    rw [prevailing_of_not_replaces replaces, prevailing_of_not_replaces same]

end Content

namespace Node

open Content

theorem mergeContent_mergeContent_self (source target : Content) :
    mergeContent source (mergeContent source target) = mergeContent source target :=
  calc mergeContent source (mergeContent source target)
    _ = { prevailing source (prevailing source target) with
          glossary := (target.glossary.addAll source.glossary.entries).addAll source.glossary.entries } := by
        rw [mergeContent_eq, mergeContent_eq source target]
        exact prevailing_glossary source.glossary _ _
    _ = mergeContent source target := by
        rw [prevailing_prevailing_self, Glossary.addAll_addAll_self, mergeContent_eq]

theorem mergeContent_assoc (a b c : Content) :
    mergeContent a (mergeContent b c) = mergeContent (mergeContent a b) c :=
  calc mergeContent a (mergeContent b c)
    _ = { prevailing a (prevailing b c) with
          glossary := (c.glossary.addAll b.glossary.entries).addAll a.glossary.entries } := by
        rw [mergeContent_eq, mergeContent_eq b c]
        exact prevailing_glossary a.glossary _ _
    _ = { prevailing (prevailing a b) c with
          glossary := c.glossary.addAll (b.glossary.addAll a.glossary.entries).entries } := by
        rw [prevailing_assoc, Glossary.addAll_assoc]
    _ = mergeContent (mergeContent a b) c := by
        rw [mergeContent_eq _ c, mergeContent_eq a b]
        exact (prevailing_glossary _ c.glossary _).symm

/-- A source that outranks a merge outranks what it was merged into. -/
theorem lt_of_mergeContent_lt {source target : Content}
    (outranks : (mergeContent source target).priority < source.priority) :
    target.priority < source.priority := by
  rw [mergeContent_eq] at outranks
  by_cases replaces : source.Replaces target
  · rw [prevailing_of_replaces replaces] at outranks
    exact absurd outranks (Int.lt_irrefl _)
  · rwa [prevailing_of_not_replaces replaces] at outranks

/-! ## Relay steps -/

theorem mergeSteps_mergeSteps_self {first second : Bool} {source target : List Node}
    (later : second = true → first = true) :
    mergeSteps second source (mergeSteps first source target) = mergeSteps first source target := by
  cases source with
  | nil => simp [mergeSteps]
  | cons s ss =>
    cases first with
    | true => simp [mergeSteps, copySteps]
    | false =>
      have never : second = false := by simpa using later
      cases target <;> simp [mergeSteps, copySteps, never]

/-! ## Children -/

variable {K : Token → Prop} {s t : Node} {scs cs ds : List (Token × Node)}

/-- The child under a key, with the token by which it is reached. -/
def childAt? (k : Key) (cs : List (Token × Node)) : Option (Token × Node) := cs.find? fun e => e.1.key = k

theorem childAt?_cons (k : Key) (e : Token × Node) (cs : List (Token × Node)) :
    childAt? k (e :: cs) = if e.1.key = k then some e else childAt? k cs := by
  by_cases hit : e.1.key = k <;> simp [childAt?, hit]

theorem childAt?_putChild (k : Key) (t : Token) (n : Node) (cs : List (Token × Node)) :
    childAt? k (putChild t n cs) =
      if t.key = k then some (((childAt? k cs).map Prod.fst).getD t, n) else childAt? k cs := by
  induction cs with
  | nil => by_cases hit : t.key = k <;> simp [putChild, childAt?, hit]
  | cons e rest ih =>
    obtain ⟨u, m⟩ := e
    by_cases same : u.key = t.key
    · by_cases hit : t.key = k <;> simp [putChild, childAt?, same, hit]
    · rw [putChild, if_neg same, childAt?_cons, childAt?_cons, ih]
      by_cases first : u.key = k
      · have other : t.key ≠ k := fun hit => same (first.trans hit.symm)
        rw [if_pos first, if_pos first, if_neg other]
      · rw [if_neg first, if_neg first]

/-- What a merge makes of the children under a key: it is that of the target, or a new one, with the
source's merged into it. -/
def mergeAt : Option (Token × Node) → Option (Token × Node) → Option (Token × Node)
  | none, target => target
  | some (u, n), none => some (u, mergeInto n (ofToken u))
  | some (_, n), some (v, m) => some (v, mergeInto n m)

theorem childAt?_mergeChildren (distinct : (scs.map fun e => e.1.key).Nodup) (cs : List (Token × Node))
    (k : Key) : childAt? k (mergeChildren scs cs) = mergeAt (childAt? k scs) (childAt? k cs) := by
  induction scs generalizing cs with
  | nil => rfl
  | cons e rest ih =>
    obtain ⟨u, n⟩ := e
    rw [List.map_cons, List.nodup_cons] at distinct
    rw [mergeChildren, ih distinct.2, childAt?_putChild]
    by_cases hit : u.key = k
    · have last : childAt? k rest = none := by
        rw [childAt?, List.find?_eq_none]
        rintro e member same
        exact distinct.1 (hit ▸ of_decide_eq_true same ▸ List.mem_map_of_mem member)
      rw [childAt?_cons, last, if_pos hit, if_pos hit, childOrNew, find?_eq_map_find?, hit, ← childAt?]
      cases childAt? k cs <;> rfl
    · rw [childAt?_cons, if_neg hit, if_neg hit]

/-- The children of the target come first, and behind them those that only the source has. -/
theorem keys_mergeChildren (distinct : (scs.map fun e => e.1.key).Nodup) (cs : List (Token × Node)) :
    (mergeChildren scs cs).map (fun e => e.1.key) =
      appendNew (cs.map fun e => e.1.key) (scs.map fun e => e.1.key) := by
  induction scs generalizing cs with
  | nil => simp [mergeChildren, appendNew]
  | cons e rest ih =>
    obtain ⟨u, n⟩ := e
    rw [List.map_cons, List.nodup_cons] at distinct
    rw [mergeChildren, ih distinct.2, keys_putChild, List.map_cons, ← appendNew_singleton,
      ← appendNew_cons _ distinct.1]

/-- Children are told by their order and by what is found under each key. -/
theorem eq_of_keys_of_childAt? (distinct : (cs.map fun e => e.1.key).Nodup)
    (keys : (cs.map fun e => e.1.key) = ds.map fun e => e.1.key) (same : ∀ k, childAt? k cs = childAt? k ds) :
    cs = ds := by
  have read : ∀ {es : List (Token × Node)}, (es.map fun e => e.1.key).Nodup →
      es.map some = (es.map fun e => e.1.key).map fun k => childAt? k es := by
    intro es distinct
    rw [List.map_map]
    exact List.map_congr_left fun e member => (find?_key_of_mem distinct member).symm
  have all : cs.map some = ds.map some := by
    rw [read distinct, read (keys ▸ distinct), keys]
    exact List.map_congr_left fun k _ => same k
  exact List.map_injective_iff.2 (fun _ _ => Option.some.inj) all

theorem mem_of_childAt? {k : Key} {e : Token × Node} (found : childAt? k cs = some e) : e ∈ cs :=
  List.mem_of_find?_eq_some found

/-! ## Trees in which nothing is remembered -/

theorem eq_of_parts {n m : Node} (content : n.content = m.content) (steps : n.steps = m.steps)
    (children : n.children = m.children) : n = m := by
  cases n
  cases m
  congr

theorem children_mergeInto_of_tidy (source : Node) (tidy : Throughout (Tidy K) t) :
    (mergeInto source t).children = mergeChildren source.children t.children := by
  rw [children_mergeInto]
  split
  · rw [← children_forgetAll, tidy.forgetAll_eq]
  · rfl

theorem content_mergeInto_of_tidy (source : Node) (tidy : Throughout (Tidy K) t) :
    (mergeInto source t).content = mergeContent source.content t.content := by
  rw [content_mergeInto, Content.forget_of_fresh (Throughout.fresh_mergeContent tidy.here.fresh), ite_self]

/-- A position about which nothing is known has nothing to bring. -/
theorem mergeInto_ofToken (u : Token) (n : Node) : mergeInto (ofToken u) n = n := by
  have nothing : (ofToken u).brings n = false := rfl
  have silent : ¬ (ofToken u).content.Replaces n.content := fun replaces => by cases replaces.1
  apply eq_of_parts
  · rw [content_mergeInto, nothing, if_neg Bool.false_ne_true, mergeContent_eq,
      prevailing_of_not_replaces silent]
    rfl
  · rw [steps_mergeInto]
    rfl
  · rw [children_mergeInto, nothing, if_neg Bool.false_ne_true]
    rfl

/-- A source that is merged again changes nothing. -/
theorem mergeInto_mergeInto_self (source : Throughout (Tidy K) s) (target : Throughout (Tidy K) t) :
    mergeInto s (mergeInto s t) = mergeInto s t := by
  induction source generalizing t with
  | @mk s here steps below _ again =>
    have merged : Throughout (Tidy K) (mergeInto s t) := (Throughout.mk here steps below).mergeInto target
    apply eq_of_parts
    · rw [content_mergeInto_of_tidy _ merged, content_mergeInto_of_tidy _ target,
        mergeContent_mergeContent_self]
    · rw [steps_mergeInto s (mergeInto s t), content_mergeInto_of_tidy _ target, steps_mergeInto s t]
      refine mergeSteps_mergeSteps_self fun later => ?_
      exact decide_eq_true (lt_of_mergeContent_lt (of_decide_eq_true later))
    · rw [children_mergeInto_of_tidy _ merged, children_mergeInto_of_tidy _ target]
      apply eq_of_keys_of_childAt? (nodup_mergeChildren _ (nodup_mergeChildren _ target.here.distinct))
      · rw [keys_mergeChildren here.distinct, keys_mergeChildren here.distinct, appendNew_appendNew_self]
      · intro k
        rw [childAt?_mergeChildren here.distinct, childAt?_mergeChildren here.distinct]
        cases inS : childAt? k s.children with
        | none => rfl
        | some e =>
          have again := fun {m : Node} => @again e (mem_of_childAt? inS) m
          cases inT : childAt? k t.children with
          | none => rw [mergeAt, mergeAt, again (throughout_tidy_ofToken e.1)]
          | some d => rw [mergeAt, mergeAt, again (target.children d (mem_of_childAt? inT))]

/-! ## Without relay steps -/

theorem stepCount_eq_zero_iff {n : Node} :
    n.stepCount = 0 ↔ n.steps = [] ∧ ∀ e ∈ n.children, e.2.stepCount = 0 := by
  obtain ⟨c, ss, cs⟩ := n
  have steps : stepCountSteps ss = 0 ↔ ss = [] := by
    cases ss with
    | nil => simp [stepCountSteps]
    | cons s ss => simp [stepCountSteps]
  have children : stepCountChildren cs = 0 ↔ ∀ e ∈ cs, e.2.stepCount = 0 := by
    induction cs with
    | nil => simp [stepCountChildren]
    | cons e rest ih => rw [stepCountChildren, Nat.add_eq_zero_iff, ih, List.forall_mem_cons]
  rw [stepCount, Nat.add_eq_zero_iff, steps, children, steps_mk, children_mk]

/-- A copy has as many relay steps as the tree itself. -/
theorem stepCount_copy_eq (n : Node) : n.copy.stepCount = n.stepCount := by
  induction n using Node.induction with
  | position c ss cs steps below =>
    have stepsSame : stepCountSteps (copySteps ss) = stepCountSteps ss := by
      induction ss with
      | nil => rfl
      | cons s ss ih =>
        rw [List.forall_mem_cons] at steps
        rw [copySteps, stepCountSteps, stepCountSteps, steps.1, ih steps.2]
    have childrenSame : stepCountChildren (copyChildren cs) = stepCountChildren cs := by
      induction cs with
      | nil => rfl
      | cons e cs ih =>
        rw [List.forall_mem_cons] at below
        rw [copyChildren, stepCountChildren, stepCountChildren, below.1, ih below.2]
    rw [copy, stepCount, stepCount, stepsSame, childrenSame]

theorem stepCount_copy {n : Node} (bare : n.stepCount = 0) : n.copy.stepCount = 0 :=
  (stepCount_copy_eq n).trans bare

/-- The children under one key may be merged in either order, if this is so for those below the first. -/
theorem mergeAt_assoc {P : Node → Prop} {d e f : Option (Token × Node)} (new : ∀ u, P (ofToken u))
    (assoc : ∀ x, d = some x → ∀ m n, P m → P n →
      mergeInto x.2 (mergeInto m n) = mergeInto (mergeInto x.2 m) n)
    (second : ∀ y, e = some y → P y.2) (third : ∀ z, f = some z → P z.2) :
    mergeAt d (mergeAt e f) = mergeAt (mergeAt d e) f := by
  cases d with
  | none => rfl
  | some x =>
    obtain ⟨u, l⟩ := x
    have child := assoc (u, l) rfl
    -- what was merged into a new position first is merged on as if it were the child itself
    have alone : ∀ {n}, P n → mergeInto (mergeInto l (ofToken u)) n = mergeInto l n := fun there => by
      rw [← child _ _ (new u) there, mergeInto_ofToken]
    cases e with
    | none =>
      cases f with
      | none => simp only [mergeAt, alone (new u)]
      | some z => simp only [mergeAt, alone (third z rfl)]
    | some y =>
      cases f with
      | none => simp only [mergeAt, child _ _ (second y rfl) (new y.1)]
      | some z => simp only [mergeAt, child _ _ (second y rfl) (third z rfl)]

theorem mergeInto_assoc {a b c : Node} (tidyA : Throughout (Tidy K) a) (tidyB : Throughout (Tidy K) b)
    (tidyC : Throughout (Tidy K) c) (bareA : a.stepCount = 0) (bareB : b.stepCount = 0)
    (bareC : c.stepCount = 0) :
    mergeInto a (mergeInto b c) = mergeInto (mergeInto a b) c := by
  induction tidyA generalizing b c with
  | @mk a here _ _ _ assoc =>
    have tidyBC := tidyB.mergeInto tidyC
    rw [stepCount_eq_zero_iff] at bareA bareB bareC
    apply eq_of_parts
    · rw [content_mergeInto_of_tidy _ tidyBC, content_mergeInto_of_tidy _ tidyC,
        content_mergeInto_of_tidy _ tidyC, content_mergeInto_of_tidy _ tidyB, mergeContent_assoc]
    · have none : ∀ {s t : Node}, s.steps = [] → t.steps = [] → (mergeInto s t).steps = [] :=
        fun source target => steps_mergeInto_eq_nil_iff.2 ⟨source, target⟩
      rw [none bareA.1 (none bareB.1 bareC.1), none (none bareA.1 bareB.1) bareC.1]
    · have distinctAB : ((mergeChildren a.children b.children).map fun e => e.1.key).Nodup :=
        nodup_mergeChildren _ tidyB.here.distinct
      rw [children_mergeInto_of_tidy _ tidyBC, children_mergeInto_of_tidy _ tidyC,
        children_mergeInto_of_tidy _ tidyC, children_mergeInto_of_tidy _ tidyB]
      apply eq_of_keys_of_childAt? (nodup_mergeChildren _ (nodup_mergeChildren _ tidyC.here.distinct))
      · rw [keys_mergeChildren here.distinct, keys_mergeChildren tidyB.here.distinct,
          keys_mergeChildren distinctAB, keys_mergeChildren here.distinct, appendNew_assoc]
      · intro k
        rw [childAt?_mergeChildren here.distinct, childAt?_mergeChildren tidyB.here.distinct,
          childAt?_mergeChildren distinctAB, childAt?_mergeChildren here.distinct]
        refine mergeAt_assoc (P := fun n => Throughout (Tidy K) n ∧ n.stepCount = 0)
          (fun u => ⟨throughout_tidy_ofToken u, rfl⟩) (fun d inA m n first after => ?_)
          (fun e inB => ?_) (fun f inC => ?_)
        · have member := mem_of_childAt? inA
          exact assoc d member first.1 after.1 (bareA.2 d member) first.2 after.2
        · have member := mem_of_childAt? inB
          exact ⟨tidyB.children e member, bareB.2 e member⟩
        · have member := mem_of_childAt? inC
          exact ⟨tidyC.children f member, bareC.2 f member⟩

/-! ## Whatever is remembered -/

/-- What is remembered in the source plays no part in a merge. -/
theorem mergeInto_copy (source target : Node) : mergeInto source.copy target = mergeInto source target := by
  induction source using Node.induction generalizing target with
  | position c ss cs _ below =>
    have children : ∀ ds, mergeChildren (copyChildren cs) ds = mergeChildren cs ds := by
      induction cs with
      | nil => exact fun _ => rfl
      | cons e rest ih =>
        intro ds
        rw [copyChildren, mergeChildren, mergeChildren, below e List.mem_cons_self,
          ih fun e member => below e (List.mem_cons_of_mem _ member)]
    have steps : ∀ outranks, mergeSteps outranks (copySteps ss) target.steps =
        mergeSteps outranks ss target.steps := by
      intro outranks
      rw [mergeSteps, mergeSteps, copySteps_copySteps, copySteps_eq_map, List.isEmpty_map]
    apply eq_of_parts
    · rw [content_mergeInto, content_mergeInto, brings, content_copy]
      rfl
    · rw [steps_mergeInto, steps_mergeInto, content_copy, steps_copy]
      exact steps _
    · rw [children_mergeInto, children_mergeInto, children_copy, brings, content_copy]
      exact children _

/-- A copy of a tree is the tree itself, except for what is remembered. -/
theorem WellFormed.tidy_copy {n : Node} (formed : n.WellFormed) :
    Throughout (Tidy fun _ => True) n.copy := by
  induction n using Node.induction with
  | position c ss cs stepsTidy below =>
    obtain ⟨steps, distinct, children⟩ := wellFormed_iff.1 formed
    refine .mk ⟨?_, fun _ _ => trivial, rfl⟩ ?_ ?_
    · rw [children_copy, copyChildren_eq_map, List.map_map]
      exact distinct
    · rw [steps_copy, copySteps_eq_map, List.forall_mem_map]
      exact fun s member => stepsTidy s member (steps s member)
    · rw [children_copy, copyChildren_eq_map, List.forall_mem_map]
      exact fun e member => below e member (children e member)

theorem merged_eq (source target : Node) : merged source target = mergeInto source.copy target.copy :=
  (mergeInto_copy source target.copy).symm

/-- A merge with a copy remembers nothing that would have to be forgotten. -/
theorem copy_merged {source target : Node} (formed : source.WellFormed) (formed' : target.WellFormed) :
    (merged source target).copy = mergeInto source.copy target.copy := by
  rw [merged_eq]
  exact copy_eq (formed.tidy_copy.mergeInto formed'.tidy_copy)

/-- Merging a source a second time changes nothing. -/
theorem merged_merged_self {source target : Node} (formed : source.WellFormed)
    (formed' : target.WellFormed) : merged source (merged source target) = merged source target :=
  calc merged source (merged source target)
    _ = mergeInto source.copy (mergeInto source.copy target.copy) := by
        rw [merged_eq source (merged source target), copy_merged formed formed']
    _ = merged source target := by
        rw [mergeInto_mergeInto_self formed.tidy_copy formed'.tidy_copy, merged_eq]

/-- A system of one opening, which is followed by relay steps and a pass, with a shorthand for all of it. -/
def clubOpening (shorthand : Shorthand) (opening pass : Content) (relays : List Content) : Node :=
  mk { glossary := .ofList [shorthand] } [] [(.ofCall (.bid .lowest),
    mk opening (relays.map (mk · [] [])) [(.ofCall .pass, mk pass [] [])])]

theorem wellFormed_clubOpening (shorthand : Shorthand) (opening pass : Content) (relays : List Content) :
    (clubOpening shorthand opening pass relays).WellFormed := by
  simp [clubOpening, WellFormed, wellFormedSteps_iff, WellFormedSteps, WellFormedChildren]

/-- The first merge lowers the priority of the opening, and the second one goes by the lower one. -/
theorem merged_merged_self_clubs :
    let source := clubOpening ⟨"HCP", "points"⟩ { description := some "16+ HCP", priority := -1 } {}
      [{ description := some "shape" }]
    let target := clubOpening ⟨"GF", "forcing"⟩ { priority := 2, resolved := some "any" }
      { description := some "weak" } [{ description := some "controls" }]
    merged source (merged source target) = merged source target :=
  merged_merged_self (wellFormed_clubOpening _ _ _ _) (wellFormed_clubOpening _ _ _ _)

/-- Of three trees without relay steps it does not matter which two are merged first. -/
theorem merged_assoc {a b c : Node} (formedA : a.WellFormed) (formedB : b.WellFormed)
    (formedC : c.WellFormed) (bareA : a.stepCount = 0) (bareB : b.stepCount = 0) (bareC : c.stepCount = 0) :
    merged a (merged b c) = merged (merged a b) c :=
  calc merged a (merged b c)
    _ = mergeInto a.copy (mergeInto b.copy c.copy) := by
        rw [merged_eq a (merged b c), copy_merged formedB formedC]
    _ = mergeInto (mergeInto a.copy b.copy) c.copy :=
        mergeInto_assoc formedA.tidy_copy formedB.tidy_copy formedC.tidy_copy (stepCount_copy bareA)
          (stepCount_copy bareB) (stepCount_copy bareC)
    _ = merged (merged a b) c := by
        rw [merged_eq (merged a b) c, copy_merged formedA formedB]

/-- The opening is described by the first and the last system, and the pass by the one between them. -/
theorem merged_assoc_clubs :
    let a := clubOpening ⟨"HCP", "points"⟩ { description := some "16+ HCP", priority := 2 } {} []
    let b := clubOpening ⟨"GF", "forcing"⟩ { priority := 3 }
      { description := some "0-7 HCP", alertable := true } []
    let c := clubOpening ⟨"HCP", "points"⟩ { description := some "natural", priority := 2 }
      { priority := 1 } []
    merged a (merged b c) = merged (merged a b) c :=
  merged_assoc (wellFormed_clubOpening _ _ _ _) (wellFormed_clubOpening _ _ _ _)
    (wellFormed_clubOpening _ _ _ _) rfl rfl rfl

end Node

end BidBook
