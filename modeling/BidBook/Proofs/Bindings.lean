import Mathlib.Data.List.Nodup
import Mathlib.Logic.Function.Basic
import Mathlib.Tactic.Choose
import BidBook.Proofs.Suits
import BidBook.Proofs.Tidy

/-! # Bindings and tokens

Two bindings that choose the same suits for the wildcards of a token make the same of it. So what a
binding does to a tree depends only on the kinds of wildcards that occur in it.

* `Binding.mem_enumerate_iff` — the bindings of the kinds that occur.
* `bindToken_congr` — a token under two bindings that agree.
* `Key.bound` — a key under a binding.
* `Token.Within` — tokens whose wildcards are among some kinds.
-/

namespace BidBook

/-! ## Enumerated bindings -/

namespace Binding

def choosing (suit : Wildcard → String) (kinds : List Wildcard) : Binding :=
  ⟨kinds.map fun w => (w, suit w)⟩

theorem suit?_choosing (suit : Wildcard → String) (kinds : List Wildcard) (w : Wildcard) :
    (choosing suit kinds).suit? w = if w ∈ kinds then some (suit w) else none := by
  simp only [choosing, suit?]
  induction kinds with
  | nil => rfl
  | cons v rest ih =>
    rw [List.map_cons, List.lookup_cons]
    by_cases same : w = v
    · subst same
      simp
    · rw [beq_eq_false_iff_ne.2 same]
      simp [same, ih]

theorem mem_combine_iff {suits : Wildcard → List String} {kinds : List Wildcard} (distinct : kinds.Nodup)
    {l : List (Wildcard × String)} :
    l ∈ combine suits kinds ↔
      ∃ suit, (∀ w ∈ kinds, suit w ∈ suits w) ∧ l = (choosing suit kinds).suits := by
  induction kinds generalizing l with
  | nil => simp [combine, choosing]
  | cons w rest ih =>
    rw [List.nodup_cons] at distinct
    constructor
    · intro member
      simp only [combine, List.mem_flatMap, List.mem_map] at member
      obtain ⟨s, drawn, l', member, rfl⟩ := member
      obtain ⟨suit, chosen, rfl⟩ := (ih distinct.2).1 member
      -- the kinds are different, so what is chosen for one changes nothing for the others
      refine ⟨Function.update suit w s, ?_, ?_⟩
      · intro v place
        rcases List.mem_cons.1 place with rfl | later
        · rwa [Function.update_self]
        · rw [Function.update_of_ne (fun same : v = w => distinct.1 (same ▸ later))]
          exact chosen v later
      · simp only [choosing, List.map_cons, Function.update_self, List.cons.injEq, true_and]
        refine List.map_congr_left fun v later => ?_
        rw [Function.update_of_ne (fun same : v = w => distinct.1 (same ▸ later))]
    · rintro ⟨suit, chosen, rfl⟩
      simp only [combine, List.mem_flatMap, List.mem_map]
      exact ⟨suit w, chosen w List.mem_cons_self, (choosing suit rest).suits,
        (ih distinct.2).2 ⟨suit, fun v later => chosen v (List.mem_cons_of_mem _ later), rfl⟩, rfl⟩

theorem mem_enumerate_iff {settings : ExpansionSettings} {occurs : Wildcard → Bool} {b : Binding} :
    b ∈ enumerate settings occurs ↔
      ∃ suit, (∀ w, occurs w = true → suit w ∈ settings.suits w) ∧
        b = choosing suit (Wildcard.all.filter occurs) := by
  have distinct : (Wildcard.all.filter occurs).Nodup :=
    List.Nodup.filter _ (by decide)
  have among : ∀ w, w ∈ Wildcard.all.filter occurs ↔ occurs w = true := fun w => by
    simp [Wildcard.mem_all]
  simp only [enumerate, List.mem_map, mem_combine_iff distinct, among]
  constructor
  · rintro ⟨l, ⟨suit, chosen, rfl⟩, rfl⟩
    exact ⟨suit, chosen, rfl⟩
  · rintro ⟨suit, chosen, rfl⟩
    exact ⟨_, ⟨suit, chosen, rfl⟩, rfl⟩

theorem suit?_choosing_filter (suit : Wildcard → String) (occurs : Wildcard → Bool) (w : Wildcard) :
    (choosing suit (Wildcard.all.filter occurs)).suit? w =
      if occurs w = true then some (suit w) else none := by
  rw [suit?_choosing]
  simp [Wildcard.mem_all]

/-- A binding chooses one of the suits that a kind stands for. -/
theorem suit_mem_of_mem_enumerate {settings : ExpansionSettings} {occurs : Wildcard → Bool} {b : Binding}
    (member : b ∈ enumerate settings occurs) {w : Wildcard} {s : String} (chosen : b.suit? w = some s) :
    s ∈ settings.suits w := by
  obtain ⟨suit, drawn, rfl⟩ := mem_enumerate_iff.1 member
  rw [suit?_choosing_filter] at chosen
  split at chosen
  · next occurs => exact Option.some.inj chosen ▸ drawn w occurs
  · cases chosen

theorem suit?_isSome_of_mem_enumerate {settings : ExpansionSettings} {occurs : Wildcard → Bool}
    {b : Binding} (member : b ∈ enumerate settings occurs) {w : Wildcard} (here : occurs w = true) :
    ∃ s, b.suit? w = some s := by
  obtain ⟨suit, _, rfl⟩ := mem_enumerate_iff.1 member
  rw [suit?_choosing_filter, if_pos here]
  exact ⟨_, rfl⟩

/-- Two bindings choose the same suits for some kinds. -/
def Agree (kinds : Wildcard → Prop) (b b' : Binding) : Prop := ∀ w, kinds w → b.suit? w = b'.suit? w

variable {settings : ExpansionSettings} {few many : Wildcard → Bool}

/-- A binding of all kinds gives one of some kinds. -/
theorem exists_agree_few (includes : ∀ w, few w = true → many w = true) {b : Binding}
    (member : b ∈ enumerate settings many) :
    ∃ b' ∈ enumerate settings few, Agree (fun w => few w = true) b b' := by
  obtain ⟨suit, drawn, rfl⟩ := mem_enumerate_iff.1 member
  refine ⟨_, mem_enumerate_iff.2 ⟨suit, fun w here => drawn w (includes w here), rfl⟩, fun w here => ?_⟩
  rw [suit?_choosing_filter, suit?_choosing_filter, if_pos here, if_pos (includes w here)]

theorem exists_agree_many (accepted : settings.Accepted) (includes : ∀ w, few w = true → many w = true)
    {b : Binding} (member : b ∈ enumerate settings few) :
    ∃ b' ∈ enumerate settings many, Agree (fun w => few w = true) b b' := by
  obtain ⟨suit, drawn, rfl⟩ := mem_enumerate_iff.1 member
  -- a kind that is not chosen for yet gets the first suit it stands for
  have first : ∀ w, ∃ s, s ∈ settings.suits w := fun w => List.exists_mem_of_ne_nil _ (accepted.nonempty w)
  choose other standing using first
  refine ⟨_, mem_enumerate_iff.2 ⟨fun w => if few w = true then suit w else other w, ?_, rfl⟩, ?_⟩
  · intro w _
    dsimp only
    split
    · next here => exact drawn w here
    · exact standing w
  · intro w here
    rw [suit?_choosing_filter, suit?_choosing_filter, if_pos here, if_pos (includes w here), if_pos here]

theorem enumerate_ne_nil (accepted : settings.Accepted) (occurs : Wildcard → Bool) :
    ∃ b, b ∈ enumerate settings occurs := by
  have first : ∀ w, ∃ s, s ∈ settings.suits w := fun w => List.exists_mem_of_ne_nil _ (accepted.nonempty w)
  choose suit standing using first
  exact ⟨_, mem_enumerate_iff.2 ⟨suit, fun w _ => standing w, rfl⟩⟩

end Binding

/-! ## Tokens under a binding -/

theorem Wildcard.bindChars_congr {suit? suit?' : Wildcard → Option String} {cs : List Char}
    (agree : ∀ w ∈ list cs, suit? w = suit?' w) : bindChars suit? cs = bindChars suit?' cs := by
  fun_induction list cs with
  | case1 a b rest w pair ih =>
    rw [List.forall_mem_cons] at agree
    simp only [bindChars, pair, agree.1, ih agree.2]
  | case2 a b rest pair ih => simp only [bindChars, pair, ih agree]
  | case3 cs short =>
    cases cs with
    | nil => rfl
    | cons a cs =>
      cases cs with
      | nil => rfl
      | cons b rest => exact absurd rfl (short a b rest)

theorem Wildcard.bindChars_none (cs : List Char) : bindChars (fun _ => none) cs = cs := by
  fun_induction list cs with
  | case1 a b rest w pair ih => simp only [bindChars, pair, ih]
  | case2 a b rest pair ih => simp only [bindChars, pair, ih]
  | case3 cs short =>
    cases cs with
    | nil => rfl
    | cons a cs =>
      cases cs with
      | nil => rfl
      | cons b rest => exact absurd rfl (short a b rest)

namespace Token

theorem bar_not_mem_of_wildcard? {t : Token} {w : Wildcard} (written : t.Written)
    (wildcard : t.wildcard? = some w) : '|' ∉ t.raw.toList := by
  intro bar
  have h := written
  rw [Written, parse?, parseChars?, raw_of_parseChars? written |>.symm] at h
  split at h
  · cases h
  · split at h
    · have eq := Option.some.inj h
      rw [← eq] at wildcard
      unfold wildcard? at wildcard
      split at wildcard
      · next reading => dsimp only at reading; split at reading <;> cases reading
      · cases wildcard
    · next plain => exact plain (by simpa using bar)

theorem wildcardsIn_of_wildcard? {t : Token} {w : Wildcard} (written : t.Written)
    (wildcard : t.wildcard? = some w) :
    wildcardsIn t.raw = Wildcard.list (beforeTag t.raw.toList) := by
  rw [wildcardsIn, Text.splitAt_of_not_mem (bar_not_mem_of_wildcard? written wildcard),
    List.flatMap_singleton]

/-- Tokens that their own text writes, with wildcards of some kinds only. -/
def Within (occurs : Wildcard → Bool) (t : Token) : Prop :=
  t.Written ∧ ∀ w ∈ wildcardsIn t.raw, occurs w = true

theorem Within.of_mem_alternatives {occurs : Wildcard → Bool} {t u : Token} (within : t.Within occurs)
    (member : u ∈ t.alternatives) : u.Within occurs :=
  ⟨within.1.of_mem_alternatives member,
    fun w here => within.2 w (mem_wildcardsIn_of_mem_alternatives within.1 member here)⟩

end Token

namespace Node

variable {b b' : Binding} {t u : Token}

/-- Bindings that agree on the wildcards of a token make the same of it. -/
theorem bindToken_congr (written : t.Written)
    (agree : Binding.Agree (· ∈ Token.wildcardsIn t.raw) b b') : bindToken b t = bindToken b' t := by
  unfold bindToken
  split
  · next wildcard =>
    obtain ⟨w, wildcard⟩ := Option.isSome_iff_exists.1 wildcard
    rw [Token.bind, Token.bind, Wildcard.bindChars_congr]
    intro v here
    exact agree v (Token.wildcardsIn_of_wildcard? written wildcard ▸ here)
  · rfl

theorem bindToken_of_none (written : t.Written)
    (unbound : ∀ w ∈ Token.wildcardsIn t.raw, b.suit? w = none) : bindToken b t = t := by
  have empty : bindToken b t = bindToken ⟨[]⟩ t := bindToken_congr written unbound
  have same : Token.bind (Binding.suit? ⟨[]⟩) t.raw = t.raw := by
    have silent : Binding.suit? ⟨[]⟩ = fun _ => none := rfl
    rw [Token.bind, silent, Wildcard.bindChars_none, Token.beforeTag, List.takeWhile_append_dropWhile,
      String.ofList_toList]
  rw [empty, bindToken, same, written, Option.getD_some, ite_self]

theorem bindToken_of_wildcard?_eq_none (known : t.wildcard? = none) : bindToken b t = t := by
  simp [bindToken, known]

theorem injected_congr (agree : Binding.Agree (· ∈ Token.wildcardsIn t.raw) b b') :
    injected b (some t) = injected b' (some t) := by
  simp only [injected]
  split
  · refine List.flatMap_congr fun w here => ?_
    have occurs : w ∈ Token.wildcardsIn t.raw := by
      simpa [Token.kinds, Wildcard.mem_all] using here
    rw [Binding.shorthands, Binding.shorthands, agree w occurs]
  · rfl

end Node

/-! ## Keys under a binding -/

def Key.bound (b : Binding) : Key → Key
  | .call c => .call c
  | .text raw => ((Token.parse? raw).map fun t => (Node.bindToken b t).key).getD (.text raw)

theorem Token.wildcard?_of_call? {t : Token} {c : Call} (known : t.call? = some c) :
    t.wildcard? = none := by
  unfold Token.call? at known
  unfold Token.wildcard?
  split at known
  · next reading => rw [reading]
  · cases known

theorem bound_key (b : Binding) {t : Token} (written : t.Written) :
    t.key.bound b = (Node.bindToken b t).key := by
  cases key : t.key with
  | call c =>
    have known := Token.wildcard?_of_call? (Token.call?_of_key key)
    rw [Node.bindToken_of_wildcard?_eq_none known, key, Key.bound]
  | text raw => simp [Key.bound, written.parse?_of_key key]

/-! ## Kinds that occur in a tree -/

namespace Node

theorem mem_wildcardsSteps_iff {w : Wildcard} {ss : List Node} :
    w ∈ wildcardsSteps ss ↔ ∃ s ∈ ss, w ∈ s.wildcardsBelow := by
  induction ss with
  | nil => simp [wildcardsSteps]
  | cons s rest ih => simp [wildcardsSteps, ih]

theorem mem_wildcardsChildren_iff {w : Wildcard} {cs : List (Token × Node)} :
    w ∈ wildcardsChildren cs ↔
      ∃ e ∈ cs, w ∈ Token.wildcardsIn e.1.raw ∨ w ∈ e.2.wildcardsBelow := by
  induction cs with
  | nil => simp [wildcardsChildren]
  | cons e rest ih => simp [wildcardsChildren, ih, or_assoc]

theorem mem_wildcardsBelow_iff {w : Wildcard} {n : Node} :
    w ∈ n.wildcardsBelow ↔ (∃ s ∈ n.steps, w ∈ s.wildcardsBelow) ∨
      ∃ e ∈ n.children, w ∈ Token.wildcardsIn e.1.raw ∨ w ∈ e.2.wildcardsBelow := by
  cases n
  simp [wildcardsBelow, mem_wildcardsSteps_iff, mem_wildcardsChildren_iff]

theorem mentions_none {n : Node} {w : Wildcard} : n.mentions none w = true ↔ w ∈ n.wildcardsBelow := by
  simp [mentions]

/-- The tokens of a tree are within the kinds that occur in it. -/
theorem Throughout.within {n : Node} (tidy : Throughout (Tidy Token.Written) n)
    {occurs : Wildcard → Bool} (all : ∀ w ∈ n.wildcardsBelow, occurs w = true) :
    Throughout (Tidy (Token.Within occurs)) n := by
  induction tidy with
  | mk here _ _ steps below =>
    refine .mk ⟨here.distinct, fun e member => ⟨here.tokens e member, fun w occurs => ?_⟩, here.fresh⟩
      (fun s member => steps s member fun w occurs => ?_)
      (fun e member => below e member fun w occurs => ?_)
    · exact all w (mem_wildcardsBelow_iff.2 (.inr ⟨e, member, .inl occurs⟩))
    · exact all w (mem_wildcardsBelow_iff.2 (.inl ⟨s, member, occurs⟩))
    · exact all w (mem_wildcardsBelow_iff.2 (.inr ⟨e, member, .inr occurs⟩))

theorem Throughout.occurs {n : Node} {K : Token → Prop} (tidy : Throughout (Tidy K) n)
    {occurs : Wildcard → Bool} (within : ∀ t, K t → t.Within occurs) :
    ∀ w ∈ n.wildcardsBelow, occurs w = true := by
  induction tidy with
  | mk here _ _ steps below =>
    intro w member
    rcases mem_wildcardsBelow_iff.1 member with ⟨s, step, later⟩ | ⟨e, child, here' | later⟩
    · exact steps s step w later
    · exact (within _ (here.tokens e child)).2 w here'
    · exact below e child w later

end Node

end BidBook
