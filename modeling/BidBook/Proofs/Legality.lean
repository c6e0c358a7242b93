import Mathlib.Data.List.Induction
import Mathlib.Data.List.Infix
import BidBook.Auction

/-! # The rules of the bidding box

A legal auction, described without a run: no four passes in a row, bids in ascending order, and a
double or redouble only where the last call other than a pass is one that it answers, made by an
opponent. Opponents sit an odd number of calls away.

A state keeps three things of the calls so far, and `summary` reads them off the calls. The one step
that needs an argument is `accepts_summary_iff`: as long as no rule has been broken, nothing else
decides what may come next. A broken rule is never mended by later calls, so the rest is induction from
the last call back.

* `Proper` — the rules, for a whole auction.
* `proper_append_iff` — what the rules ask of one more call.
* `eq_summary_of_run?` — a run ends in the summary of its calls.
* `isLegal_iff_proper` — an auction is legal exactly if it keeps to the rules.
-/

namespace BidBook

theorem Bid.lt_of_lt_of_lt {a b c : Bid} (ab : a < b) (bc : b < c) : a < c := by
  rw [Bid.lt_iff] at *
  omega

namespace Auction

variable {calls : List Call} {c d : Call} {i j : Nat}

/-! ## The rules -/

/-- The last call before place `j` that is no pass is `c`, at place `i`. -/
structure LastSpoken (calls : List Call) (j i : Nat) (c : Call) : Prop where
  before : i < j
  spoken : calls[i]? = some c
  notPass : c ≠ .pass
  passes : ∀ k, i < k → k < j → calls[k]? = some .pass

/-- The auction keeps to the rules of the bidding box. -/
structure Proper (calls : List Call) : Prop where
  passes : ¬ List.replicate 4 .pass <:+: calls
  bids : (calls.filterMap Call.bid?).Pairwise (· < ·)
  doubles : ∀ j, calls[j]? = some .double → ∃ i b, LastSpoken calls j i (.bid b) ∧ (j - i) % 2 = 1
  redoubles : ∀ j, calls[j]? = some .redouble → ∃ i, LastSpoken calls j i .double ∧ (j - i) % 2 = 1

/-- What the rules ask of one more call. -/
def Fits (calls : List Call) : Call → Prop
  | .pass => ¬ List.replicate 3 .pass <:+ calls
  | .bid b => ∀ a ∈ calls.filterMap Call.bid?, a < b
  | .double => ∃ i b, LastSpoken calls calls.length i (.bid b) ∧ (calls.length - i) % 2 = 1
  | .redouble => ∃ i, LastSpoken calls calls.length i .double ∧ (calls.length - i) % 2 = 1

theorem replicate_suffix_append_iff {n : Nat} :
    List.replicate (n + 1) .pass <:+ calls ++ [c] ↔ c = .pass ∧ List.replicate n .pass <:+ calls := by
  rw [List.replicate_succ', List.suffix_concat_iff]
  constructor
  · rintro (empty | ⟨t, same, suffix⟩)
    · simp at empty
    · obtain ⟨rfl, last⟩ := List.append_inj' same rfl
      exact ⟨(List.singleton_inj.1 last).symm, suffix⟩
  · rintro ⟨rfl, suffix⟩
    exact .inr ⟨_, rfl, suffix⟩

/-- What comes behind a place does not change what was said before it. -/
theorem lastSpoken_append_iff (le : j ≤ calls.length) :
    LastSpoken (calls ++ [c]) j i d ↔ LastSpoken calls j i d := by
  have same : ∀ k, k < j → (calls ++ [c])[k]? = calls[k]? := fun k lt =>
    List.getElem?_append_left (lt_of_lt_of_le lt le)
  constructor
  · rintro ⟨before, spoken, notPass, passes⟩
    exact ⟨before, same i before ▸ spoken, notPass, fun k lo hi => same k hi ▸ passes k lo hi⟩
  · rintro ⟨before, spoken, notPass, passes⟩
    exact ⟨before, (same i before).trans spoken, notPass, fun k lo hi => (same k hi).trans (passes k lo hi)⟩

theorem getElem?_append_iff : (calls ++ [c])[j]? = some d ↔
    calls[j]? = some d ∨ j = calls.length ∧ c = d := by
  rcases Nat.lt_trichotomy j calls.length with lt | rfl | gt
  · rw [List.getElem?_append_left lt]
    simp [Nat.ne_of_lt lt]
  · simp
  · rw [List.getElem?_eq_none (by simp; omega), List.getElem?_eq_none (by omega)]
    simp [Nat.ne_of_gt gt]

/-- A rule that looks back from every call `c` holds with one more call if it held before, and if it
holds of the new call. -/
theorem forall_getElem?_append_iff {P : List Call → Nat → Prop}
    (near : ∀ j, j ≤ calls.length → (P (calls ++ [c]) j ↔ P calls j)) :
    (∀ j, (calls ++ [c])[j]? = some d → P (calls ++ [c]) j) ↔
      (∀ j, calls[j]? = some d → P calls j) ∧ (c = d → P calls calls.length) := by
  have inside : ∀ j, calls[j]? = some d → j ≤ calls.length := fun j found =>
    (List.getElem?_eq_some_iff.1 found).1.le
  constructor
  · intro all
    refine ⟨fun j found => ?_, fun same => ?_⟩
    · exact (near j (inside j found)).1 (all j (getElem?_append_iff.2 (.inl found)))
    · exact (near _ le_rfl).1 (all _ (getElem?_append_iff.2 (.inr ⟨rfl, same⟩)))
  · rintro ⟨old, new⟩ j found
    rcases getElem?_append_iff.1 found with found | ⟨rfl, same⟩
    · exact (near j (inside j found)).2 (old j found)
    · exact (near _ le_rfl).2 (new same)

theorem proper_append_iff : Proper (calls ++ [c]) ↔ Proper calls ∧ Fits calls c := by
  have doubles := @forall_getElem?_append_iff calls c .double
    (fun calls j => ∃ i b, LastSpoken calls j i (.bid b) ∧ (j - i) % 2 = 1)
    fun j le => by simp only [lastSpoken_append_iff le]
  have redoubles := @forall_getElem?_append_iff calls c .redouble
    (fun calls j => ∃ i, LastSpoken calls j i .double ∧ (j - i) % 2 = 1)
    fun j le => by simp only [lastSpoken_append_iff le]
  have passes : (¬ List.replicate 4 .pass <:+: calls ++ [c]) ↔
      ¬ List.replicate 4 .pass <:+: calls ∧ (c = .pass → ¬ List.replicate 3 .pass <:+ calls) := by
    rw [List.infix_concat_iff, replicate_suffix_append_iff]
    tauto
  have bids : ((calls ++ [c]).filterMap Call.bid?).Pairwise (· < ·) ↔
      (calls.filterMap Call.bid?).Pairwise (· < ·) ∧
        ∀ b, c = .bid b → ∀ a ∈ calls.filterMap Call.bid?, a < b := by
    rw [List.filterMap_append, List.pairwise_append]
    cases c <;> simp [Call.bid?, List.filterMap_cons]
  constructor
  · intro proper
    have ⟨_, fewer⟩ := passes.1 proper.passes
    have ⟨_, higher⟩ := bids.1 proper.bids
    have ⟨_, double⟩ := doubles.1 proper.doubles
    have ⟨_, redouble⟩ := redoubles.1 proper.redoubles
    refine ⟨⟨(passes.1 proper.passes).1, (bids.1 proper.bids).1, (doubles.1 proper.doubles).1,
      (redoubles.1 proper.redoubles).1⟩, ?_⟩
    cases c with
    | pass => exact fewer rfl
    | double => exact double rfl
    | redouble => exact redouble rfl
    | bid b => exact higher b rfl
  · rintro ⟨proper, fits⟩
    refine ⟨passes.2 ⟨proper.passes, ?_⟩, bids.2 ⟨proper.bids, ?_⟩,
      doubles.2 ⟨proper.doubles, ?_⟩, redoubles.2 ⟨proper.redoubles, ?_⟩⟩
    · rintro rfl; exact fits
    · rintro b rfl; exact fits
    · rintro rfl; exact fits
    · rintro rfl; exact fits

/-! ## What a state remembers -/

/-- What the next call depends on: the passes at the end, the last call before them, the last bid. -/
def summary (calls : List Call) : State where
  passes := (calls.reverse.takeWhile (· == .pass)).length
  last := calls.reverse.find? (· != .pass)
  highest := (calls.filterMap Call.bid?).getLast?

theorem advance_summary (calls : List Call) (c : Call) :
    (summary calls).advance c = summary (calls ++ [c]) := by
  cases c <;> simp [summary, State.advance, Call.bid?, List.filterMap_cons]

theorem passes_summary_iff {n : Nat} :
    List.replicate n .pass <:+ calls ↔ n ≤ (summary calls).passes := by
  induction calls using List.reverseRecOn generalizing n with
  | nil => simp [summary]
  | append_singleton calls c ih =>
    cases n with
    | zero => simp
    | succ n =>
      rw [replicate_suffix_append_iff, ih, ← advance_summary]
      cases c <;> simp [State.advance]

theorem lastSpoken_length_append_iff : LastSpoken (calls ++ [c]) (calls.length + 1) i d ↔
    (c = .pass ∧ LastSpoken calls calls.length i d) ∨ (c ≠ .pass ∧ i = calls.length ∧ d = c) := by
  constructor
  · rintro ⟨before, spoken, notPass, passes⟩
    rcases getElem?_append_iff.1 spoken with found | ⟨rfl, rfl⟩
    · -- `d` stands further up, so the call at the end is one of the passes behind it
      have lt := (List.getElem?_eq_some_iff.1 found).1
      have pass := passes calls.length lt (Nat.lt_succ_self _)
      rw [List.getElem?_concat_length, Option.some.injEq] at pass
      refine .inl ⟨pass, (lastSpoken_append_iff (c := c) le_rfl).1 ⟨lt, spoken, notPass, ?_⟩⟩
      exact fun k lo hi => passes k lo (Nat.lt_succ_of_lt hi)
    · exact .inr ⟨notPass, rfl, rfl⟩
  · rintro (⟨rfl, before, spoken, notPass, passes⟩ | ⟨notPass, rfl, rfl⟩)
    · refine ⟨by omega, getElem?_append_iff.2 (.inl spoken), notPass, fun k lo hi => ?_⟩
      rcases Nat.lt_succ_iff_lt_or_eq.1 hi with lt | rfl
      · exact getElem?_append_iff.2 (.inl (passes k lo lt))
      · exact getElem?_append_iff.2 (.inr ⟨rfl, rfl⟩)
    · exact ⟨Nat.lt_succ_self _, List.getElem?_concat_length, notPass, fun k lo hi => by omega⟩

theorem lastSpoken_summary_iff : LastSpoken calls calls.length i d ↔
    (summary calls).last = some d ∧ i + (summary calls).passes + 1 = calls.length := by
  induction calls using List.reverseRecOn generalizing i with
  | nil =>
    constructor
    · intro last
      exact absurd last.before (Nat.not_lt_zero i)
    · rintro ⟨none, _⟩
      cases none
  | append_singleton calls c ih =>
    rw [List.length_append, List.length_singleton, lastSpoken_length_append_iff, ih, ← advance_summary]
    cases c <;> simp [State.advance, eq_comm, and_comm, ← Nat.add_assoc]

theorem passes_lt_of_last (last : (summary calls).last = some d) :
    (summary calls).passes < calls.length := by
  induction calls using List.reverseRecOn with
  | nil => cases last
  | append_singleton calls c ih =>
    rw [← advance_summary] at last ⊢
    rw [List.length_append, List.length_singleton]
    cases c with
    | pass => exact Nat.succ_lt_succ (ih last)
    | double | redouble | bid _ => exact Nat.succ_pos _

/-- The parity of the seats is that of the passes. -/
theorem exists_lastSpoken_iff :
    (∃ i, LastSpoken calls calls.length i d ∧ (calls.length - i) % 2 = 1) ↔
      (summary calls).last = some d ∧ (summary calls).passes % 2 = 0 := by
  simp only [lastSpoken_summary_iff]
  constructor
  · rintro ⟨i, ⟨last, place⟩, odd⟩
    exact ⟨last, by omega⟩
  · rintro ⟨last, even⟩
    have room := passes_lt_of_last last
    exact ⟨calls.length - (summary calls).passes - 1, ⟨last, by omega⟩, by omega⟩

/-- What the parts of a state tell about each other in an auction. -/
structure State.Coherent (s : State) : Prop where
  spoken : s.last ≠ some .pass
  opened : s.highest.isSome = true → s.last.isSome = true
  topped : ∀ b, s.last = some (.bid b) → s.highest = some b

theorem State.Coherent.advance {s : State} (coherent : s.Coherent) (c : Call) :
    (s.advance c).Coherent := by
  cases c with
  | pass => exact ⟨coherent.spoken, coherent.opened, coherent.topped⟩
  | bid b => exact ⟨by simp [State.advance], fun _ => rfl, by simp [State.advance]⟩
  | double | redouble => exact ⟨by simp [State.advance], fun _ => rfl, by simp [State.advance]⟩

theorem coherent_summary (calls : List Call) : (summary calls).Coherent := by
  induction calls using List.reverseRecOn with
  | nil => exact ⟨by simp [summary], by simp [summary], by simp [summary]⟩
  | append_singleton calls c ih =>
    rw [← advance_summary]
    exact ih.advance c

/-! ## What the machine accepts -/

namespace State

variable {s : State}

theorem targetsPartner_eq_false_iff (few : s.passes ≤ 3) :
    s.targetsPartner = false ↔ s.passes % 2 = 0 := by
  simp only [targetsPartner, Bool.or_eq_false_iff, beq_eq_false_iff_ne]
  omega

theorem accepts_double_iff (coherent : s.Coherent) (few : s.passes ≤ 3) :
    s.accepts .double = true ↔ (∃ b, s.last = some (.bid b)) ∧ s.passes % 2 = 0 := by
  have bid : s.highest.isSome = true ∧ ¬ (s.last = some .double ∨ s.last = some .redouble) ↔
      ∃ b, s.last = some (.bid b) := by
    constructor
    · rintro ⟨opened, plain⟩
      obtain ⟨c, last⟩ := Option.isSome_iff_exists.1 (coherent.opened opened)
      cases c with
      | pass => exact absurd last coherent.spoken
      | double => exact absurd (.inl last) plain
      | redouble => exact absurd (.inr last) plain
      | bid b => exact ⟨b, last⟩
    · rintro ⟨b, last⟩
      simp [coherent.topped b last, last]
  rw [← bid, ← targetsPartner_eq_false_iff few]
  simp [accepts, and_right_comm]

theorem accepts_redouble_iff (few : s.passes ≤ 3) :
    s.accepts .redouble = true ↔ s.last = some .double ∧ s.passes % 2 = 0 := by
  simp [accepts, targetsPartner_eq_false_iff few]

end State

/-- In ascending bids it is enough to be above the last. -/
theorem lt_iff_of_getLast? {bids : List Bid} (ascending : bids.Pairwise (· < ·)) {top b : Bid}
    (last : bids.getLast? = some top) : (∀ a ∈ bids, a < b) ↔ top < b := by
  obtain ⟨lower, rfl⟩ := List.getLast?_eq_some_iff.1 last
  constructor
  · intro all
    exact all top (by simp)
  · intro above a member
    rcases List.mem_append.1 member with inside | here
    · exact Bid.lt_of_lt_of_lt ((List.pairwise_append.1 ascending).2.2 a inside top (by simp)) above
    · exact List.mem_singleton.1 here ▸ above

theorem passes_summary_le (proper : Proper calls) : (summary calls).passes ≤ 3 := by
  by_contra many
  exact proper.passes (passes_summary_iff.2 (Nat.lt_of_not_le many)).isInfix

/-- In a proper auction the summary of the calls decides what may come next. -/
theorem accepts_summary_iff (proper : Proper calls) :
    (summary calls).accepts c = true ↔ Fits calls c := by
  have few := passes_summary_le proper
  cases c with
  | pass =>
    rw [Fits, passes_summary_iff]
    simp [State.accepts]
  | double =>
    rw [State.accepts_double_iff (coherent_summary calls) few, Fits, exists_comm]
    simp only [exists_lastSpoken_iff, exists_and_right]
  | redouble => rw [State.accepts_redouble_iff few, Fits, exists_lastSpoken_iff]
  | bid b =>
    rw [Fits]
    cases top : (calls.filterMap Call.bid?).getLast? with
    | none =>
      rw [List.getLast?_eq_none_iff] at top
      simp [State.accepts, summary, top]
    | some h =>
      rw [lt_iff_of_getLast? proper.bids top]
      simp [State.accepts, summary, top]

/-! ## Runs -/

theorem run?_append_singleton (calls : List Call) (c : Call) :
    run? (calls ++ [c]) = (run? calls).bind fun s => s.after? c := by
  rw [run?, run?, State.run?_append]
  refine Option.bind_congr fun s _ => ?_
  rw [State.run?_cons]
  simp

/-- A run that is not refused ends in the summary of its calls. -/
theorem eq_summary_of_run? {s : State} (reached : run? calls = some s) : s = summary calls := by
  induction calls using List.reverseRecOn generalizing s with
  | nil => exact (Option.some.inj reached).symm
  | append_singleton calls c ih =>
    rw [run?_append_singleton, Option.bind_eq_some_iff] at reached
    obtain ⟨s', before, after⟩ := reached
    rw [State.after?, ih before] at after
    split at after
    · rw [← advance_summary, Option.some.inj after]
    · cases after

theorem isLegal_append_singleton (calls : List Call) (c : Call) :
    isLegal (calls ++ [c]) = true ↔ isLegal calls = true ∧ (summary calls).accepts c = true := by
  rw [isLegal, isLegal, run?_append_singleton]
  cases reached : run? calls with
  | none => simp
  | some s =>
    rw [Option.bind_some, State.after?_isSome, eq_summary_of_run? reached]
    simp

/-- Every beginning of a legal auction is legal. -/
theorem isLegal_of_prefix {earlier : List Call} (before : earlier <+: calls)
    (legal : isLegal calls = true) : isLegal earlier = true := by
  obtain ⟨later, rfl⟩ := before
  rw [isLegal, run?, State.run?_append] at legal
  obtain ⟨s, whole⟩ := Option.isSome_iff_exists.1 legal
  obtain ⟨s', reached, _⟩ := Option.bind_eq_some_iff.1 whole
  rw [isLegal, run?, reached, Option.isSome_some]

/-- An auction of any length is legal exactly if it keeps to the rules of the bidding box. -/
theorem isLegal_iff_proper (calls : List Call) : isLegal calls = true ↔ Proper calls := by
  -- from the last call back: whether it fits depends on the summary of the calls before it
  induction calls using List.reverseRecOn with
  | nil => exact iff_of_true rfl ⟨by simp, by simp, by simp, by simp⟩
  | append_singleton calls c ih =>
    rw [isLegal_append_singleton, proper_append_iff, ih]
    exact and_congr_right fun proper => accepts_summary_iff proper

end Auction

end BidBook
