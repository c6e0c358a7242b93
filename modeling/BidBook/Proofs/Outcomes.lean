import BidBook.Proofs.Checked
import BidBook.Proofs.Shapes

/-! # What comes of compiling a document

Compiling ends in one of a few ways. If a tree is declared, it is expanded and pruned without misuse of any
operation, unless a limit is exceeded. If none is, declaring has refused the document for what was found
first in it.

* `compileWithin_cases` — what comes of compiling a tree.
* `compileDocument_outcome` — the ways in which compiling ends.
-/

namespace BidBook

namespace Node

variable {b : Binding} {e : Excess}

/-! ## Limits of expanding -/

theorem eq_numeral_of_tokenExcess? {t : Token} (exceeded : tokenExcess? b t = some e) : e = .numeral := by
  rw [tokenExcess?, Option.ite_none_right_eq_some] at exceeded
  exact Token.eq_numeral_of_excess? exceeded.2

mutual

theorem eq_numeral_of_bindExcess? (n : Node) (exceeded : n.bindExcess? b = some e) : e = .numeral := by
  obtain ⟨c, ss, cs⟩ := n
  rw [bindExcess?, Option.or_eq_some_iff] at exceeded
  rcases exceeded with exceeded | ⟨_, exceeded⟩
  · exact eq_numeral_of_bindExcessSteps? ss exceeded
  · exact eq_numeral_of_bindExcessChildren? cs exceeded

theorem eq_numeral_of_bindExcessSteps? (ss : List Node) (exceeded : bindExcessSteps? b ss = some e) :
    e = .numeral := by
  match ss with
  | [] => cases exceeded
  | s :: rest =>
    rw [bindExcessSteps?, Option.or_eq_some_iff] at exceeded
    rcases exceeded with exceeded | ⟨_, exceeded⟩
    · exact eq_numeral_of_bindExcess? s exceeded
    · exact eq_numeral_of_bindExcessSteps? rest exceeded

theorem eq_numeral_of_bindExcessChildren? (cs : List (Token × Node))
    (exceeded : bindExcessChildren? b cs = some e) : e = .numeral := by
  match cs with
  | [] => cases exceeded
  | (t, n) :: rest =>
    rw [bindExcessChildren?, Option.or_eq_some_iff, Option.or_eq_some_iff] at exceeded
    rcases exceeded with (exceeded | ⟨_, exceeded⟩) | ⟨_, exceeded⟩
    · exact eq_numeral_of_tokenExcess? exceeded
    · exact eq_numeral_of_bindExcess? n exceeded
    · exact eq_numeral_of_bindExcessChildren? rest exceeded

end

theorem eq_numeral_of_wildcardExcess? {settings : ExpansionSettings} {n : Node}
    (exceeded : n.wildcardExcess? settings none = some e) : e = .numeral := by
  rw [wildcardExcess?, Option.ite_none_right_eq_some] at exceeded
  obtain ⟨b, _, exceeded⟩ := List.exists_of_findSome?_eq_some exceeded.2
  exact eq_numeral_of_bindExcess? n exceeded

end Node

namespace Compiler

open Document

variable {settings : Settings} {shorthands : List Shorthand} {document : Value}

/-- Within the limits of nesting and of numerals a tree is compiled. -/
theorem compileWithin_cases (settings : Settings) (n : Node) :
    compileWithin settings n = .ok (compileTree settings n) ∨
      (deepestTree < n.height ∧ compileWithin settings n = .error .depth) ∨
      (n.flatten.1.wildcardExcess? settings.expansion none = some .numeral ∧
        compileWithin settings n = .error .numeral) := by
  by_cases high : deepestTree < n.height
  · refine .inr (.inl ⟨high, ?_⟩)
    rw [compileWithin, if_pos high]
  · cases limit : n.flatten.1.wildcardExcess? settings.expansion none with
    | none => exact .inl (compileWithin_eq_ok_iff.2 ⟨Nat.not_lt.1 high, limit, rfl⟩)
    | some e =>
      obtain rfl := Node.eq_numeral_of_wildcardExcess? limit
      have token : ({} : Position).token = none := rfl
      refine .inr (.inr ⟨rfl, ?_⟩)
      rw [compileWithin, if_neg high, Node.expandWithin, token, limit]

/-! ## The outcome -/

theorem compileDocument_of_built [Pattern.Judge] {draft : Draft}
    (built : build shorthands document = .ok draft) : compileDocument settings shorthands document =
      (compileWithin settings draft.node).mapError .beyond := by
  rw [compileDocument, built]
  rfl

theorem compileDocument_of_refused [Pattern.Judge] {fault : Fault}
    (refused : build shorthands document = .error fault) :
    compileDocument settings shorthands document = .error fault := by
  rw [compileDocument, refused]
  rfl

/-- Compiling ends, with any settings and for any document. If nothing is found in the document, the tree that
it declares is expanded and pruned without misuse of any operation, and that is the outcome unless the tree is
nested too deeply or binding it makes a numeral too long. Otherwise the first finding decides: a malformed
document is refused while it is declared, and one with a numeral that is too long, or with a pattern that is
given up, is given up for the same limit. -/
theorem compileDocument_outcome [Pattern.Judge] (settings : Settings) (shorthands : List Shorthand)
    (document : Value) :
    match (findings document).head? with
    | none => ∃ draft, build shorthands document = .ok draft ∧
        Checked.compileTree settings draft.node = .ok (compileTree settings draft.node) ∧
        (compileDocument settings shorthands document = .ok (compileTree settings draft.node) ∨
          (deepestTree < draft.node.height ∧
            compileDocument settings shorthands document = .error (.beyond .depth)) ∨
          (draft.node.flatten.1.wildcardExcess? settings.expansion none = some .numeral ∧
            compileDocument settings shorthands document = .error (.beyond .numeral)))
    | some ⟨path, .offence what⟩ =>
      build shorthands document = .error (.malformed ⟨pathOf path, what⟩) ∧
        compileDocument settings shorthands document = .error (.malformed ⟨pathOf path, what⟩)
    | some ⟨_, .long⟩ => compileDocument settings shorthands document = .error (.beyond .numeral)
    | some ⟨_, .unread pattern e _⟩ => Pattern.Judge.verdict pattern = .givenUp e ∧
        compileDocument settings shorthands document = .error (.beyond e) := by
  have meets := meets_build shorthands document
  cases found : findings document with
  | nil =>
    rw [found] at meets
    obtain ⟨draft, built⟩ := meets
    -- once a tree is declared, nothing but the limits of compiling can be in the way
    refine ⟨draft, built, Checked.compileTree_eq_ok settings (throughout_declared built), ?_⟩
    rw [compileDocument_of_built built]
    rcases compileWithin_cases settings draft.node with compiled | ⟨high, refused⟩ | ⟨long, refused⟩
    · exact .inl (by rw [compiled]; rfl)
    · exact .inr (.inl ⟨high, by rw [refused]; rfl⟩)
    · exact .inr (.inr ⟨long, by rw [refused]; rfl⟩)
  | cons f rest =>
    rw [found] at meets
    have refused : build shorthands document = .error f.fault := meets
    have outcome : compileDocument settings shorthands document = .error f.fault :=
      compileDocument_of_refused refused
    obtain ⟨path, objection⟩ := f
    cases objection with
    | offence what => exact ⟨refused, outcome⟩
    | long => exact outcome
    | unread pattern e givenUp => exact ⟨givenUp, outcome⟩

/-- The document is refused for nothing that is wrong with its shape, for no nesting and for no numeral. -/
theorem exists_given_up_for_size : Settings.load (.map []) (.map []) = .ok {} ∧
    compileDocument {} [] hugeRepeat = .error (.beyond .size) := by
  have computed : (match compileDocument {} [] hugeRepeat with
      | .error (.beyond .size) => true
      | _ => false) = true := by decide +kernel
  refine ⟨load_nothing, ?_⟩
  split at computed
  · next outcome => exact outcome
  · cases computed

end Compiler

end BidBook
