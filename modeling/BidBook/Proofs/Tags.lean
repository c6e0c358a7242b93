import Mathlib.Data.List.Defs
import BidBook.Document
import BidBook.Proofs.Spelled
import BidBook.Proofs.TaggedTexts

/-! # Tags in documents

A key such as `2C[Stayman]` is taken apart at its commas, slashes and dashes and loses its spaces before
any tag is looked for. A tag without such characters comes through as it was written, whatever else it
says, and the entry declares the position of the call and nothing else.

* `Token.read_tagged` — a call with a tag is read as that call.
* `Sequence.split_of_inert`, `Document.listed_of_inert` — a key without separators stays in one piece.
* `Document.tagKept_of_inert` — what an entry with such a tag declares.
* `Document.not_tagKept_of_separators` — each separator does harm.
-/

namespace BidBook

/-! ## Written calls -/

/-- Characters that mean something in a key wherever they stand, inside of a tag as well. -/
def separators : List Char := [',', '/', '-', ' ', '|']

/-- Nothing in the text takes a key apart. -/
def Inert (text : String) : Prop := ∀ a ∈ text.toList, a ∉ separators

instance (text : String) : Decidable (Inert text) :=
  decidable_of_iff ((text.toList.all fun a => !separators.contains a) = true) (by simp [Inert])

theorem Inert.not_mem {text : String} (inert : Inert text) {a : Char} (separates : a ∈ separators) :
    a ∉ text.toList := fun member => inert a member separates

namespace Call

theorem inert_text (c : Call) : Inert c.text := by
  have table : ∀ c ∈ all, Inert c.text := by decide +kernel
  exact table c c.mem_all

end Call

def Call.tagged (c : Call) (tag : String) : String := c.text ++ "[" ++ tag ++ "]"

section Tagged

variable {c : Call} {tag : String}

theorem Call.toList_tagged (c : Call) (tag : String) :
    (c.tagged tag).toList = c.text.toList ++ '[' :: (tag.toList ++ [']']) := by
  simp [Call.tagged]

theorem Inert.tagged (inert : Inert tag) (c : Call) : Inert (c.tagged tag) := by
  intro a member
  rw [Call.toList_tagged, List.mem_append, List.mem_cons, List.mem_append, List.mem_singleton] at member
  rcases member with call | rfl | inside | rfl
  · exact c.inert_text a call
  · decide
  · exact inert a inside
  · decide

theorem Call.strip_tagged (c : Call) (tag : String) : Text.strip (c.tagged tag) = c.tagged tag := by
  have left : c.text.toList.dropWhile Text.isBlank = c.text.toList :=
    List.dropWhile_eq_self_iff.2 fun nonempty => by simp [(c.solid_text _ (List.getElem_mem nonempty)).1]
  rw [Text.strip, Call.toList_tagged, Text.stripChars_append (by decide) (by decide), left,
    ← Call.toList_tagged, String.ofList_toList]

def Call.taggedToken (c : Call) (tag : String) : Token :=
  { raw := c.tagged tag, reading := .call c, tag := some tag }

theorem Token.read_tagged (inert : Inert tag) :
    Token.read (c.tagged tag) = .ok (some (c.taggedToken tag)) := by
  have nonblank : Text.stripChars c.text.toList ≠ [] := by
    rw [Text.stripChars_of_solid fun a member => (c.solid_text a member).1]
    exact c.text_ne_nil
  have read : Token.read c.text = .ok (some (ofCall c)) := (spelled_ofCall c).read_raw
  rw [Call.tagged, Token.read_append_tag nonblank (c.not_mem_text (by decide)) (c.not_mem_text (by decide))
    (inert.not_mem (by decide)), read, ← Call.tagged, Call.strip_tagged]
  rfl

/-! ## Keys in one piece -/

theorem Inert.single {text : String} (inert : Inert text) : Sequence.Single text := by
  have among : ∀ a ∈ Sequence.breaks, a ∈ separators := by simp [Sequence.breaks, separators]
  exact fun a member breaks => inert a member (among a breaks)

theorem Sequence.split_of_inert {text : String} (inert : Inert text) (nonempty : text.toList ≠ []) :
    Sequence.split text = [text] := by
  have joined : Sequence.join "-" [text] = text := String.ofList_toList
  have split : Sequence.split (Sequence.join "-" [text]) = [text] :=
    Sequence.split_join (by simpa using inert.single) (by simpa using nonempty)
  rwa [joined] at split

namespace Document

theorem listed_of_inert {text : String} (inert : Inert text) {a : Char} (member : a ∈ text.toList)
    (visible : Text.isBlank a = false) : listed text = [text] := by
  have said : (text.toList.all Text.isBlank) = false := by
    rw [List.all_eq_false]
    exact ⟨a, member, by simp [visible]⟩
  rw [listed, Text.splitAt_of_not_mem (inert.not_mem (by decide))]
  simp [said]

/-- A key with a tag is none of those with a meaning of their own. -/
theorem role?_tagged (inert : Inert tag) :
    role? (.text (c.tagged tag)) = some (.sequences [c.tagged tag]) := by
  have bracket : '[' ∈ (c.tagged tag).toList := by simp [Call.toList_tagged]
  have other : ∀ word : String, '[' ∉ word.toList → c.tagged tag ≠ word := fun word absent same =>
    absent (same ▸ bracket)
  have whole : listed (c.tagged tag) = [c.tagged tag] :=
    listed_of_inert (inert.tagged c) bracket (by decide)
  rw [role?, if_neg (other _ (by decide)), if_neg, if_neg (other _ (by decide)), if_neg (other _ (by decide)),
    if_neg (other _ (by decide)), if_neg (other _ (by decide)), whole]
  rintro (same | same)
  · exact other _ (by decide) same
  · exact other _ (by decide) same

theorem sequenceTokens_tagged (inert : Inert tag) :
    sequenceTokens false (c.tagged tag) = .ok [c.taggedToken tag] := by
  have whole : Sequence.split (c.tagged tag) = [c.tagged tag] :=
    Sequence.split_of_inert (inert.tagged c) (by simp [Call.toList_tagged])
  rw [sequenceTokens, whole]
  simp only [Bool.false_eq_true, if_false, List.nil_append, Token.readAll, Token.read_tagged inert]
  rfl

/-- An entry for a call with a tag declares the position of the call, and then describes it. -/
theorem build_tagged [Pattern.Judge] (shorthands : List Shorthand) (inert : Inert tag) (description : String) :
    build shorthands (.map [(.text (c.tagged tag), .text description)]) =
      .ok ⟨.mk (Node.root shorthands).content [] [(c.taggedToken tag,
        .mk { Content.ofToken (c.taggedToken tag) with description := some description, priority := 2 }
          [] [])], 2⟩ := by
  have text : ∀ s : String, textOf (.text s) = .ok s := fun _ => rfl
  rw [build, buildEntries, text, role?_tagged inert]
  simp only [bind, Except.bind, buildValue, atEach, sequenceTokens_tagged inert]
  rfl

/-- The entry declares the position of the call, with this description and this tag, and nothing else. -/
def TagKept [Pattern.Judge] (shorthands : List Shorthand) (c : Call) (tag description : String) : Prop :=
  ∃ draft t content,
    build shorthands (.map [(.text (c.tagged tag), .text description)]) = .ok draft ∧
      draft.node.steps = [] ∧ draft.node.children = [(t, .mk content [] [])] ∧ t.key = .call c ∧
      content.description = some description ∧ content.tag = some tag

/-- A tag without separators comes through as it was written. -/
theorem tagKept_of_inert [Pattern.Judge] (shorthands : List Shorthand) (c : Call) (inert : Inert tag)
    (description : String) : TagKept shorthands c tag description :=
  ⟨_, c.taggedToken tag, _, build_tagged shorthands inert description, rfl, rfl, rfl, rfl, rfl⟩

theorem tagKept_of_inert_strong : Inert "strong!1NT" ∧
    TagKept [] (.bid .lowest) "strong!1NT" "natural" :=
  ⟨by decide, tagKept_of_inert [] (.bid .lowest) (by decide) "natural"⟩

theorem TagKept.tags_eq [Pattern.Judge] {shorthands : List Shorthand} {description : String}
    (kept : TagKept shorthands c tag description) :
    (build shorthands (.map [(.text (c.tagged tag), .text description)])).toOption.map
      (fun draft => draft.node.children.map fun e => e.2.content.tag) = some [some tag] := by
  obtain ⟨draft, t, content, built, _, children, _, _, same⟩ := kept
  rw [built]
  simp [Except.toOption, children, same]

/-- Commas, slashes and dashes take a tag apart, and spaces are lost from it. -/
theorem not_tagKept_of_separators : ["a,b", "a/b", "a-b", "a b"].Forall fun tag =>
    tag.toList.all (· ∉ ['[', ']', '|']) = true ∧ ¬ TagKept [] (.bid .lowest) tag "natural" := by
  refine ⟨⟨rfl, ?_⟩, ⟨rfl, ?_⟩, ⟨rfl, ?_⟩, ⟨rfl, ?_⟩⟩
  all_goals
    intro kept
    exact absurd kept.tags_eq (by decide +kernel)

end Document

end Tagged

end BidBook
