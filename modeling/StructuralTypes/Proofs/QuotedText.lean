import Mathlib.Logic.IsEmpty.Basic
import StructuralTypes.Proofs.Grammar.Token

namespace StructuralTypes

namespace Quoted

inductive Item
  | plain (c : Char)
  | escaped (c : Char)

namespace Item

def char : Item → Char
  | plain c | escaped c => c

def spelling : Item → List Char
  | plain c => [c]
  | escaped c => ['\\', c]

def Allowed (quote : Char) : Item → Prop
  | plain c => c ≠ quote ∧ c ≠ '\\'
  | escaped _ => True

end Item

def spell (items : List Item) : List Char :=
  items.flatMap Item.spelling

/-- A text cut into a quote, the items of a body, the same quote again and what comes after it. -/
structure Cut (text : List Char) where
  quote : Char
  items : List Item
  rest : List Char
  isQuote : Quoted.isQuote quote
  allowed : ∀ i ∈ items, i.Allowed quote
  text_eq : text = quote :: (spell items ++ quote :: rest)

def Cut.value {text : List Char} (c : Cut text) : String :=
  .ofList (c.items.map Item.char)

/-- The text is a quote and the items of a body, and no more than a backslash comes after them. -/
def Unclosed (quote : Char) (text : List Char) : Prop :=
  isQuote quote ∧ ∃ (items : List Item) (tail : List Char), (∀ i ∈ items, i.Allowed quote) ∧
    text = quote :: (spell items ++ tail) ∧ (tail = [] ∨ tail = ['\\'])

variable {quote : Char} {i j : Item} {items others : List Item}
  {text body rest after tail : List Char}

theorem spell_cons : spell (i :: items) = i.spelling ++ spell items :=
  List.flatMap_cons

theorem Unclosed.head?_eq (h : Unclosed quote text) : text.head? = some quote := by
  obtain ⟨-, items, tail, -, rfl, -⟩ := h
  rfl

/-- Reading goes over an item and takes down the character that it means. -/
theorem read_item (hi : i.Allowed quote) : read quote (i.spelling ++ tail) =
    (read quote tail).map fun (text, after) => (i.char :: text, after) := by
  cases i with
  | plain c =>
    rw [Item.spelling, List.singleton_append, read_cons hi.2, if_neg hi.1]
    rfl
  | escaped c => rfl

theorem read_spell (hitems : ∀ i ∈ items, i.Allowed quote) : read quote (spell items ++ tail) =
    (read quote tail).map fun (text, after) => (items.map Item.char ++ text, after) := by
  induction items with
  | nil => simp [spell]
  | cons i items ih =>
    rw [List.forall_mem_cons] at hitems
    rw [spell_cons, List.append_assoc, read_item hitems.1, ih hitems.2, Option.map_map]
    rfl

/-- Items go on until the text ends, in a backslash or not, or the quote comes. -/
theorem exists_spell (quote : Char) (body : List Char) : ∃ (items : List Item) (tail : List Char),
    (∀ i ∈ items, i.Allowed quote) ∧ body = spell items ++ tail ∧
      (tail = [] ∨ tail = ['\\'] ∨ ∃ rest, tail = quote :: rest) := by
  have hnone : ∀ i ∈ ([] : List Item), i.Allowed quote := nofun
  fun_induction Quoted.read quote body with
  | case1 => exact ⟨[], _, hnone, rfl, .inl rfl⟩
  | case2 c body ih =>
    obtain ⟨items, tail, hitems, rfl, htail⟩ := ih
    exact ⟨.escaped c :: items, tail, List.forall_mem_cons.2 ⟨trivial, hitems⟩, rfl, htail⟩
  | case3 => exact ⟨[], _, hnone, rfl, .inr (.inl rfl)⟩
  | case4 body => exact ⟨[], _, hnone, rfl, .inr (.inr ⟨body, rfl⟩)⟩
  | case5 c body hpair hlast hc ih =>
    have hslash : c ≠ '\\' := by
      intro h
      cases body with
      | nil => exact hlast h rfl
      | cons d body => exact hpair d body h rfl
    obtain ⟨items, tail, hitems, rfl, htail⟩ := ih
    have hi : (Item.plain c).Allowed quote := ⟨hc, hslash⟩
    exact ⟨.plain c :: items, tail, List.forall_mem_cons.2 ⟨hi, hitems⟩, rfl, htail⟩

/-- No two items begin alike. -/
theorem spelling_append_inj (hi : i.Allowed quote) (hj : j.Allowed quote)
    (h : i.spelling ++ rest = j.spelling ++ after) : i = j ∧ rest = after := by
  cases i with
  | plain c =>
    cases j with
    | plain d =>
      obtain ⟨rfl, rfl⟩ := List.cons.inj h
      exact ⟨rfl, rfl⟩
    | escaped d => exact absurd (List.cons.inj h).1 hi.2
  | escaped c =>
    cases j with
    | plain d => exact absurd (List.cons.inj h).1.symm hj.2
    | escaped d =>
      obtain ⟨rfl, rfl⟩ := List.cons.inj (List.cons.inj h).2
      exact ⟨rfl, rfl⟩

/-- No item begins with the quote that ends the body. -/
theorem spelling_append_ne (hquote : quote ≠ '\\') (hi : i.Allowed quote) :
    i.spelling ++ tail ≠ quote :: rest := by
  intro h
  cases i with
  | plain c => exact hi.1 (List.cons.inj h).1
  | escaped c => exact hquote (List.cons.inj h).1.symm

/-- The items of a body are known from the text. -/
theorem spell_append_inj (hquote : quote ≠ '\\') (hitems : ∀ i ∈ items, i.Allowed quote)
    (hothers : ∀ i ∈ others, i.Allowed quote)
    (h : spell items ++ quote :: rest = spell others ++ quote :: after) :
    items = others ∧ rest = after := by
  induction items generalizing others with
  | nil =>
    cases others with
    | nil => exact ⟨rfl, (List.cons.inj h).2⟩
    | cons j others =>
      rw [spell_cons, List.append_assoc] at h
      exact absurd h.symm (spelling_append_ne hquote (hothers j List.mem_cons_self))
  | cons i items ih =>
    rw [List.forall_mem_cons] at hitems
    rw [spell_cons, List.append_assoc] at h
    cases others with
    | nil => exact absurd h (spelling_append_ne hquote hitems.1)
    | cons j others =>
      rw [List.forall_mem_cons] at hothers
      rw [spell_cons, List.append_assoc] at h
      obtain ⟨rfl, hlater⟩ := spelling_append_inj hitems.1 hothers.1 h
      obtain ⟨rfl, rfl⟩ := ih hitems.2 hothers.2 hlater
      exact ⟨rfl, rfl⟩

theorem subsingleton_cut (text : List Char) : Subsingleton (Cut text) := by
  refine ⟨fun ⟨quote, items, rest, hquote, hitems, heq⟩ ⟨_, others, after, _, hothers, heq'⟩ => ?_⟩
  subst heq
  obtain ⟨rfl, h⟩ := List.cons.inj heq'
  obtain ⟨rfl, rfl⟩ := spell_append_inj (ne_backslash_of_isQuote hquote) hitems hothers h
  rfl

/-- There are three kinds of texts. -/
theorem cut_or_unclosed (text : List Char) : Nonempty (Cut text) ∨ (∃ quote, Unclosed quote text) ∨
    ¬ ∃ quote, text.head? = some quote ∧ isQuote quote := by
  cases text with
  | nil => exact .inr (.inr fun ⟨quote, h, _⟩ => by cases h)
  | cons quote body =>
    by_cases hquote : isQuote quote
    · obtain ⟨items, tail, hitems, rfl, htail⟩ := exists_spell quote body
      rcases htail with rfl | rfl | ⟨rest, rfl⟩
      · exact .inr (.inl ⟨quote, hquote, items, [], hitems, rfl, .inl rfl⟩)
      · exact .inr (.inl ⟨quote, hquote, items, ['\\'], hitems, rfl, .inr rfl⟩)
      · exact .inl ⟨⟨quote, items, rest, hquote, hitems, rfl⟩⟩
    · refine .inr (.inr ?_)
      rintro ⟨_, hhead, h⟩
      cases hhead
      exact hquote h

end Quoted

namespace Lexeme

open Quoted

variable {quote : Char} {text rest : List Char} {s : String}

theorem quoted_of_cut (c : Cut text) : quoted text = .ok (c.value, c.rest) := by
  obtain ⟨quote, items, rest, hquote, hitems, rfl⟩ := c
  have hclose : read quote (quote :: rest) = some ([], rest) := by
    rw [read_cons (ne_backslash_of_isQuote hquote), if_pos rfl]
  rw [quoted, if_pos hquote, read_spell hitems, hclose, Option.map_some]
  simp only [Cut.value, List.append_nil]

theorem quoted_of_unclosed (h : Unclosed quote text) :
    quoted text = .error (.unclosedText quote (.ofList text)) := by
  obtain ⟨hquote, items, tail, hitems, rfl, htail⟩ := h
  have hopen : read quote tail = none := by
    rcases htail with rfl | rfl <;> rfl
  rw [quoted, if_pos hquote, read_spell hitems, hopen]
  rfl

theorem quoted_of_not_isQuote (h : ¬ ∃ quote, text.head? = some quote ∧ isQuote quote) :
    quoted text = .error (.expectedChar '\x27' (.ofList text)) := by
  cases text with
  | nil => rfl
  | cons c body =>
    have hc : ¬ isQuote c := fun hquote => h ⟨c, rfl, hquote⟩
    rw [quoted, if_neg hc]

/-- What reading says of the three kinds of texts. -/
theorem quoted_cases (text : List Char) :
    (∃ c : Cut text, quoted text = .ok (c.value, c.rest)) ∨
    (∃ quote, Unclosed quote text ∧ quoted text = .error (.unclosedText quote (.ofList text))) ∨
    (¬ ∃ quote, text.head? = some quote ∧ isQuote quote) ∧
      quoted text = .error (.expectedChar '\x27' (.ofList text)) := by
  rcases cut_or_unclosed text with ⟨⟨c⟩⟩ | ⟨quote, h⟩ | h
  · exact .inl ⟨c, quoted_of_cut c⟩
  · exact .inr (.inl ⟨quote, h, quoted_of_unclosed h⟩)
  · exact .inr (.inr ⟨h, quoted_of_not_isQuote h⟩)

theorem quoted_eq_ok_iff_cut : quoted text = .ok (s, rest) ↔
    ∃ c : Cut text, c.value = s ∧ c.rest = rest := by
  constructor
  · intro h
    rcases quoted_cases text with ⟨c, hc⟩ | ⟨_, -, hread⟩ | ⟨-, hread⟩
    · cases hc.symm.trans h
      exact ⟨c, rfl, rfl⟩
    · cases hread.symm.trans h
    · cases hread.symm.trans h
  · rintro ⟨c, rfl, rfl⟩
    exact quoted_of_cut c

theorem quoted_eq_unclosed_iff :
    quoted text = .error (.unclosedText quote (.ofList text)) ↔ Unclosed quote text := by
  refine ⟨fun h => ?_, quoted_of_unclosed⟩
  rcases quoted_cases text with ⟨c, hc⟩ | ⟨_, hquote, hread⟩ | ⟨-, hread⟩
  · cases hc.symm.trans h
  · cases hread.symm.trans h
    exact hquote
  · cases hread.symm.trans h

theorem quoted_eq_expectedChar_iff : quoted text = .error (.expectedChar '\x27' (.ofList text)) ↔
    ¬ ∃ quote, text.head? = some quote ∧ isQuote quote := by
  refine ⟨fun h => ?_, quoted_of_not_isQuote⟩
  rcases quoted_cases text with ⟨c, hc⟩ | ⟨_, -, hread⟩ | ⟨hquote, -⟩
  · cases hc.symm.trans h
  · cases hread.symm.trans h
  · exact hquote

/-- A text that begins with a quote is not closed exactly if it cannot be cut. -/
theorem unclosed_iff : Unclosed quote text ↔
    (text.head? = some quote ∧ isQuote quote) ∧ IsEmpty (Cut text) := by
  constructor
  · intro h
    refine ⟨⟨h.head?_eq, h.1⟩, ⟨fun c => ?_⟩⟩
    cases (quoted_of_cut c).symm.trans (quoted_of_unclosed h)
  · rintro ⟨hhead, hempty⟩
    rcases cut_or_unclosed text with ⟨⟨c⟩⟩ | ⟨other, h⟩ | h
    · exact hempty.elim c
    · cases hhead.1.symm.trans h.head?_eq
      exact h
    · exact absurd ⟨quote, hhead⟩ h

/-- A text is cut into quoted text and a rest in at most one way, and is read in this way if there
is one. Otherwise the error carries all of the text: it says that the quote at the front is not
closed, or that there should be one. -/
theorem quoted_exact (text : List Char) :
    Subsingleton (Cut text) ∧
    (∀ s rest, quoted text = .ok (s, rest) ↔ ∃ c : Cut text, c.value = s ∧ c.rest = rest) ∧
    (∀ quote, quoted text = .error (.unclosedText quote (.ofList text)) ↔
      (text.head? = some quote ∧ isQuote quote) ∧ IsEmpty (Cut text)) ∧
    (∀ quote, quoted text = .error (.unclosedText quote (.ofList text)) ↔ Unclosed quote text) ∧
    (quoted text = .error (.expectedChar '\x27' (.ofList text)) ↔
      ¬ ∃ quote, text.head? = some quote ∧ isQuote quote) :=
  ⟨subsingleton_cut text, fun _ _ => quoted_eq_ok_iff_cut,
    fun _ => quoted_eq_unclosed_iff.trans unclosed_iff, fun _ => quoted_eq_unclosed_iff,
    quoted_eq_expectedChar_iff⟩

/-- A quote after a backslash closes nothing, and a backslash at the end leaves the text open. -/
theorem quoted_exact_escaped :
    quoted "\x27a\\\x27\x27 b".toList = .ok ("a\x27", " b".toList) ∧
      Subsingleton (Cut "\x27a\\\x27\x27 b".toList) ∧
      quoted "\x27a\\".toList = .error (.unclosedText '\x27' "\x27a\\") ∧
      quoted "b".toList = .error (.expectedChar '\x27' "b") := by
  have hallowed : ∀ i ∈ [Item.plain 'a', .escaped '\x27'], i.Allowed '\x27' := by
    simp [Item.Allowed]
  have hopen : ∀ i ∈ [Item.plain 'a'], i.Allowed '\x27' := by
    simp [Item.Allowed]
  obtain ⟨hone, hread, -⟩ := quoted_exact "\x27a\\\x27\x27 b".toList
  obtain ⟨-, -, -, hunclosed, -⟩ := quoted_exact "\x27a\\".toList
  obtain ⟨-, -, -, -, hexpected⟩ := quoted_exact "b".toList
  refine ⟨?_, hone, ?_, ?_⟩
  · exact (hread _ _).2
      ⟨⟨'\x27', [.plain 'a', .escaped '\x27'], " b".toList, rfl, hallowed, rfl⟩, rfl, rfl⟩
  · exact (hunclosed '\x27').2 ⟨rfl, [.plain 'a'], ['\\'], hopen, rfl, .inr rfl⟩
  · exact hexpected.2 (by rintro ⟨_, hhead, hquote⟩; cases hhead; cases hquote)

end Lexeme

end StructuralTypes
