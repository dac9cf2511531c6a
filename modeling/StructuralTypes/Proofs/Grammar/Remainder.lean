import StructuralTypes.Proofs.Grammar.ReadExpression

namespace StructuralTypes

/-- The end of what is left does not matter: the relation holds as well where it is cut off. -/
def Severable (r : List Char → List Char → Prop) : Prop :=
  ∀ ⦃text kept tail⦄, r text (kept ++ tail) → ∃ front, text = front ++ tail ∧ r front kept

section

variable {text kept tail rest : List Char}

theorem exists_skipBlank_eq (h : skipBlank text = kept ++ tail) :
    ∃ front, text = front ++ tail ∧ skipBlank front = kept := by
  refine ⟨text.takeWhile isBlank ++ kept, ?_, ?_⟩
  · rw [List.append_assoc, ← h]
    exact List.takeWhile_append_dropWhile.symm
  · have hblank : skipBlank (text.takeWhile isBlank ++ kept) = skipBlank kept :=
      List.dropWhile_append_of_pos fun _ => List.mem_takeWhile_imp
    rw [hblank]
    cases kept with
    | nil => rfl
    | cons c kept =>
      have hc := List.head?_dropWhile_not isBlank text
      rw [← skipBlank, h] at hc
      exact List.dropWhile_cons_of_neg (by simpa using hc)

theorem Severable.afterBlank {r : List Char → List Char → Prop} (hr : Severable r) :
    Severable fun text => r (skipBlank text) := by
  intro text kept tail h
  obtain ⟨inner, hinner, h⟩ := hr h
  obtain ⟨front, rfl, rfl⟩ := exists_skipBlank_eq hinner
  exact ⟨front, rfl, h⟩

theorem Severable.suffix {r : List Char → List Char → Prop} (hr : Severable r) (h : r text rest) :
    rest <:+ text := by
  obtain ⟨front, rfl, -⟩ := @hr _ [] _ h
  exact List.suffix_append front rest

theorem severable_symbol (c : Char) : Severable (Symbol c) := by
  intro text kept tail h
  have hcons : skipBlank text = (c :: kept) ++ tail := h
  exact exists_skipBlank_eq hcons

theorem severable_mark (optional : Bool) : Severable (Mark optional) := by
  intro text kept tail h
  generalize hrest : kept ++ tail = rest at h
  cases h with
  | present h =>
    cases hrest
    obtain ⟨front, rfl, h'⟩ := severable_symbol '?' h
    exact ⟨front, rfl, .present h'⟩
  | absent => exact ⟨kept, hrest.symm, .absent⟩

theorem severable_separator : Severable Separator := by
  intro text kept tail h
  generalize hrest : kept ++ tail = rest at h
  cases h with
  | comma h =>
    cases hrest
    obtain ⟨front, rfl, h'⟩ := severable_symbol ',' h
    exact ⟨front, rfl, .comma h'⟩
  | semicolon h =>
    cases hrest
    obtain ⟨front, rfl, h'⟩ := severable_symbol ';' h
    exact ⟨front, rfl, .semicolon h'⟩
  | absent => exact ⟨kept, hrest.symm, .absent⟩

namespace Lexeme

theorem severable_longest (p : Char → Bool) (body : List Char) : Severable (Longest p body) := by
  intro text kept tail h
  refine ⟨body ++ kept, by rw [h.split, List.append_assoc], h.ne_nil, h.all, rfl, ?_⟩
  intro c hc
  exact h.ends c (List.mem_head?_append_of_mem_head? hc)

theorem severable_fraction (places : List Char) : Severable (Fraction places) := by
  intro text kept tail h
  generalize hrest : kept ++ tail = rest at h
  cases h with
  | point h =>
    cases hrest
    obtain ⟨digits, rfl, h'⟩ := severable_longest Char.isDigit places h
    exact ⟨'.' :: digits, rfl, .point h'⟩
  | none h =>
    cases hrest
    refine ⟨kept, rfl, .none ?_⟩
    rintro d after rfl
    exact h d (after ++ tail) rfl

theorem severable_numeral (d : Decimal) : Severable (Numeral d) := by
  rintro text kept tail ⟨whole, places, after, hwhole, hplaces, hd⟩
  obtain ⟨inner, rfl, hplaces'⟩ := severable_fraction places hplaces
  obtain ⟨front, rfl, hwhole'⟩ := severable_longest Char.isDigit whole hwhole
  exact ⟨front, rfl, whole, places, inner, hwhole', hplaces', hd⟩

theorem severable_quotedText (s : String) : Severable (QuotedText s) := by
  rintro text kept tail ⟨quote, body, hquote, hbody, rfl⟩
  refine ⟨quote :: (body ++ quote :: kept), ?_, quote, body, hquote, hbody, rfl⟩
  simp

theorem severable_key (name : String) : Severable (Key name) := by
  rintro text kept tail (h | h)
  · obtain ⟨front, rfl, h'⟩ := severable_quotedText name h
    exact ⟨front, rfl, .inl h'⟩
  · obtain ⟨front, rfl, h'⟩ := severable_longest isKeyChar name.toList h
    exact ⟨front, rfl, .inr h'⟩

end Lexeme

/-- What a text spells is spelled by the part of it that is read. -/
theorem severable_spells (phrase : Phrase) : Severable (Spells phrase) := by
  intro text kept tail h
  generalize hrest : kept ++ tail = rest at h
  -- each part begins where the one after it, which is cut already, leaves off
  induction h generalizing kept with
  | quoted h =>
    cases hrest
    obtain ⟨front, rfl, h'⟩ := (Lexeme.severable_quotedText _).afterBlank h
    exact ⟨front, rfl, .quoted h'⟩
  | numeral h =>
    cases hrest
    obtain ⟨front, rfl, h'⟩ := (Lexeme.severable_numeral _).afterBlank h
    exact ⟨front, rfl, .numeral h'⟩
  | word h hname =>
    cases hrest
    obtain ⟨front, rfl, h'⟩ := (Lexeme.severable_longest _ _).afterBlank h
    exact ⟨front, rfl, .word h' hname⟩
  | array hname hopen hitem hclose ih =>
    cases hrest
    obtain ⟨last, rfl, hclose'⟩ := severable_symbol '>' hclose
    obtain ⟨inner, rfl, hitem'⟩ := ih rfl
    obtain ⟨after, rfl, hopen'⟩ := severable_symbol '<' hopen
    obtain ⟨front, rfl, hname'⟩ := (Lexeme.severable_longest _ _).afterBlank hname
    exact ⟨front, rfl, .array hname' hopen' hitem' hclose'⟩
  | object hopen h ih =>
    obtain ⟨inner, rfl, h'⟩ := ih hrest
    obtain ⟨front, rfl, hopen'⟩ := severable_symbol '\x7b' hopen
    exact ⟨front, rfl, .object hopen' h'⟩
  | done h =>
    cases hrest
    obtain ⟨front, rfl, h'⟩ := severable_symbol '\x7d' h
    exact ⟨front, rfl, .done h'⟩
  | field hname hmark hcolon htype hseparator h iht ih =>
    obtain ⟨next, rfl, h'⟩ := ih hrest
    obtain ⟨afterType, rfl, hseparator'⟩ := severable_separator hseparator
    obtain ⟨afterColon, rfl, htype'⟩ := iht rfl
    obtain ⟨afterMark, rfl, hcolon'⟩ := severable_symbol ':' hcolon
    obtain ⟨afterName, rfl, hmark'⟩ := severable_mark _ hmark
    obtain ⟨front, rfl, hname'⟩ := (Lexeme.severable_key _).afterBlank hname
    exact ⟨front, rfl, .field hname' hmark' hcolon' htype' hseparator' h'⟩
  | leaf h ih =>
    obtain ⟨front, rfl, h'⟩ := ih hrest
    exact ⟨front, rfl, .leaf h'⟩
  | group hopen h hclose ih =>
    cases hrest
    obtain ⟨last, rfl, hclose'⟩ := severable_symbol ')' hclose
    obtain ⟨inner, rfl, h'⟩ := ih rfl
    obtain ⟨front, rfl, hopen'⟩ := severable_symbol '(' hopen
    exact ⟨front, rfl, .group hopen' h' hclose'⟩
  | intersection h ih =>
    obtain ⟨front, rfl, h'⟩ := ih hrest
    exact ⟨front, rfl, .intersection h'⟩
  | and hl hop hr ihl ihr =>
    obtain ⟨next, rfl, hr'⟩ := ihr hrest
    obtain ⟨after, rfl, hop'⟩ := severable_symbol '&' hop
    obtain ⟨front, rfl, hl'⟩ := ihl rfl
    exact ⟨front, rfl, .and hl' hop' hr'⟩
  | union h ih =>
    obtain ⟨front, rfl, h'⟩ := ih hrest
    exact ⟨front, rfl, .union h'⟩
  | or hl hop hr ihl ihr =>
    obtain ⟨next, rfl, hr'⟩ := ihr hrest
    obtain ⟨after, rfl, hop'⟩ := severable_symbol '|' hop
    obtain ⟨front, rfl, hl'⟩ := ihl rfl
    exact ⟨front, rfl, .or hl' hop' hr'⟩

end

namespace Reading

variable {c d : Cursor} {t : TypeExpr}

theorem ne_nil_of_length_lt {front rest text : List Char} (htext : text = front ++ rest)
    (h : rest.length < text.length) : front ≠ [] := by
  rintro rfl
  rw [htext, List.nil_append] at h
  exact Nat.lt_irrefl _ h

/-- A type is read from the text that it takes up, whatever stands after it. -/
theorem exists_front_of_type (h : type c = .ok t d) :
    ∃ front, front ≠ [] ∧ c.rest = front ++ d.rest ∧ Ends d.rest ∧
      TypeExpr.parse (.ofList front) = .ok (t, "") := by
  obtain ⟨rest, hspells, hends, hallowed, rfl⟩ := (readsExpressions_type (Nat.zero_le _)).1 h
  obtain ⟨blanks, hrest, hblanks⟩ : ∃ blanks, rest = blanks ++ StructuralTypes.skipBlank rest ∧
      StructuralTypes.skipBlank blanks = [] :=
    exists_skipBlank_eq (List.nil_append _).symm
  rw [hrest] at hspells
  obtain ⟨front, hfront, hspells⟩ := severable_spells _ hspells
  refine ⟨front, ?_, hfront, ?_, ?_⟩
  · exact ne_nil_of_length_lt hfront ((typeWithin maxDepth).shortens _ _ _ h)
  · unfold Ends
    rwa [skipBlank_skipBlank]
  · rw [TypeExpr.parse_eq_ok]
    refine ⟨blanks, by rwa [String.toList_ofList], ends_of_skipBlank_eq_nil hblanks, ?_, ?_⟩
    · exact hallowed.of_le (Nat.le_add_left 1 _)
    · rw [hblanks]

/-- A leaf, an array or an object is read from the text that it takes up, also where it was met at
the limit on levels or beyond. -/
theorem exists_front_of_single (h : single c = .ok t d) :
    ∃ front, front ≠ [] ∧ c.rest = front ++ d.rest ∧
      single (.start (.ofList front)) = .ok t ⟨[], 0⟩ := by
  obtain ⟨hspells, hallowed, -⟩ : Spells (.leaf t) c.rest d.rest ∧ t.Allowed 0 ∧ _ :=
    spells_of_leaf readsExpressions_type (Nat.zero_le _) (Nat.zero_le _) (Nat.zero_le _) h
  obtain ⟨front, hfront, hspells⟩ := @severable_spells _ _ [] _ hspells
  refine ⟨front, ne_nil_of_length_lt hfront (shortens_leaf _ _ _ _ h), hfront, ?_⟩
  have hstart : Cursor.start (.ofList front) = ⟨front, 0⟩ := by
    rw [Cursor.start, String.toList_ofList]
  rw [hstart]
  exact leaf_eq_ok (c := ⟨front, 0⟩) readsExpressions_type (Nat.le_refl 0) hspells hallowed rfl

/-- Wherever reading succeeds, it takes up a part of the text that is not empty. After a type no
connective and no parenthesis follows. Of the part alone the same is read, and nothing is left. -/
theorem consumed_read_alone :
    (∀ c t d, type c = .ok t d → ∃ front, front ≠ [] ∧ c.rest = front ++ d.rest ∧
      (∀ ch ∈ d.remaining.toList.head?, ch ∉ ['(', ')', '&', '|']) ∧
      TypeExpr.parse (.ofList front) = .ok (t, "")) ∧
    ∀ c t d, single c = .ok t d → ∃ front, front ≠ [] ∧ c.rest = front ++ d.rest ∧
      single (.start (.ofList front)) = .ok t ⟨[], 0⟩ := by
  refine ⟨fun c t d h => ?_, fun c t d => exists_front_of_single⟩
  obtain ⟨front, hne, hfront, hends, hparse⟩ := exists_front_of_type h
  refine ⟨front, hne, hfront, ?_, hparse⟩
  rwa [Cursor.remaining, String.toList_ofList]

/-- Below, no digit follows the point after `3`, so that it is left, and `x` ends before the
digit. -/
theorem consumed_read_alone_before_point :
    let d : Decimal := ⟨3, 0, by decide, by decide⟩
    let t := TypeExpr.and (.leaf (.word "x")) (.leaf (.numeral d))
    type ⟨" x & 3.y".toList, 100⟩ = .ok t ⟨".y".toList, 100⟩ ∧
      TypeExpr.parse " x & 3" = .ok (t, "") ∧
      single ⟨"x5".toList, 200⟩ = .ok (.leaf (.word "x")) ⟨"5".toList, 200⟩ ∧
      single (.start "x") = .ok (.leaf (.word "x")) ⟨[], 0⟩ := by
  intro d t
  have hx : Spells (.leaf (.leaf (.ofWord "x"))) " x & 3.y".toList " & 3.y".toList :=
    .word (Lexeme.run_eq_ok_iff.1 (rfl : Lexeme.word _ = _)) (by decide)
  have hd : Spells (.leaf (.leaf (.numeral d))) " 3.y".toList ".y".toList :=
    .numeral (Lexeme.number_eq_ok_iff.1 rfl)
  have ht : Spells (.expression .union t) " x & 3.y".toList ".y".toList :=
    .union (.and (.intersection (.leaf hx)) rfl (.leaf hd))
  have hends : Ends ".y".toList := by simp [Ends, StructuralTypes.skipBlank, isBlank]
  have htype : type ⟨" x & 3.y".toList, 100⟩ = .ok t ⟨".y".toList, 100⟩ :=
    (readsExpressions_type (Nat.zero_le _)).2
      ⟨_, ht, hends, ⟨by simp [t, TypeExpr.DistinctNames], by decide⟩, rfl⟩
  have hsingle : single ⟨"x5".toList, 200⟩ = .ok (.leaf (.word "x")) ⟨"5".toList, 200⟩ := rfl
  obtain ⟨front, -, hfront, -, hparse⟩ := consumed_read_alone.1 _ _ _ htype
  obtain ⟨front', -, hfront', hsingle'⟩ := consumed_read_alone.2 _ _ _ hsingle
  obtain rfl : " x & 3".toList = front := List.append_cancel_right hfront
  obtain rfl : "x".toList = front' := List.append_cancel_right hfront'
  rw [String.ofList_toList] at hparse hsingle'
  exact ⟨htype, hparse, hsingle, hsingle'⟩

end Reading
end StructuralTypes
