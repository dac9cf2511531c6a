import StructuralTypes.Proofs.Grammar.Remainder
import StructuralTypes.Proofs.Limits

namespace StructuralTypes

namespace Quoted

def slashesAtEnd (text : List Char) : Nat :=
  (text.reverse.takeWhile (· = '\\')).length

/-- What comes after the text is escaped: of the backslashes before it one is left over. -/
def Escapes (text : List Char) : Prop :=
  slashesAtEnd text % 2 = 1

variable {quote c : Char} {text body front after : List Char}

theorem slashesAtEnd_le (text : List Char) : slashesAtEnd text ≤ text.length :=
  Nat.le_trans (List.takeWhile_sublist _).length_le (Nat.le_of_eq List.length_reverse)

theorem slashesAtEnd_cons : slashesAtEnd (c :: text) =
    if slashesAtEnd text = text.length ∧ c = '\\' then text.length + 1 else slashesAtEnd text := by
  unfold slashesAtEnd
  rw [List.reverse_cons, List.takeWhile_append, List.length_reverse]
  split
  · next h => by_cases hc : c = '\\' <;> simp [h, hc]
  · next h => simp [h]

theorem escapes_cons (hc : c ≠ '\\') : Escapes (c :: text) ↔ Escapes text := by
  simp [Escapes, slashesAtEnd_cons, hc]

theorem escapes_pair : Escapes ('\\' :: c :: text) ↔ Escapes text := by
  have hle := slashesAtEnd_le text
  simp only [Escapes, slashesAtEnd_cons, List.length_cons, and_true]
  by_cases hc : c = '\\'
  · simp only [hc, and_true]
    split <;> split <;> omega
  · simp only [hc, and_false, if_false]
    split <;> omega

/-- A text that is not closed has no quote left that would close it. -/
theorem escapes_of_read (hquote : quote ≠ '\\') (h : read quote body = none)
    (hbody : body = front ++ quote :: after) : Escapes front := by
  fun_induction read quote body generalizing front with
  | case1 => simp at hbody
  | case2 c body ih =>
    cases front with
    | nil => exact absurd (List.cons.inj hbody).1.symm hquote
    | cons x front =>
      obtain ⟨rfl, htail⟩ := List.cons.inj hbody
      cases front with
      | nil => rfl
      | cons x front =>
        obtain ⟨rfl, hrest⟩ := List.cons.inj htail
        exact escapes_pair.2 (ih (Option.map_eq_none_iff.1 h) hrest)
  | case3 =>
    cases front with
    | nil => exact absurd (List.cons.inj hbody).1.symm hquote
    | cons x front => simp at hbody
  | case4 => cases h
  | case5 c body hpair hlast hc ih =>
    cases front with
    | nil => exact absurd (List.cons.inj hbody).1 hc
    | cons x front =>
      obtain ⟨rfl, htail⟩ := List.cons.inj hbody
      have hslash : c ≠ '\\' := by
        rintro rfl
        cases body with
        | nil => exact hlast rfl rfl
        | cons d body => exact hpair d body rfl rfl
      exact (escapes_cons hslash).2 (ih (Option.map_eq_none_iff.1 h) htail)

end Quoted

namespace ReadError

/-- What the text begins with that the error carries. -/
def Finds : ReadError → Prop
  | .expectedWord rest => ∃ c ∈ rest.toList.head?, ¬ Quoted.isQuote c ∧ ¬ Lexeme.isKeyChar c
  | .expectedDigits _ => False
  | .expectedChar expected rest => rest.toList.head? ≠ some expected
  | .unclosedText quote rest => ∃ body, rest.toList = quote :: body ∧
    ∀ front after, body = front ++ quote :: after → Quoted.Escapes front
  | .unclosedObject rest => rest.toList.head? = some '\x7b'
  | .trailing rest => rest ≠ ""
  | .unknownChar found rest => rest.toList.head? = some found
  | _ => True

/-- The error carries an end of the text, if it carries any, and that begins as it must. -/
structure PointsInto (text : List Char) (e : ReadError) : Prop where
  suffix : ∀ rest ∈ e.rest?, rest.toList <:+ text
  finds : e.Finds

variable {text text' : List Char} {e : ReadError}

theorem pointsInto_ofList {kind : String → ReadError} {rest : List Char}
    (hkind : (kind (.ofList rest)).rest? = some (.ofList rest)) (hrest : rest <:+ text)
    (h : (kind (.ofList rest)).Finds) : (kind (.ofList rest)).PointsInto text := by
  refine ⟨fun s hs => ?_, h⟩
  rw [hkind, Option.mem_some] at hs
  rwa [← hs, String.toList_ofList]

theorem pointsInto_of_rest?_eq_none (hrest : e.rest? = none) (h : e.Finds) : e.PointsInto text :=
  ⟨fun _ hs => absurd (hrest.symm.trans hs) nofun, h⟩

theorem PointsInto.of_suffix (h : e.PointsInto text) (htext : text <:+ text') :
    e.PointsInto text' :=
  ⟨fun rest hrest => (h.suffix rest hrest).trans htext, h.finds⟩

theorem OfTerms.pointsInto (h : e.OfTerms) : e.PointsInto text := by
  apply pointsInto_of_rest?_eq_none <;> cases e <;> first | exact h.elim | trivial

end ReadError

namespace Lexeme

variable {p : Char → Bool} {text : List Char} {first : Char} {e : ReadError}

theorem pointsInto_of_quoted (hquote : Quoted.isQuote first)
    (h : quoted (first :: text) = .error e) : e.PointsInto (first :: text) := by
  rw [quoted, if_pos hquote] at h
  split at h
  · cases h
  · next hread =>
    cases h
    refine ReadError.pointsInto_ofList rfl (List.suffix_refl _) ⟨text, String.toList_ofList, ?_⟩
    intro front after hbody
    exact Quoted.escapes_of_read (Quoted.ne_backslash_of_isQuote hquote) hread hbody

theorem run_ne_error {missing : String → ReadError} (hfirst : p first) :
    run p missing (first :: text) ≠ .error e := by
  simp [run, hfirst]

theorem pointsInto_of_number (hfirst : first.isDigit) (h : number (first :: text) = .error e) :
    e.PointsInto (first :: text) := by
  rw [number, numberBy, List.takeWhile_cons_of_pos hfirst] at h
  dsimp only at h
  split at h <;> cases h
  exact ReadError.pointsInto_of_rest?_eq_none rfl trivial

theorem pointsInto_of_key (h : key (first :: text) = .error e) :
    e.PointsInto (first :: text) := by
  rw [key] at h
  split at h
  · next hquote => exact pointsInto_of_quoted hquote h
  · next hquote =>
    unfold run at h
    split at h
    · next hnone =>
      cases h
      refine ReadError.pointsInto_ofList rfl (List.suffix_refl _) ⟨first, by simp, hquote, ?_⟩
      simpa using hnone
    · cases h

end Lexeme

namespace Reading

variable {α β : Type} {text : List Char}

inductive EndsIn (text : List Char) : EStateM.Result ReadError Cursor α → Prop
  | ok {a : α} {d : Cursor} (h : d.rest <:+ text) : EndsIn text (.ok a d)
  | error {e : ReadError} {d : Cursor} (h : e.PointsInto text) : EndsIn text (.error e d)

def Locates (text : List Char) (r : Reading α) : Prop :=
  ∀ c : Cursor, c.rest <:+ text → EndsIn text (r c)

variable {c d : Cursor} {e : ReadError} {a : α} {start : String}

theorem EndsIn.suffix {r : Reading α} (h : EndsIn text (r c)) (hr : r c = .ok a d) :
    d.rest <:+ text := by
  rw [hr] at h
  cases h with
  | ok h => exact h

theorem EndsIn.pointsInto {r : Reading α} (h : EndsIn text (r c)) (hr : r c = .error e d) :
    e.PointsInto text := by
  rw [hr] at h
  cases h with
  | error h => exact h

theorem EndsIn.bind_ok {x : Reading α} {f : α → Reading β} (hx : EndsIn text (x c))
    (hf : ∀ a d, x c = .ok a d → EndsIn text (f a d)) : EndsIn text ((x >>= f) c) := by
  change EndsIn text (EStateM.bind x f c)
  unfold EStateM.bind
  split
  · next hread => exact hf _ _ hread
  · next hread => exact .error (hx.pointsInto hread)

theorem EndsIn.bind {x : Reading α} {f : α → Reading β} (hx : EndsIn text (x c))
    (hf : ∀ a, Locates text (f a)) : EndsIn text ((x >>= f) c) :=
  hx.bind_ok fun a d hread => hf a d (hx.suffix hread)

theorem Locates.bind {x : Reading α} {f : α → Reading β} (hx : Locates text x)
    (hf : ∀ a, Locates text (f a)) : Locates text (x >>= f) :=
  fun c hc => (hx c hc).bind hf

theorem locates_pure (a : α) : Locates text (pure a) :=
  fun _ => .ok

theorem suffix_skipBlank (hc : c.rest <:+ text) : c.skipBlank.rest <:+ text :=
  (List.dropWhile_suffix _).trans hc

theorem locates_skipBlank : Locates text skipBlank :=
  fun _ hc => .ok (suffix_skipBlank hc)

theorem locates_eat (ch : Char) : Locates text (eat ch) := by
  intro c hc
  rw [eat]
  split
  · exact .ok hc
  · next x rest hrest =>
    split
    · exact .ok ((List.suffix_cons x rest).trans (hrest ▸ hc))
    · exact .ok hc

theorem locates_expect (ch : Char) : Locates text (expect ch) := by
  intro c hc
  rw [expect, skipBlank_bind]
  have hc' := suffix_skipBlank hc
  have heat := locates_eat ch _ hc'
  refine heat.bind_ok fun b d hread => ?_
  cases b with
  | true => exact .ok (heat.suffix hread)
  | false =>
    obtain ⟨hne, rfl⟩ := eat_eq_ok.1 hread
    refine .error (ReadError.pointsInto_ofList rfl hc' ?_)
    rwa [ReadError.Finds, String.toList_ofList]

theorem locates_colon (hstart : (ReadError.unclosedObject start).PointsInto text) :
    Locates text (colon start) := by
  intro c hc
  rw [colon, skipBlank_bind, get_bind]
  split
  · exact .error hstart
  · exact locates_expect ':' _ (suffix_skipBlank hc)

variable {first : Char} {tail : List Char}

/-- A token that can be cut off from what follows it leaves an end of the text. -/
theorem endsIn_lexeme {read : Lexeme.Reader α} {spelled : α → List Char → List Char → Prop}
    (hok : ∀ {text a rest}, read text = .ok (a, rest) ↔ spelled a text rest)
    (hspelled : ∀ a, Severable (spelled a))
    (herror : ∀ e, read (first :: tail) = .error e → e.PointsInto (first :: tail))
    (hrest : c.rest = first :: tail) (hc : c.rest <:+ text) : EndsIn text (lexeme read c) := by
  rw [lexeme]
  split
  · next hread => exact .ok (((hspelled _).suffix (hok.1 hread)).trans hc)
  · next hread =>
    rw [hrest] at hread hc
    exact .error ((herror _ hread).of_suffix hc)

theorem locates_separator : Locates text separator := by
  refine locates_skipBlank.bind fun _ => (locates_eat ',').bind fun b => ?_
  cases b
  · exact (locates_eat ';').bind fun _ => locates_pure ()
  · exact locates_pure ()

variable {type : Step TypeExpr}

/-- A field begins with some character: the end of the text is left to the object. -/
theorem endsIn_field (hstart : (ReadError.unclosedObject start).PointsInto text)
    (htype : Locates text type.run) (hrest : c.rest = first :: tail) (hc : c.rest <:+ text) :
    EndsIn text (field start type c) := by
  have hkey : EndsIn text (lexeme Lexeme.key c) :=
    endsIn_lexeme Lexeme.key_eq_ok_iff Lexeme.severable_key
      (fun _ => Lexeme.pointsInto_of_key) hrest hc
  refine EndsIn.bind (hkey.bind fun name => ?_) fun head => ?_
  · exact locates_skipBlank.bind fun _ => (locates_eat '?').bind fun optional =>
      (locates_colon hstart).bind fun _ => locates_pure (name, optional)
  · exact htype.bind fun t => locates_separator.bind fun _ => locates_pure _

theorem endsIn_fields (hstart : (ReadError.unclosedObject start).PointsInto text)
    (htype : Locates text type.run) {done : List (Field TypeExpr)} (hc : c.rest <:+ text) :
    EndsIn text (fields start type done c) := by
  have hc' := suffix_skipBlank hc
  fun_induction fields start type done c with
  | case1 => exact .error hstart
  | case2 done c rest hrest => exact .ok ((List.suffix_cons _ rest).trans (hrest ▸ hc'))
  | case3 done c e d hread hend hclose =>
    obtain ⟨first, tail, hrest⟩ := List.exists_cons_of_ne_nil hend
    exact .error ((endsIn_field hstart htype hrest hc').pointsInto hread)
  | case4 => exact .error (ReadError.pointsInto_of_rest?_eq_none rfl trivial)
  | case5 done c f d hread hnew hend hclose ih =>
    obtain ⟨first, tail, hrest⟩ := List.exists_cons_of_ne_nil hend
    have hd := (endsIn_field hstart htype hrest hc').suffix hread
    exact ih hd (suffix_skipBlank hd)

theorem locates_array (htype : Locates text type.run) : Locates text (array type) :=
  (locates_expect '<').bind fun _ => htype.bind fun _ => (locates_expect '>').bind fun _ =>
    locates_pure _

theorem endsIn_atom (htype : Locates text type.run) (hrest : c.rest = first :: tail)
    (hc : c.rest <:+ text) : EndsIn text (atom type first c) := by
  unfold atom
  split
  · next hquote =>
    have hquoted : EndsIn text (lexeme Lexeme.quoted c) :=
      endsIn_lexeme Lexeme.quoted_eq_ok_iff Lexeme.severable_quotedText
        (fun _ => Lexeme.pointsInto_of_quoted hquote) hrest hc
    exact hquoted.bind fun _ => locates_pure _
  · split
    · next hdigit =>
      have hnumber : EndsIn text (lexeme Lexeme.number c) :=
        endsIn_lexeme Lexeme.number_eq_ok_iff Lexeme.severable_numeral
          (fun _ => Lexeme.pointsInto_of_number hdigit) hrest hc
      exact hnumber.bind fun _ => locates_pure _
    · split
      · next hfirst =>
        have hword : EndsIn text (lexeme Lexeme.word c) :=
          endsIn_lexeme Lexeme.run_eq_ok_iff (fun _ => Lexeme.severable_longest _ _)
            (fun _ h => absurd h (Lexeme.run_ne_error hfirst)) hrest hc
        refine hword.bind fun name => ?_
        split
        · exact locates_array htype
        · exact locates_pure _
      · rw [get_bind]
        exact .error (ReadError.pointsInto_ofList rfl hc (by simp [ReadError.Finds, hrest]))

theorem locates_leaf (htype : Locates text type.run) : Locates text (leaf type) := by
  intro c hc
  have hc' := suffix_skipBlank hc
  unfold leaf
  dsimp only
  split
  · exact .error (ReadError.pointsInto_of_rest?_eq_none rfl trivial)
  · next rest hrest =>
    have hstart : (ReadError.unclosedObject (.ofList c.skipBlank.rest)).PointsInto text := by
      refine ReadError.pointsInto_ofList rfl hc' ?_
      rw [ReadError.Finds, String.toList_ofList, hrest, List.head?_cons]
    have hinner : rest <:+ text := (List.suffix_cons _ rest).trans (hrest ▸ hc')
    have hfields : EndsIn text (fields _ type [] ⟨rest, c.skipBlank.depth⟩) :=
      endsIn_fields hstart htype hinner
    split
    · next hread => exact .ok (hfields.suffix hread)
    · next hread => exact .error (hfields.pointsInto hread)
  · next hrest => exact endsIn_atom htype hrest hc'

variable {inner : Step TypeExpr} {opened : Nat} {done : List Term}

theorem locates_term (hleaf : Locates text inner.run) : Locates text (term inner opened done) := by
  intro c hc
  have hc' := suffix_skipBlank hc
  have hinner {first rest} (hrest : c.skipBlank.rest = first :: rest) : rest <:+ text :=
    (List.suffix_cons first rest).trans (hrest ▸ hc')
  unfold term
  dsimp only
  split
  · exact .ok hc'
  · next hrest =>
    split
    · exact .ok (hinner hrest)
    · exact .error (ReadError.pointsInto_of_rest?_eq_none rfl trivial)
  · next hrest => exact .ok (hinner hrest)
  · next hrest => exact .ok (hinner hrest)
  · next hrest => exact .ok (hinner hrest)
  · split
    · exact .ok hc'
    · split
      · next hread => exact .error ((hleaf _ hc').pointsInto hread)
      · next hread => exact .ok ((hleaf _ hc').suffix hread)

theorem locates_terms (hleaf : Locates text inner.run) :
    Locates text (terms inner opened done) := by
  intro c hc
  fun_induction terms inner opened done c with
  | case1 _ _ _ _ _ hread => exact .error ((locates_term hleaf _ hc).pointsInto hread)
  | case2 _ _ _ _ hread =>
    have hd := (locates_term hleaf _ hc).suffix hread
    exact .ok hd
  | case3 _ _ _ _ _ hread ih => exact ih ((locates_term hleaf _ hc).suffix hread)

theorem locates_expression (hleaf : Locates text inner.run) : Locates text (expression inner) := by
  intro c hc
  have hterms : EndsIn text (terms inner 0 [] { c with depth := c.depth + 1 }) :=
    locates_terms hleaf _ hc
  unfold expression
  split
  · split
    · next hread => exact .error (hterms.pointsInto hread)
    · exact .error (ReadError.pointsInto_of_rest?_eq_none rfl trivial)
    · next hread =>
      have hd := hterms.suffix hread
      split
      · next hresolve => exact .error (Term.ofTerms_of_resolve hresolve).pointsInto
      · exact .ok hd
  · exact .error (ReadError.pointsInto_of_rest?_eq_none rfl trivial)

theorem locates_typeWithin (n : Nat) : Locates text (typeWithin n).run := by
  induction n with
  | zero => exact fun _ _ => .error (ReadError.pointsInto_of_rest?_eq_none rfl trivial)
  | succ n ih => exact locates_expression (locates_leaf ih)

/-- An error in the first term is the error of the expression. -/
theorem expression_of_term_error (hdepth : c.depth < maxDepth)
    (h : term inner 0 [] { c with depth := c.depth + 1 } = .error e d) :
    expression inner c = .error e d := by
  have hterms : terms inner 0 [] { c with depth := c.depth + 1 } = .error e d := by
    rw [terms]
    split
    · next hread =>
      cases h.symm.trans hread
      rfl
    · next hread => cases h.symm.trans hread
    · next hread => cases h.symm.trans hread
  rw [expression, if_pos hdepth, hterms]

end Reading

namespace TypeExpr

variable {t n : TypeExpr} {text rest : String} {e : ReadError}

theorem pointsInto_of_parse (h : parse text = .error e) : e.PointsInto text.toList := by
  unfold parse at h
  split at h <;> cases h
  next hread =>
    exact (Reading.locates_typeWithin maxDepth _ (List.suffix_refl _)).pointsInto hread

theorem suffix_of_parse (h : parse text = .ok (t, rest)) : rest.toList <:+ text.toList := by
  unfold parse at h
  split at h <;> cases h
  next hread =>
    rw [Cursor.remaining, String.toList_ofList]
    have := (Reading.locates_typeWithin maxDepth _ (List.suffix_refl _)).suffix hread
    exact (List.dropWhile_suffix _).trans this

/-- Every error of compiling carries an end of the text, if it carries any, and that begins as the
kind of the error says. -/
theorem pointsInto_of_compile (h : compile text = .error e) : e.PointsInto text.toList := by
  rcases compile_eq_error h with h | ⟨t, rest, hparse, ⟨hrest, rfl⟩ | ⟨rfl, h⟩⟩
  · exact pointsInto_of_parse h
  · refine ⟨fun s hs => ?_, hrest⟩
    cases hs
    exact suffix_of_parse hparse
  · have hlevels : t.levels 1 ≤ maxLevels :=
      (levels_le_maxDepth_of_parse hparse).trans (by decide)
    cases eq_tooManyAlternatives_of_normalize hlevels h
    exact ReadError.pointsInto_of_rest?_eq_none rfl trivial

/-- Below, the backslash escapes the second quote, so that none is left that closes the first. -/
theorem pointsInto_of_compile_unclosed :
    compile "\"b\\\"" = .error (.unclosedText '"' "\"b\\\"") ∧
      (ReadError.unclosedText '"' "\"b\\\"").PointsInto "\"b\\\"".toList := by
  have hfail : compile "\"b\\\"" = .error (.unclosedText '"' "\"b\\\"") := by
    have hread : Reading.type (.start "\"b\\\"") =
        .error (.unclosedText '"' "\"b\\\"") ⟨"\"b\\\"".toList, 1⟩ := by
      refine Reading.expression_of_term_error (c := .start _) ?_ ?_
      · decide
      · rfl
    rw [compile, parse, hread]
    rfl
  exact ⟨hfail, pointsInto_of_compile hfail⟩

end TypeExpr
end StructuralTypes
