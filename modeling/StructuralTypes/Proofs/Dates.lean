import StructuralTypes.Check.Verdict
import StructuralTypes.Proofs.JsonInteger

namespace StructuralTypes

namespace Json

/-- Induction in which an array is proved from its items and an object from its members. -/
@[elab_as_elim, induction_eliminator]
theorem induct {motive : Json → Prop} (null : motive .null) (boolean : ∀ b, motive (.boolean b))
    (number : ∀ n, motive (.number n)) (string : ∀ s, motive (.string s))
    (array : ∀ items, (∀ j ∈ items, motive j) → motive (.array items))
    (object : ∀ members, (∀ m ∈ members, motive m.2) → motive (.object members)) (j : Json) :
    motive j := by
  apply Json.rec (motive_1 := motive) (motive_2 := fun items => ∀ j ∈ items, motive j)
    (motive_3 := fun members => ∀ m ∈ members, motive m.2) (motive_4 := fun m => motive m.2)
    null boolean number string array object
  · simp
  · exact fun _ _ hj hjs => List.forall_mem_cons.2 ⟨hj, hjs⟩
  · simp
  · exact fun _ _ hm hms => List.forall_mem_cons.2 ⟨hm, hms⟩
  · exact fun _ _ hj => hj

inductive Part : Json → Json → Prop
  | self {j} : Part j j
  | item {u j items} (hj : j ∈ items) (h : Part u j) : Part u (.array items)
  | member {u m members} (hm : m ∈ members) (h : Part u m.2) : Part u (.object members)

/-- The way from an array to one of its items, or from an object to what it has under a name. -/
inductive Step
  | item (index : Nat)
  | member (name : String)

def get? : Json → List Step → Option Json
  | j, [] => some j
  | .array items, .item index :: steps => items[index]?.bind (·.get? steps)
  | .object members, .member name :: steps => (members.lookup name).bind (·.get? steps)
  | _, _ :: _ => none

end Json

namespace Value

def get? : Value → List Json.Step → Option Value
  | v, [] => some v
  | .array items, .item index :: steps => items[index]?.bind (·.get? steps)
  | .object entries, .member name :: steps => (entries.lookup name).bind (·.get? steps)
  | _, _ :: _ => none

mutual

/-- The value with `f s` in place of every string `s` that stands in it, at any depth. -/
def mapStrings (f : String → Value) : Value → Value
  | .string s => f s
  | .array items => .array (mapStringsItems f items)
  | .object entries => .object (mapStringsEntries f entries)
  | other => other

def mapStringsItems (f : String → Value) : List Value → List Value
  | [] => []
  | v :: vs => mapStrings f v :: mapStringsItems f vs

def mapStringsEntries (f : String → Value) : List (String × Value) → List (String × Value)
  | [] => []
  | (name, v) :: es => (name, mapStrings f v) :: mapStringsEntries f es

end

section

variable {instant? : String → Option Instant} {f : String → Value} {dates : Bool} {j : Json}
  {items : List Json} {members : List (String × Json)} {vs : List Value}
  {es : List (String × Value)} {m : Json.Number} {n : Int} {s : String} {steps : List Json.Step}

theorem mapStrings_array : (array vs).mapStrings f = .array (vs.map (mapStrings f)) := by
  have hmap : mapStringsItems f vs = vs.map (mapStrings f) := by
    induction vs with
    | nil => rfl
    | cons v vs ih => rw [mapStringsItems, ih, List.map_cons]
  rw [mapStrings, hmap]

theorem mapStrings_object :
    (object es).mapStrings f = .object (es.map fun e => (e.1, e.2.mapStrings f)) := by
  have hmap : mapStringsEntries f es = es.map fun e => (e.1, e.2.mapStrings f) := by
    induction es with
    | nil => rfl
    | cons e es ih => rw [mapStringsEntries, ih, List.map_cons]
  rw [mapStrings, hmap]

@[simp]
theorem ofJson_false : ofJson instant? false j = undated j := by
  cases j <;> rfl

/-- With dates and without, an array is converted item by item. -/
theorem ofJson_array :
    ofJson instant? dates (.array items) = .array (items.map (ofJson instant? dates)) := by
  cases dates with
  | false =>
    have hmap : undatedItems items = items.map (ofJson instant? false) := by
      induction items with
      | nil => rfl
      | cons j items ih => rw [undatedItems, ih, List.map_cons, ofJson_false]
    rw [ofJson_false, undated, hmap]
  | true =>
    have hmap : ofItems instant? true items = items.map (ofJson instant? true) := by
      induction items with
      | nil => rfl
      | cons j items ih => rw [ofItems, ih, List.map_cons]
    rw [ofJson, hmap]
    rfl

/-- With dates and without, an object is converted member by member, and names are kept. -/
theorem ofJson_object :
    ofJson instant? dates (.object members) =
      .object (members.map fun m => (m.1, ofJson instant? dates m.2)) := by
  cases dates with
  | false =>
    have hmap : undatedMembers members = members.map fun m => (m.1, ofJson instant? false m.2) := by
      induction members with
      | nil => rfl
      | cons m members ih => rw [undatedMembers, ih, List.map_cons, ofJson_false]
    rw [ofJson_false, undated, hmap]
  | true =>
    have hmap : ofMembers instant? true members =
        members.map fun m => (m.1, ofJson instant? true m.2) := by
      induction members with
      | nil => rfl
      | cons m members ih => rw [ofMembers, ih, List.map_cons]
    rw [ofJson, hmap]
    rfl

theorem ofJson_number : ofJson instant? dates (.number m) = ofNumber m := by
  cases dates <;> rfl

theorem ofJson_string_true :
    ofJson instant? true (.string s) = (instant? s).elim (.string s) .date := by
  rw [ofJson]
  cases instant? s <;> rfl

/-- There is nothing inside the value of a number. -/
theorem ofNumber_cases (m : Json.Number) :
    (∃ n, ofNumber m = .integer n) ∨ ∃ x, ofNumber m = .float x := by
  cases hn : m.int? with
  | some n => exact .inl ⟨n, ofNumber_of_int? hn⟩
  | none =>
    cases m with
    | float x => exact .inr ⟨x, rfl⟩
    | _ => cases hn

theorem mapStrings_ofNumber : (ofNumber m).mapStrings f = ofNumber m := by
  rcases ofNumber_cases m with ⟨n, hm⟩ | ⟨x, hm⟩ <;> rw [hm] <;> rfl

theorem get?_ofNumber_cons {step : Json.Step} : (ofNumber m).get? (step :: steps) = none := by
  rcases ofNumber_cases m with ⟨n, hm⟩ | ⟨x, hm⟩ <;> rw [hm] <;> cases step <;> rfl

theorem lookup_map {α β : Type} {g : α → β} {entries : List (String × α)} {name : String} :
    (entries.map fun e => (e.1, g e.2)).lookup name = (entries.lookup name).map g := by
  induction entries with
  | nil => rfl
  | cons e entries ih =>
    rw [List.map_cons, List.lookup_cons, List.lookup_cons, ih]
    cases name == e.1 <;> rfl

/-- With dates and without, a document and its value have the same places. -/
theorem get?_ofJson :
    (ofJson instant? dates j).get? steps = (j.get? steps).map (ofJson instant? dates) := by
  induction steps generalizing j with
  | nil => rw [get?, Json.get?, Option.map_some]
  | cons step steps ih =>
    cases j with
    | number m =>
      rw [ofJson_number, get?_ofNumber_cons]
      cases step <;> rfl
    | array items =>
      rw [ofJson_array]
      cases step with
      | item index =>
        rw [get?, Json.get?, List.getElem?_map]
        cases items[index]? with
        | none => rfl
        | some j => exact ih
      | member => rfl
    | object members =>
      rw [ofJson_object]
      cases step with
      | item => rfl
      | member name =>
        rw [get?, Json.get?, lookup_map]
        cases members.lookup name with
        | none => rfl
        | some j => exact ih
    | string s =>
      cases dates with
      | false => cases step <;> rfl
      | true =>
        rw [ofJson_string_true]
        cases instant? s <;> cases step <;> rfl
    | _ => cases dates <;> cases step <;> rfl

/-- A string is looked at on its own, whatever is around it. -/
theorem ofJson_true_eq (j : Json) : ofJson instant? true j =
    (ofJson instant? false j).mapStrings fun s => (instant? s).elim (.string s) .date := by
  induction j with
  | null => rfl
  | boolean b => rfl
  | number m => rw [ofJson_number, ofJson_number, mapStrings_ofNumber]
  | string s => rw [ofJson_string_true, ofJson_false, undated, mapStrings]
  | array items ih =>
    rw [ofJson_array, ofJson_array, mapStrings_array, List.map_map]
    exact congrArg array (List.map_congr_left ih)
  | object members ih =>
    rw [ofJson_object, ofJson_object, mapStrings_object, List.map_map]
    refine congrArg object (List.map_congr_left fun m hm => ?_)
    exact congrArg (Prod.mk m.1) (ih m hm)

/-- A replacement that leaves the strings of a document as they are leaves its value as it is. -/
theorem mapStrings_ofJson_false (h : ∀ s, (Json.string s).Part j → f s = .string s) :
    (ofJson instant? false j).mapStrings f = ofJson instant? false j := by
  induction j with
  | null => rfl
  | boolean b => rfl
  | number m => rw [ofJson_number, mapStrings_ofNumber]
  | string s =>
    rw [ofJson_false, undated, mapStrings]
    exact h s .self
  | array items ih =>
    rw [ofJson_array, mapStrings_array, List.map_map]
    refine congrArg array (List.map_congr_left fun j hj => ?_)
    exact ih j hj fun s hs => h s (.item hj hs)
  | object members ih =>
    rw [ofJson_object, mapStrings_object, List.map_map]
    refine congrArg object (List.map_congr_left fun m hm => ?_)
    exact congrArg (Prod.mk m.1) (ih m hm fun s hs => h s (.member hm hs))

/-- With dates, the value of a document is its value without them, but for the instants in place of
the strings that are timestamps. A document that has no such string in it has one value, and every
type says the same of it with dates and without. An integer of a document, on either way, is the
same integer in its value, at the same place; and if a reader of JSON reads every integer of 64
bits from its text as itself, as `Json.ofText?` does, so do both ways from the text. -/
theorem ofJson_dates (instant? : String → Option Instant) (j : Json) :
    ofJson instant? true j = (ofJson instant? false j).mapStrings
      (fun s => (instant? s).elim (.string s) .date) ∧
    ((∀ s, (Json.string s).Part j → instant? s = none) →
      ofJson instant? true j = ofJson instant? false j ∧ ∀ (o : Options) (t : TypeExpr),
        t.check o (ofJson instant? true j) = t.check o (ofJson instant? false j)) ∧
    (∀ dates steps m n, j.get? steps = some (.number m) → m.int? = some n →
      (ofJson instant? dates j).get? steps = some (.integer n)) ∧
    (∀ read, Json.ReadsIntegers read → ∀ (dates : Bool) (n : Int), -2 ^ 63 ≤ n → n < 2 ^ 64 →
      (read (toString n)).map (ofJson instant? dates) = some (.integer n)) ∧
    Json.ReadsIntegers Json.ofText? := by
  refine ⟨ofJson_true_eq j, fun h => ?_, fun dates steps m n hm hn => ?_,
    fun read hread dates n hlow hhigh => ?_, Json.readsIntegers_ofText?⟩
  · have hsame : ofJson instant? true j = ofJson instant? false j := by
      rw [ofJson_true_eq]
      refine mapStrings_ofJson_false fun s hs => ?_
      rw [h s hs, Option.elim_none]
    exact ⟨hsame, fun o t => by rw [hsame]⟩
  · rw [get?_ofJson, hm, Option.map_some, ofJson_number, ofNumber_of_int? hn]
  · obtain ⟨m, hm, htext⟩ := hread n hlow hhigh
    rw [htext, Option.map_some, ofJson_number, ofNumber_of_int? hm]

/-- Below, a timestamp two levels down is a date, and one that names a member is nothing special. -/
theorem ofJson_dates_nested :
    let convert := ofJson Instant.ofText?
    let stamp := "2024-05-01T12:00:00+02:00"
    let items := [.string stamp, .string "soon", .number (.natural 18446744073709551615)]
    let j := Json.object [("at", .array items)]
    let k := Json.object [(stamp, .array items.tail)]
    convert true j = .object [("at", .array [.date ⟨1714557600, 0⟩, .string "soon",
      .integer 18446744073709551615])] ∧
    ((∀ s, (Json.string s).Part k → Instant.ofText? s = none) ∧ convert true k = convert false k) ∧
    (convert true j).get? [.member "at", .item 2] = some (.integer 18446744073709551615) ∧
    (Json.ofText? "-9223372036854775808").map (convert true) =
      some (.integer (-9223372036854775808)) := by
  intro convert stamp items j k
  have hstamp : Instant.ofText? stamp = some ⟨1714557600, 0⟩ := by decide
  have hsoon : Instant.ofText? "soon" = none := by decide
  have htext : toString (-9223372036854775808 : Int) = "-9223372036854775808" := rfl
  have hplain : ofJson Instant.ofText? false j = .object [("at", .array [.string stamp,
      .string "soon", .integer 18446744073709551615])] := rfl
  have hk : ∀ s, (Json.string s).Part k → Instant.ofText? s = none := by
    intro s hs
    simp only [k, items, List.tail_cons] at hs
    cases hs with
    | member hm hs =>
      obtain rfl := List.mem_singleton.1 hm
      cases hs with
      | item hitem hs =>
        rcases List.mem_pair.1 hitem with rfl | rfl
        · cases hs
          exact hsoon
        · cases hs
  obtain ⟨hdates, -, hplace, hreads, htexts⟩ := ofJson_dates Instant.ofText? j
  refine ⟨?_, ⟨hk, ((ofJson_dates Instant.ofText? k).2.1 hk).1⟩, ?_, ?_⟩
  · refine hdates.trans ?_
    rw [hplain]
    simp only [mapStrings, mapStringsEntries, mapStringsItems, hstamp, hsoon, Option.elim]
  · exact hplace true _ (.natural 18446744073709551615) _ rfl rfl
  · rw [← htext]
    exact hreads _ htexts true _ (by decide) (by decide)

end

end Value

end StructuralTypes
