import StructuralTypes.Cache
import StructuralTypes.Proofs.Recompile

namespace StructuralTypes.Cache

open TypeExpr (compile)

inductive Fetches (c : Cache) (text : String) : Prop
  | kept (compiled : Compiled) (hkept : c.entries.lookup text = some compiled)
    (h : c.fetch text = (.ok compiled, c))
  | added (t : TypeExpr) (hnew : c.entries.lookup text = none) (ht : compile text = .ok t)
    (h : c.fetch text = (.ok ⟨c.next, t⟩, (c.insert text t).2))
  | refused (e : ReadError) (hnew : c.entries.lookup text = none) (he : compile text = .error e)
    (h : c.fetch text = (.error e, c))

theorem fetches (c : Cache) (text : String) : Fetches c text := by
  cases hlookup : c.entries.lookup text with
  | some compiled => exact .kept compiled hlookup (by simp [fetch, hlookup])
  | none =>
    cases hcompile : compile text with
    | ok t => exact .added t hlookup hcompile (by simp [fetch, hlookup, hcompile, insert])
    | error e => exact .refused e hlookup hcompile (by simp [fetch, hlookup, hcompile])

theorem mem_entries_of_lookup {c : Cache} {text : String} {compiled : Compiled}
    (h : c.entries.lookup text = some compiled) : (text, compiled) ∈ c.entries := by
  obtain ⟨before, after, hentries, -⟩ := List.lookup_eq_some_iff.1 h
  simp [hentries]

inductive Call
  | fetch (text : String)
  | check (o : Options) (text : String) (v : Value)
  | clear

def Call.text? : Call → Option String
  | .fetch text => some text
  | .check _ text _ => some text
  | .clear => none

/-- What a call answers; types are handed out as `α`. -/
inductive Answer (α : Type)
  | fetched (result : Except ReadError α)
  | checked (result : Except CheckError Unit)
  | cleared

def Answer.map {α β : Type} (f : α → β) : Answer α → Answer β
  | .fetched result => .fetched (result.map f)
  | .checked result => .checked result
  | .cleared => .cleared

/-- What the call answers if every text is compiled when it is needed. -/
def Call.uncached : Call → Answer TypeExpr
  | .fetch text => .fetched (compile text)
  | .check o text v => .checked (checkText o text v)
  | .clear => .cleared

def step (c : Cache) : Call → Answer Compiled × Cache
  | .fetch text =>
    let (result, c) := c.fetch text
    (.fetched result, c)
  | .check o text v =>
    let (result, c) := c.check o text v
    (.checked result, c)
  | .clear => (.cleared, c.clear)

def run (c : Cache) : List Call → List (Answer Compiled) × Cache
  | [] => ([], c)
  | call :: calls =>
    let (answer, c) := c.step call
    let (answers, c) := c.run calls
    (answer :: answers, c)

variable {c : Cache} {text : String} {call : Call} {calls : List Call}

theorem check_eq (o : Options) (v : Value) : c.check o text v =
    ((c.fetch text).1.mapError .read >>= fun compiled =>
      (compiled.type.check o v).mapError .mismatch, (c.fetch text).2) := by
  unfold check
  split
  · next h =>
    rw [h]
    rfl
  · next h =>
    rw [h]
    rfl

/-- Calls change the cache only by the text that they fetch. -/
theorem step_cache : (c.step call).2 = match call.text? with
    | some text => (c.fetch text).2
    | none => c.clear := by
  cases call with
  | fetch text => rfl
  | check o text v => exact congrArg Prod.snd (check_eq o v)
  | clear => rfl

/-- A property of caches that is kept when a type is added and when all types are forgotten. -/
structure Lasting (p : Cache → Prop) : Prop where
  insert : ∀ {c text t}, compile text = .ok t → p c → p (c.insert text t).2
  clear : ∀ {c}, p c → p c.clear

section

variable {p : Cache → Prop}

theorem Lasting.fetch (hp : Lasting p) (hc : p c) : p (c.fetch text).2 := by
  cases fetches c text with
  | kept compiled hkept h => rwa [h]
  | added t hnew ht h =>
    rw [h]
    exact hp.insert ht hc
  | refused e hnew he h => rwa [h]

theorem Lasting.step (hp : Lasting p) (hc : p c) : p (c.step call).2 := by
  rw [step_cache]
  cases call.text? with
  | none => exact hp.clear hc
  | some text => exact hp.fetch hc

theorem Lasting.run (hp : Lasting p) (hc : p c) : p (c.run calls).2 := by
  induction calls generalizing c with
  | nil => exact hc
  | cons call calls ih => exact ih (hp.step hc)

end

/-- Every type in the cache is what its text is compiled to. -/
def Faithful (c : Cache) : Prop :=
  ∀ e ∈ c.entries, compile e.1 = .ok e.2.type

theorem faithful_empty (limit : Option Nat) : (empty limit).Faithful := by
  simp [Faithful, empty]

theorem lasting_faithful : Lasting Faithful := by
  refine ⟨fun {c text t} h hc => ?_, fun _ => by simp [Faithful, clear]⟩
  have hkept : ∀ e ∈ if c.isFull then [] else c.entries, compile e.1 = .ok e.2.type := by
    split
    · simp
    · exact hc
  exact List.forall_mem_cons.2 ⟨h, hkept⟩

theorem Faithful.map_fetch (hc : c.Faithful) :
    (c.fetch text).1.map Compiled.type = compile text := by
  cases fetches c text with
  | kept compiled hkept h =>
    rw [h, hc _ (mem_entries_of_lookup hkept)]
    rfl
  | added t hnew ht h =>
    rw [h, ht]
    rfl
  | refused e hnew he h =>
    rw [h, he]
    rfl

theorem Faithful.check_eq (hc : c.Faithful) (o : Options) (v : Value) :
    (c.check o text v).1 = checkText o text v := by
  rw [Cache.check_eq, checkText, ← hc.map_fetch]
  cases (c.fetch text).1 <;> rfl

theorem Faithful.map_step (hc : c.Faithful) :
    (c.step call).1.map Compiled.type = call.uncached := by
  cases call with
  | fetch text => exact congrArg Answer.fetched hc.map_fetch
  | check o text v => exact congrArg Answer.checked (hc.check_eq o v)
  | clear => rfl

theorem Faithful.map_run (hc : c.Faithful) :
    (c.run calls).1.map (Answer.map Compiled.type) = calls.map Call.uncached := by
  induction calls generalizing c with
  | nil => rfl
  | cons call calls ih =>
    change (c.step call).1.map _ :: ((c.step call).2.run calls).1.map _ = _
    rw [hc.map_step, ih (lasting_faithful.step hc), List.map_cons]

/-- In every run on a new cache, with a limit or without, each call answers as if there were no
cache. -/
theorem run_empty_answers (limit : Option Nat) (calls : List Call) :
    ((empty limit).run calls).1.map (Answer.map Compiled.type) = calls.map Call.uncached :=
  (faithful_empty limit).map_run

theorem size_insert {t : TypeExpr} :
    (c.insert text t).2.size = if c.isFull then 1 else c.size + 1 := by
  simp only [insert, size, List.length_cons]
  split <;> rfl

def Bounded (n : Nat) (c : Cache) : Prop :=
  c.limit = some n ∧ c.size ≤ max n 1

theorem bounded_empty (n : Nat) : (empty (some n)).Bounded n :=
  ⟨rfl, Nat.zero_le _⟩

theorem lasting_bounded (n : Nat) : Lasting (Bounded n) := by
  refine ⟨fun {c text t} _ hc => ⟨hc.1, ?_⟩, fun hc => ⟨hc.1, Nat.zero_le _⟩⟩
  rw [size_insert]
  split
  · exact Nat.le_max_right n 1
  · next hfull =>
    have hroom : c.size < n := by simpa [isFull, hc.1] using hfull
    omega

def Call.Compiles (call : Call) : Prop :=
  ∃ text t, call.text? = some text ∧ compile text = .ok t

theorem Call.Compiles.clear_ne (h : call.Compiles) : .clear ≠ call := by
  obtain ⟨text, t, htext, -⟩ := h
  rintro rfl
  cases htext

/-- After the last time that the cache was cleared, some call was about a text that spells a
type. -/
def Filled (calls : List Call) : Prop :=
  ∃ since, since <:+ calls ∧ Call.clear ∉ since ∧ ∃ call ∈ since, call.Compiles

theorem filled_cons : Filled (call :: calls) ↔
    Filled calls ∨ call.Compiles ∧ Call.clear ∉ calls := by
  constructor
  · rintro ⟨since, hsince, hclear, hcompiles⟩
    rcases List.suffix_cons_iff.1 hsince with rfl | hsince
    · have hlater : Call.clear ∉ calls := fun h => hclear (List.mem_cons_of_mem _ h)
      rw [List.exists_mem_cons_iff] at hcompiles
      rcases hcompiles with hcall | hcalls
      · exact .inr ⟨hcall, hlater⟩
      · exact .inl ⟨calls, List.suffix_refl _, hlater, hcalls⟩
    · exact .inl ⟨since, hsince, hclear, hcompiles⟩
  · rintro (⟨since, hsince, h⟩ | ⟨hcompiles, hclear⟩)
    · exact ⟨since, hsince.trans (List.suffix_cons _ _), h⟩
    · have hsince : Call.clear ∉ call :: calls :=
        List.not_mem_cons_of_ne_of_not_mem hcompiles.clear_ne hclear
      exact ⟨_, List.suffix_refl _, hsince, call, List.mem_cons_self, hcompiles⟩

theorem size_fetch_pos :
    0 < (c.fetch text).2.size ↔ (∃ t, compile text = .ok t) ∨ 0 < c.size := by
  cases fetches c text with
  | kept compiled hkept h =>
    have hpos : 0 < c.size := List.length_pos_of_mem (mem_entries_of_lookup hkept)
    simp [h, hpos]
  | added t hnew ht h => simp [h, ht, insert, size]
  | refused e hnew he h => simp [h, he]

theorem size_step_pos :
    0 < (c.step call).2.size ↔ call.Compiles ∨ call ≠ .clear ∧ 0 < c.size := by
  rw [step_cache]
  cases call with
  | fetch text => simp [Call.Compiles, Call.text?, size_fetch_pos]
  | check o text v => simp [Call.Compiles, Call.text?, size_fetch_pos]
  | clear => simp [Call.Compiles, Call.text?, clear, size]

theorem size_run_pos :
    0 < (c.run calls).2.size ↔ Filled calls ∨ Call.clear ∉ calls ∧ 0 < c.size := by
  induction calls generalizing c with
  | nil => simp [run, Filled]
  | cons call calls ih =>
    change 0 < ((c.step call).2.run calls).2.size ↔ _
    rw [ih, size_step_pos, filled_cons, List.mem_cons, not_or, ne_comm]
    tauto

/-- A new cache with the limit `n` keeps at most `n` types, but the limit zero is exceeded by the
first type, which is kept until the cache is cleared or another one takes its place. -/
theorem size_run_empty (n : Nat) (calls : List Call) :
    ((empty (some n)).run calls).2.size ≤ max n 1 ∧
      (n < ((empty (some n)).run calls).2.size ↔ n = 0 ∧ Filled calls) := by
  have hbounded : ((empty (some n)).run calls).2.Bounded n :=
    (lasting_bounded n).run (bounded_empty n)
  have hfilled : 0 < ((empty (some n)).run calls).2.size ↔ Filled calls := by
    rw [size_run_pos]
    simp [empty, size]
  refine ⟨hbounded.2, ?_⟩
  rw [← hfilled]
  have := hbounded.2
  omega

/-- A cache with the limit zero keeps the first type that it compiles. -/
theorem size_run_limit_zero : ¬ ((empty (some 0)).run [.fetch "string"]).2.size ≤ 0 := by
  have hparse : TypeExpr.parse "string" = .ok (.leaf .string, "") :=
    TypeExpr.parse_text (t := .leaf .string) (by simp [TypeExpr.Printable, Leaf.Printable])
      (by decide) .compact
  have hcompile : compile "string" = .ok (.leaf .string) := TypeExpr.compile_of_parse hparse
  have hfilled : Filled [.fetch "string"] :=
    ⟨_, List.suffix_refl _, by simp, _, List.mem_cons_self, "string", _, rfl, hcompile⟩
  exact Nat.not_le.2 (size_run_pos.2 (.inl hfilled))

end StructuralTypes.Cache
