import StructuralTypes.Proofs.Caching

namespace StructuralTypes.Cache

open TypeExpr (compile)

def Has (c : Cache) (text : String) : Prop :=
  text ∈ c.entries.map Prod.fst

/-- The call takes every type out of the cache: it clears the cache, or it is about a text that
spells a type, the cache does not have this type, and it has as many as its limit allows. -/
def Forgets (c : Cache) (call : Call) : Prop :=
  call = .clear ∨ ∃ text t n, call.text? = some text ∧ compile text = .ok t ∧ ¬ c.Has text ∧
    c.limit = some n ∧ n ≤ c.size

/-- The cache as the call at a position of a run finds it. -/
def found (c : Cache) (calls : List Call) (i : Nat) : Cache :=
  (c.run (calls.take i)).2

/-- The call at the position `i` of a run fetches the type of the text and is handed `k`. -/
def HandsOut (c : Cache) (calls : List Call) (i : Nat) (text : String) (k : Compiled) : Prop :=
  calls[i]? = some (.fetch text) ∧ (c.run calls).1[i]? = some (.fetched (.ok k))

variable {c : Cache} {text other : String} {call : Call} {calls : List Call} {i j : Nat}
  {k : Compiled} {t : TypeExpr} {number : Nat} {p : String → Prop}

theorem found_cons_succ : c.found (call :: calls) (i + 1) = (c.step call).2.found calls i := rfl

theorem found_succ (h : calls[i]? = some call) :
    c.found calls (i + 1) = ((c.found calls i).step call).2 := by
  induction calls generalizing c i with
  | nil => simp at h
  | cons first calls ih =>
    cases i with
    | zero =>
      obtain rfl : first = call := by simpa using h
      rfl
    | succ i =>
      rw [found_cons_succ, found_cons_succ]
      exact ih (by simpa using h)

theorem found_succ_of_none (h : calls[i]? = none) : c.found calls (i + 1) = c.found calls i := by
  have hi : calls.length ≤ i := List.getElem?_eq_none_iff.1 h
  rw [found, found, List.take_of_length_le hi, List.take_of_length_le (by omega)]

theorem getElem?_run :
    (c.run calls).1[i]? = calls[i]?.map fun call => ((c.found calls i).step call).1 := by
  induction calls generalizing c i with
  | nil => simp [run]
  | cons first calls ih =>
    cases i with
    | zero => rfl
    | succ i =>
      change ((c.step first).2.run calls).1[i]? = _
      rw [ih, List.getElem?_cons_succ]
      rfl

theorem HandsOut.fetch_eq (h : c.HandsOut calls i text k) :
    ((c.found calls i).fetch text).1 = .ok k := by
  have hanswer := h.2
  rw [getElem?_run, h.1] at hanswer
  simpa [step] using hanswer

theorem Lasting.found {p : Cache → Prop} (hp : Lasting p) (h : p (c.found calls i)) (hij : i ≤ j) :
    p (c.found calls j) := by
  induction j, hij using Nat.le_induction with
  | base => exact h
  | succ j hij ih =>
    cases hcall : calls[j]? with
    | none => rwa [found_succ_of_none hcall]
    | some call =>
      rw [found_succ hcall]
      exact hp.step ih

theorem has_iff : c.Has text ↔ ∃ k, c.entries.lookup text = some k := by
  rw [← Option.isSome_iff_exists, lookup_isSome_iff, Has]

theorem not_has_iff : ¬ c.Has text ↔ c.entries.lookup text = none := by
  rw [Has, ← lookup_isSome_iff, Option.not_isSome_iff_eq_none]

theorem isFull_iff : c.isFull ↔ ∃ n, c.limit = some n ∧ n ≤ c.size := by
  unfold isFull
  cases c.limit <;> simp

theorem lookup_insert_self : (c.insert text t).2.entries.lookup text = some ⟨c.next, t⟩ := by
  simp [insert]

theorem lookup_insert_of_ne (h : other ≠ text) : (c.insert text t).2.entries.lookup other =
    if c.isFull then none else c.entries.lookup other := by
  have hne : (other == text) = false := by simpa using h
  simp only [insert, List.lookup_cons, hne]
  split <;> rfl

/-- What is in the cache after a type is added is this type, or was there before. -/
theorem lookup_insert_cases (h : (c.insert text t).2.entries.lookup other = some k) :
    other = text ∧ k = ⟨c.next, t⟩ ∨
      other ≠ text ∧ c.isFull = false ∧ c.entries.lookup other = some k := by
  by_cases hother : other = text
  · rw [hother, lookup_insert_self] at h
    exact .inl ⟨hother, (Option.some.inj h).symm⟩
  · rw [lookup_insert_of_ne hother] at h
    split at h
    · cases h
    · next hroom => exact .inr ⟨hother, Bool.not_eq_true _ ▸ hroom, h⟩

theorem fetch_eq_of_lookup (h : c.entries.lookup text = some k) : c.fetch text = (.ok k, c) := by
  simp [fetch, h]

theorem fetch_eq_of_compile (hnew : c.entries.lookup text = none) (ht : compile text = .ok t) :
    c.fetch text = (.ok ⟨c.next, t⟩, (c.insert text t).2) := by
  simp [fetch, hnew, ht, insert]

/-- What a fetch hands out is in the cache afterwards. -/
theorem lookup_fetch (h : (c.fetch text).1 = .ok k) :
    (c.fetch text).2.entries.lookup text = some k := by
  cases fetches c text with
  | kept compiled hkept hfetch =>
    rw [hfetch] at h ⊢
    cases h
    exact hkept
  | added t hnew ht hfetch =>
    rw [hfetch] at h ⊢
    cases h
    exact lookup_insert_self
  | refused e hnew he hfetch =>
    rw [hfetch] at h
    cases h

/-- The number is used up, and only the type of a text with `p` can have it in the cache. -/
def Confined (number : Nat) (p : String → Prop) (c : Cache) : Prop :=
  number < c.next ∧ ∀ text k, c.entries.lookup text = some k → k.number = number → p text

theorem lasting_confined : Lasting (Confined number p) := by
  refine ⟨fun {c text t} _ hc => ⟨Nat.lt_succ_of_lt hc.1, fun other k hk hnumber => ?_⟩,
    fun hc => ⟨hc.1, by simp [clear]⟩⟩
  rcases lookup_insert_cases hk with ⟨-, rfl⟩ | ⟨-, -, hk⟩
  · -- the type that is added has a number of its own
    exact absurd hnumber (Nat.ne_of_gt hc.1)
  · exact hc.2 other k hk hnumber

theorem Confined.of_fetch (hc : c.Confined k.number p) (h : (c.fetch text).1 = .ok k) : p text :=
  (lasting_confined.fetch hc).2 text k (lookup_fetch h) rfl

/-- Whoever had the number, nobody has it once the cache has forgotten its types. -/
theorem Confined.forget (hc : c.Confined number p) (h : c.Forgets call) :
    (c.step call).2.Confined number fun _ => False := by
  have hnext := hc.1
  rcases h with rfl | ⟨text, t, n, htext, ht, hnew, hlimit, hn⟩
  · exact ⟨hnext, by simp [step, clear]⟩
  · have hfull : c.isFull := isFull_iff.2 ⟨n, hlimit, hn⟩
    have hstep : (c.step call).2 = (c.insert text t).2 := by
      rw [step_cache, htext]
      exact congrArg Prod.snd (fetch_eq_of_compile (not_has_iff.1 hnew) ht)
    rw [hstep]
    refine ⟨Nat.lt_succ_of_lt hnext, fun other k hk hnumber => ?_⟩
    rcases lookup_insert_cases hk with ⟨-, rfl⟩ | ⟨-, hroom, -⟩
    · exact Nat.ne_of_gt hnext hnumber
    · cases hfull.symm.trans hroom

def Numbered (c : Cache) : Prop :=
  ∀ text k, c.entries.lookup text = some k → c.Confined k.number (· = text)

theorem numbered_empty (limit : Option Nat) : (empty limit).Numbered := by
  simp [Numbered, empty]

theorem lasting_numbered : Lasting Numbered := by
  refine ⟨fun {c text t} ht hc other k hk => ?_, fun _ => by simp [Numbered, clear]⟩
  rcases lookup_insert_cases hk with ⟨rfl, rfl⟩ | ⟨-, -, hk⟩
  · refine ⟨Nat.lt_succ_self c.next, fun another l hl hnumber => ?_⟩
    rcases lookup_insert_cases hl with ⟨hname, -⟩ | ⟨-, -, hl⟩
    · exact hname
    · exact absurd hnumber (Nat.ne_of_lt (hc another l hl).1)
  · exact lasting_confined.insert ht (hc other k hk)

theorem numbered_found (limit : Option Nat) : ((empty limit).found calls i).Numbered :=
  lasting_numbered.run (numbered_empty limit)

/-- From then on the number of what a call is handed belongs to the text of the call. -/
theorem HandsOut.confined {limit : Option Nat} (h : (empty limit).HandsOut calls i text k)
    (hij : i < j) : ((empty limit).found calls j).Confined k.number (· = text) := by
  refine lasting_confined.found ?_ hij
  rw [found_succ h.1]
  exact lasting_numbered.fetch (numbered_found limit) text k (lookup_fetch h.fetch_eq)

theorem eq_clear_of_text? (h : call.text? = none) : call = .clear := by
  cases call with
  | clear => rfl
  | _ => cases h

/-- A call that does not make the cache forget its types leaves each of them where it is. -/
theorem lookup_step (hk : c.entries.lookup text = some k) (h : ¬ c.Forgets call) :
    (c.step call).2.entries.lookup text = some k := by
  rw [step_cache]
  cases htext : call.text? with
  | none => exact absurd (.inl (eq_clear_of_text? htext)) h
  | some other =>
    change (c.fetch other).2.entries.lookup text = some k
    cases fetches c other with
    | kept compiled _ hfetch => rwa [hfetch]
    | refused e _ _ hfetch => rwa [hfetch]
    | added t hnew ht hfetch =>
      have hne : text ≠ other := by
        rintro rfl
        cases hk.symm.trans hnew
      have hroom : ¬ c.isFull := by
        intro hfull
        obtain ⟨n, hn⟩ := isFull_iff.1 hfull
        exact h (.inr ⟨other, t, n, htext, ht, not_has_iff.2 hnew, hn⟩)
      rw [hfetch, lookup_insert_of_ne hne, if_neg hroom, hk]

theorem lookup_found (hk : (c.found calls i).entries.lookup text = some k) (hij : i ≤ j)
    (h : ∀ m call, i ≤ m → m < j → calls[m]? = some call → ¬ (c.found calls m).Forgets call) :
    (c.found calls j).entries.lookup text = some k := by
  induction j, hij using Nat.le_induction with
  | base => exact hk
  | succ j hij ih =>
    have hfound := ih fun m call him hmj => h m call him (by omega)
    cases hcall : calls[j]? with
    | none => rwa [found_succ_of_none hcall]
    | some call =>
      rw [found_succ hcall]
      exact lookup_step hfound (h j call hij (by omega) hcall)

/-- Two calls for one text share a type exactly if none between them makes the cache forget. -/
theorem HandsOut.number_eq_iff {limit : Option Nat} {a b : Compiled} (hij : i < j)
    (ha : (empty limit).HandsOut calls i text a) (hb : (empty limit).HandsOut calls j text b) :
    a.number = b.number ↔ ∀ m call, i < m → m < j → calls[m]? = some call →
      ¬ ((empty limit).found calls m).Forgets call := by
  constructor
  · intro hnumber m call him hmj hcall hforgets
    have hgone : ((empty limit).found calls (m + 1)).Confined a.number fun _ => False := by
      rw [found_succ hcall]
      exact (ha.confined him).forget hforgets
    have hlater := lasting_confined.found hgone hmj
    rw [hnumber] at hlater
    exact hlater.of_fetch hb.fetch_eq
  · intro h
    have hfirst : ((empty limit).found calls (i + 1)).entries.lookup text = some a := by
      rw [found_succ ha.1]
      exact lookup_fetch ha.fetch_eq
    have hlast := lookup_found hfirst hij h
    have hfetch := hb.fetch_eq
    rw [fetch_eq_of_lookup hlast] at hfetch
    cases hfetch
    rfl

theorem HandsOut.text_eq {limit : Option Nat} {a b : Compiled} (hij : i < j)
    (ha : (empty limit).HandsOut calls i text a) (hb : (empty limit).HandsOut calls j other b)
    (h : a.number = b.number) : text = other := by
  have hconfined := ha.confined hij
  rw [h] at hconfined
  exact (hconfined.of_fetch hb.fetch_eq).symm

/-- A call about a text that the cache has, or that spells no type, leaves the cache as it is. -/
theorem step_eq_self (htext : call.text? = some text)
    (h : c.Has text ∨ ∃ e, compile text = .error e) : (c.step call).2 = c := by
  rw [step_cache, htext]
  change (c.fetch text).2 = c
  cases fetches c text with
  | kept compiled _ hfetch => rw [hfetch]
  | refused e _ _ hfetch => rw [hfetch]
  | added t hnew ht _ =>
    rcases h with h | ⟨e, he⟩
    · exact absurd h (not_has_iff.2 hnew)
    · cases he.symm.trans ht

theorem has_step (htext : call.text? = some text) (ht : compile text = .ok t) :
    (c.step call).2.Has text := by
  rw [step_cache, htext, has_iff]
  change ∃ k, (c.fetch text).2.entries.lookup text = some k
  cases fetches c text with
  | kept compiled hkept hfetch => exact ⟨compiled, by rwa [hfetch]⟩
  | added u _ _ hfetch => exact ⟨⟨c.next, u⟩, by rw [hfetch, lookup_insert_self]⟩
  | refused e _ he _ => cases he.symm.trans ht

/-- In every run on a new cache two calls for one text are handed the same type exactly if no call
between them makes the cache forget its types, and calls for different texts never are. A call about
a text that the cache has or that spells no type changes nothing, and after a call about a text that
spells a type the cache has it. -/
theorem run_empty_sharing (limit : Option Nat) (calls : List Call) :
    (∀ i j text a b, i < j → (empty limit).HandsOut calls i text a →
      (empty limit).HandsOut calls j text b →
      (a.number = b.number ↔ ∀ m call, i < m → m < j → calls[m]? = some call →
        ¬ ((empty limit).found calls m).Forgets call)) ∧
    (∀ i j text other a b, text ≠ other → (empty limit).HandsOut calls i text a →
      (empty limit).HandsOut calls j other b → a.number ≠ b.number) ∧
    (∀ i call text, calls[i]? = some call → call.text? = some text →
      (((empty limit).found calls i).Has text ∨ ∃ e, compile text = .error e) →
      (empty limit).found calls (i + 1) = (empty limit).found calls i) ∧
    ∀ i call text t, calls[i]? = some call → call.text? = some text → compile text = .ok t →
      ((empty limit).found calls (i + 1)).Has text := by
  refine ⟨fun i j text a b hij ha hb => ha.number_eq_iff hij hb,
    fun i j text other a b hne ha hb hnumber => ?_, fun i call text hcall htext h => ?_,
    fun i call text t hcall htext ht => ?_⟩
  · rcases Nat.lt_trichotomy i j with hij | rfl | hji
    · exact hne (ha.text_eq hij hb hnumber)
    · cases ha.1.symm.trans hb.1
      exact hne rfl
    · exact hne (hb.text_eq hji ha hnumber.symm).symm
  · rw [found_succ hcall]
    exact step_eq_self htext h
  · rw [found_succ hcall]
    exact has_step htext ht

/-- A cache for one type shares `string` until `null` takes its place. -/
theorem run_empty_sharing_limit_one :
    let calls : List Call := [.fetch "string", .check ⟨false⟩ "string" .null, .fetch "string",
      .fetch "null", .fetch "string"]
    let c := empty (some 1)
    let a : Compiled := ⟨0, .leaf .string⟩
    let b : Compiled := ⟨1, .leaf .null⟩
    let d : Compiled := ⟨2, .leaf .string⟩
    (c.HandsOut calls 0 "string" a ∧ c.HandsOut calls 2 "string" a ∧ c.HandsOut calls 3 "null" b ∧
      c.HandsOut calls 4 "string" d) ∧
    (∀ m call, 0 < m → m < 2 → calls[m]? = some call → ¬ (c.found calls m).Forgets call) ∧
      (c.found calls 3).Forgets (.fetch "null") ∧ a.number ≠ d.number ∧ a.number ≠ b.number ∧
      (c.found calls 1).Has "string" ∧ c.found calls 2 = c.found calls 1 ∧
      (c.found calls 4).Has "null" := by
  intro calls c a b d
  have hstring : compile "string" = .ok (.leaf .string) :=
    TypeExpr.compile_leaf (l := .string) trivial
  have hnull : compile "null" = .ok (.leaf .null) := TypeExpr.compile_leaf (l := .null) trivial
  let c₁ : Cache := ⟨some 1, [("string", a)], 1⟩
  let c₂ : Cache := ⟨some 1, [("null", b)], 2⟩
  let c₃ : Cache := ⟨some 1, [("string", d)], 3⟩
  have hfirst : c.fetch "string" = (.ok a, c₁) := fetch_eq_of_compile rfl hstring
  have hagain : c₁.fetch "string" = (.ok a, c₁) := fetch_eq_of_lookup rfl
  have hother : c₁.fetch "null" = (.ok b, c₂) := fetch_eq_of_compile rfl hnull
  have hlast : c₂.fetch "string" = (.ok d, c₃) := fetch_eq_of_compile rfl hstring
  have hcheck : c₁.check ⟨false⟩ "string" .null =
      (.error (.mismatch (.wrongKind "string" "null")), c₁) := by
    rw [check_eq, hagain]
    rfl
  have hrun : c.run calls = ([.fetched (.ok a),
      .checked (.error (.mismatch (.wrongKind "string" "null"))), .fetched (.ok a),
      .fetched (.ok b), .fetched (.ok d)], c₃) := by
    simp only [calls, run, step, hfirst, hcheck, hagain, hother, hlast]
  have hfound : c.found calls 3 = c₁ := by
    simp only [calls, found, List.take_succ_cons, List.take_zero, run, step, hfirst, hcheck, hagain]
  obtain ⟨hshared, hapart, hsame, hadded⟩ := run_empty_sharing (some 1) calls
  have h0 : c.HandsOut calls 0 "string" a := ⟨rfl, by rw [hrun]; rfl⟩
  have h2 : c.HandsOut calls 2 "string" a := ⟨rfl, by rw [hrun]; rfl⟩
  have h3 : c.HandsOut calls 3 "null" b := ⟨rfl, by rw [hrun]; rfl⟩
  have h4 : c.HandsOut calls 4 "string" d := ⟨rfl, by rw [hrun]; rfl⟩
  have hforgets : (c.found calls 3).Forgets (.fetch "null") := by
    rw [hfound]
    exact .inr ⟨"null", .leaf .null, 1, rfl, hnull, by simp [Has, c₁], rfl, Nat.le_refl 1⟩
  have hhas : (c.found calls 1).Has "string" := hadded 0 _ _ _ rfl rfl hstring
  refine ⟨⟨h0, h2, h3, h4⟩, (hshared 0 2 _ _ _ (by decide) h0 h2).1 rfl, hforgets,
    fun hnumber => ?_, hapart 0 3 _ _ _ _ (by decide) h0 h3, hhas, hsame 1 _ _ rfl rfl (.inl hhas),
    hadded 3 _ _ _ rfl rfl hnull⟩
  exact (hshared 0 4 _ _ _ (by decide) h0 h4).1 hnumber 3 _ (by decide) (by decide) rfl hforgets

end StructuralTypes.Cache
