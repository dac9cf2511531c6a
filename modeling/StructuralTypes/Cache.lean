import StructuralTypes.Check.Verdict

namespace StructuralTypes

/-- A type as a cache hands it out; every compilation has a number of its own. -/
structure Compiled where
  number : Nat
  type : TypeExpr

structure Cache where
  /-- The number of types from which on the cache is full; without it the cache never is. -/
  limit : Option Nat
  entries : List (String × Compiled)
  /-- The number of the next compilation. -/
  next : Nat

namespace Cache

def empty (limit : Option Nat) : Cache :=
  ⟨limit, [], 0⟩

def size (c : Cache) : Nat :=
  c.entries.length

def isFull (c : Cache) : Bool :=
  match c.limit with
  | some n => n ≤ c.size
  | none => false

def clear (c : Cache) : Cache :=
  { c with entries := [] }

/-- The cache with one more type, which is handed out too. A cache that is full forgets all
others. -/
def insert (c : Cache) (text : String) (t : TypeExpr) : Compiled × Cache :=
  let kept := if c.isFull then [] else c.entries
  let compiled := ⟨c.next, t⟩
  (compiled, { c with entries := (text, compiled) :: kept, next := c.next + 1 })

/-- The type that a text spells, compiled only if the cache does not have it. -/
def fetch (c : Cache) (text : String) : Except ReadError Compiled × Cache :=
  match c.entries.lookup text with
  | some compiled => (.ok compiled, c)
  | none =>
    match TypeExpr.compile text with
    | .ok t =>
      let (compiled, c) := c.insert text t
      (.ok compiled, c)
    | .error e => (.error e, c)

def check (c : Cache) (o : Options) (text : String) (v : Value) : Except CheckError Unit × Cache :=
  match c.fetch text with
  | (.ok compiled, c) => ((compiled.type.check o v).mapError .mismatch, c)
  | (.error e, c) => (.error (.read e), c)

end Cache

end StructuralTypes
