/-!
# Tables in order of insertion

A table maps keys to values and lists its entries in the order in which the keys came in. Keys
are compared by their `==`, which need not be the equality of their type: two scope paths also
match when a label leaves its kind open. A look-up takes the first entry that matches. A later
value for a key replaces the earlier one in its place, and the key stays as it came first.
-/

namespace RtlFlow

structure Table (κ ν : Type) where
  entries : List (κ × ν) := []
deriving Repr, Inhabited

namespace Table

variable {κ ν : Type} [BEq κ]

def empty : Table κ ν := ⟨[]⟩

def get? (t : Table κ ν) (k : κ) : Option ν :=
  (t.entries.find? fun e => e.1 == k).map Prod.snd

def contains (t : Table κ ν) (k : κ) : Bool := (t.get? k).isSome

/-- Entries with a new value for the first key that matches, or with a new entry at the end. -/
def putEntry (k : κ) (v : ν) : List (κ × ν) → List (κ × ν)
  | [] => [(k, v)]
  | e :: es => if e.1 == k then (e.1, v) :: es else e :: putEntry k v es

def put (t : Table κ ν) (k : κ) (v : ν) : Table κ ν := ⟨putEntry k v t.entries⟩

def eraseEntry (k : κ) : List (κ × ν) → List (κ × ν)
  | [] => []
  | e :: es => if e.1 == k then es else e :: eraseEntry k es

def erase (t : Table κ ν) (k : κ) : Table κ ν := ⟨eraseEntry k t.entries⟩

/-- The table of a list of entries; a key that comes again replaces the value of the first. -/
def ofList (es : List (κ × ν)) : Table κ ν := es.foldl (fun t e => t.put e.1 e.2) empty

def putAll (t u : Table κ ν) : Table κ ν := u.entries.foldl (fun t e => t.put e.1 e.2) t

omit [BEq κ] in
def keys (t : Table κ ν) : List κ := t.entries.map Prod.fst

omit [BEq κ] in
def values (t : Table κ ν) : List ν := t.entries.map Prod.snd

omit [BEq κ] in
def size (t : Table κ ν) : Nat := t.entries.length

omit [BEq κ] in
def mapValues {μ : Type} (f : ν → μ) (t : Table κ ν) : Table κ μ :=
  ⟨t.entries.map fun e => (e.1, f e.2)⟩

end Table

end RtlFlow
