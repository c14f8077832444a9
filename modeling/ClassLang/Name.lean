/-! Names, and the table that numbers them in order of first use. -/

namespace ClassLang

/-- A sum of naturals starts from the literal, also where further algebra is in scope. -/
instance (priority := high) natZero : Zero Nat := ⟨0⟩

/-- A name is its text; the empty text names nothing in particular. -/
abbrev Name := String

/-- Distinct names in order of first use. The empty name is always entry 0. -/
structure NameTable where
  entries : Array Name := #[""]
deriving Repr, DecidableEq

namespace NameTable

def size (table : NameTable) : Nat := table.entries.size

/-- The number of a name already in the table. -/
def find? (table : NameTable) (name : Name) : Option Nat :=
  table.entries.toList.idxOf? name

/-- The number of `name`, entering it at the end when it is new. -/
def intern (table : NameTable) (name : Name) : Nat × NameTable :=
  match table.find? name with
  | some raw => (raw, table)
  | none => (table.size, { entries := table.entries.push name })

/-- The name with number `raw`; a number never handed out stands for the empty name. -/
def lookup (table : NameTable) (raw : Nat) : Name :=
  (table.entries[raw]?).getD ""

end NameTable
end ClassLang
