/-! Maps from positions to values, listed by increasing position. -/

namespace ClassLang

structure IdMap (α : Type) where
  slots : Array (Option α) := #[]
deriving Repr, DecidableEq, Inhabited

namespace IdMap
variable {α : Type}

def get? (map : IdMap α) (key : Nat) : Option α := (map.slots[key]?).join

/-- Set the value at `key`, in place of an earlier one. -/
def insert (map : IdMap α) (key : Nat) (value : α) : IdMap α :=
  let padded := map.slots ++ Array.replicate (key + 1 - map.slots.size) none
  { slots := padded.setIfInBounds key (some value) }

/-- Keys with their values, by increasing key. -/
def entries (map : IdMap α) : List (Nat × α) :=
  map.slots.toList.zipIdx.filterMap fun (slot, key) => slot.map (key, ·)

theorem get?_insert (map : IdMap α) (key other : Nat) (value : α) :
    (map.insert key value).get? other = if key = other then some value else map.get? other := by
  unfold get? insert
  by_cases same : key = other
  · subst same
    rw [Array.getElem?_setIfInBounds_self_of_lt (by simp; omega)]
    simp
  · rw [Array.getElem?_setIfInBounds_ne same, if_neg same]
    by_cases inside : other < map.slots.size
    · rw [Array.getElem?_append_left inside]
    · have outside : map.slots[other]? = none := Array.getElem?_eq_none (by omega)
      rw [Array.getElem?_append_right (by omega), outside, Array.getElem?_replicate]
      split <;> rfl

end IdMap
end ClassLang
