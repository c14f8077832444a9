import ClassLang.Proofs.Stage.WrittenTypes
import Mathlib.Data.List.Sort
import Mathlib.Data.Prod.Lex

/-! The order in which declarations are published. Units may be declared one after the other or at
the same time: as long as what belongs to one class comes in its own order, the table answers the
same. -/

namespace ClassLang

/-- The place of the declaration: its unit, and its place among the members there. -/
def Symbol.place (symbol : Symbol) : Nat × Nat := (symbol.unit, symbol.member)

/-- Something is published. What was declared before is named by its place. -/
inductive PublishCall where
  | class_ (symbol : Symbol) (typeParams : List ParamRef) (permits : Option (List Name))
  | member (owner : Nat × Nat) (symbol : Symbol)
  | supertypes (owner : Nat × Nat) (superclass : Option TypeRef) (interfaces : List TypeRef)
  | signature (declared : Nat × Nat) (signature : Signature)
deriving Repr, DecidableEq

namespace PublishCall

/-- The place of what the call is about. -/
def place : PublishCall → Nat × Nat
  | class_ symbol _ _ | member _ symbol => symbol.place
  | supertypes owner _ _ => owner
  | signature declared _ => declared

/-- The place that is declared. -/
def declares? : PublishCall → Option (Nat × Nat)
  | class_ symbol _ _ | member _ symbol => some symbol.place
  | supertypes .. | signature .. => none

/-- The place that was declared before. -/
def refers? : PublishCall → Option (Nat × Nat)
  | class_ .. => none
  | member owner _ | supertypes owner _ _ => some owner
  | signature declared _ => some declared

theorem place_of_declares? {call : PublishCall} {place : Nat × Nat}
    (declares : call.declares? = some place) : call.place = place := by
  cases call with
  | class_ | member => exact Option.some.inj declares
  | supertypes | signature => cases declares

end PublishCall

namespace SymbolTable

/-- The number of the declaration at a place. -/
def numberAt (table : SymbolTable) (place : Nat × Nat) : Except Abort Nat :=
  match table.symbols.findIdx? (·.place == place) with
  | some number => .ok number
  | none => .error .outOfRange

def publish (table : SymbolTable) : PublishCall → Except Abort SymbolTable
  | .class_ symbol typeParams permits => return (table.declareClass symbol typeParams permits).2
  | .member owner symbol => return (table.declareMember (← table.numberAt owner) symbol).2
  | .supertypes owner superclass interfaces =>
    return table.publishClass (← table.numberAt owner) superclass interfaces
  | .signature declared signature => do table.publishSignature (← table.numberAt declared) signature

def publishAll (table : SymbolTable) (calls : List PublishCall) : Except Abort SymbolTable :=
  calls.foldlM publish table

/-- The place of a symbol, which does not depend on its number. -/
def placeOf (table : SymbolTable) (number : Nat) : Option (Nat × Nat) :=
  (table.symbols[number]?).map Symbol.place

/-- The places of all symbols. -/
def places (table : SymbolTable) : List (Nat × Nat) := table.symbols.toList.map Symbol.place

end SymbolTable

/-! What is seen of classes, whatever the numbers of symbols. -/

/-- What is published of a class. -/
structure SeenClass where
  symbol : Symbol
  typeParams : List ParamRef
  permits : Option (List Name)
  superclass : Option TypeRef := none
  interfaces : List TypeRef := []
  members : List Symbol := []
deriving Repr, DecidableEq

/-- The symbol with a signature, if it is the one of the place. -/
def Symbol.sign (place : Nat × Nat) (signature : Signature) (symbol : Symbol) : Symbol :=
  if symbol.place = place then { symbol with signature := some signature } else symbol

@[simp] theorem Symbol.place_sign (place : Nat × Nat) (signature : Signature) (symbol : Symbol) :
    (symbol.sign place signature).place = symbol.place := by
  unfold Symbol.sign
  split <;> rfl

@[simp] theorem Symbol.name_sign (place : Nat × Nat) (signature : Signature) (symbol : Symbol) :
    (symbol.sign place signature).name = symbol.name := by
  unfold Symbol.sign
  split <;> rfl

namespace PublishCall

/-- What a call changes of a class. -/
def change : PublishCall → SeenClass → SeenClass
  | class_ .., seen => seen
  | member owner symbol, seen =>
    if seen.symbol.place = owner then { seen with members := seen.members ++ [symbol] } else seen
  | supertypes owner superclass interfaces, seen =>
    if seen.symbol.place = owner then { seen with superclass, interfaces } else seen
  | signature declared published, seen =>
    { seen with
      symbol := seen.symbol.sign declared published
      members := seen.members.map (·.sign declared published) }

/-- The class that a call declares. -/
def opens : PublishCall → List SeenClass
  | class_ symbol typeParams permits => [{ symbol, typeParams, permits }]
  | member .. | supertypes .. | signature .. => []

def act (seens : List SeenClass) (call : PublishCall) : List SeenClass :=
  seens.map call.change ++ call.opens

variable {root : Nat × Nat → Nat × Nat} {call : PublishCall} {calls others : List PublishCall}
    {seen : SeenClass}
  {seens : List SeenClass}

@[simp] theorem change_place : (call.change seen).symbol.place = seen.symbol.place := by
  cases call with
  | class_ => rfl
  | member | supertypes =>
    simp only [change]
    split <;> rfl
  | signature => exact Symbol.place_sign _ _ _

@[simp] theorem change_name : (call.change seen).symbol.name = seen.symbol.name := by
  cases call with
  | class_ => rfl
  | member | supertypes =>
    simp only [change]
    split <;> rfl
  | signature => exact Symbol.name_sign _ _ _

theorem opens_place (opened : seen ∈ call.opens) : seen.symbol.place = call.place := by
  cases call with
  | class_ =>
    cases List.mem_singleton.mp opened
    rfl
  | member | supertypes | signature => cases opened

/-- What a call is about goes with what it refers to. -/
def Joins (root : Nat × Nat → Nat × Nat) (call : PublishCall) : Prop :=
  ∀ place ∈ call.refers?, root call.place = root place

/-- The members of the class go with it. -/
def Gathers (root : Nat × Nat → Nat × Nat) (seen : SeenClass) : Prop :=
  ∀ member ∈ seen.members, root member.place = root seen.symbol.place

/-- A call does not change what does not belong to it. -/
theorem change_apart (joins : call.Joins root) (gathers : Gathers root seen)
    (apart : root seen.symbol.place ≠ root call.place) : call.change seen = seen := by
  have refers {place : Nat × Nat} (refers : call.refers? = some place) :
      seen.symbol.place ≠ place := by
    rintro rfl
    exact apart (joins _ refers).symm
  cases call with
  | class_ => rfl
  | member | supertypes => exact if_neg (refers rfl)
  | signature declared signature =>
    have kept : seen.members.map (·.sign declared signature) = seen.members := by
      refine List.map_congr_left (fun member listed => if_neg ?_) |>.trans (List.map_id _)
      rintro rfl
      exact apart (gathers member listed).symm
    change { seen with symbol := _, members := _ } = seen
    rw [kept, show seen.symbol.sign declared signature = seen.symbol from if_neg (refers rfl)]

theorem gathers_change (joins : call.Joins root) (gathers : Gathers root seen) : Gathers root
    (call.change seen) := by
  intro member listed
  rw [change_place]
  cases call with
  | class_ => exact gathers member listed
  | member owner symbol =>
    simp only [change] at listed
    split at listed
    · rename_i same
      rcases List.mem_append.mp listed with old | new
      · exact gathers member old
      · cases List.mem_singleton.mp new
        rw [same]
        exact joins owner rfl
    · exact gathers member listed
  | supertypes =>
    simp only [change] at listed
    split at listed <;> exact gathers member listed
  | signature =>
    obtain ⟨before, old, rfl⟩ := List.mem_map.mp listed
    rw [Symbol.place_sign]
    exact gathers before old

theorem gathers_act (joins : call.Joins root) (gathers : ∀ seen ∈ seens, Gathers root seen) :
    ∀ seen ∈ act seens call, Gathers root seen := by
  intro seen listed
  rcases List.mem_append.mp listed with old | new
  · obtain ⟨before, there, rfl⟩ := List.mem_map.mp old
    exact gathers_change joins (gathers before there)
  · cases call with
    | class_ =>
      simp only [opens, List.mem_singleton] at new
      subst new
      exact fun _ listed => absurd listed List.not_mem_nil
    | member | supertypes | signature => cases new

/-- The classes that go with a place. -/
abbrev classesOf (root : Nat × Nat → Nat × Nat) (place : Nat × Nat) (seens : List SeenClass) :
    List SeenClass :=
  seens.filter fun seen => root seen.symbol.place = place

/-- The calls that go with a place. -/
abbrev callsOf (root : Nat × Nat → Nat × Nat) (place : Nat × Nat) (calls : List PublishCall) :
    List PublishCall :=
  calls.filter fun call => root call.place = place

/-- What goes with a place is left to the calls that do. -/
theorem classesOf_act (joins : call.Joins root) (gathers : ∀ seen ∈ seens, Gathers root seen)
    (place : Nat × Nat) : classesOf root place (act seens call) =
      if root call.place = place then act (classesOf root place seens) call else classesOf root
        place seens := by
  have changed : classesOf root place (seens.map call.change) = (classesOf root place seens).map
      call.change := by
    simp only [classesOf, List.filter_map, Function.comp_def, change_place]
  unfold act
  rw [classesOf, List.filter_append]
  change classesOf root place _ ++ _ = _
  rw [changed]
  split
  · rename_i own
    congr 1
    exact List.filter_eq_self.mpr fun seen opened => by simp [opens_place opened, own]
  · rename_i apart
    have none : call.opens.filter (fun seen => root seen.symbol.place = place) = [] :=
      List.filter_eq_nil_iff.mpr fun seen opened => by simp [opens_place opened, apart]
    rw [none, List.append_nil]
    refine (List.map_congr_left fun seen listed => ?_).trans (List.map_id _)
    obtain ⟨there, accepted⟩ := List.mem_filter.mp listed
    refine change_apart joins (gathers seen there) ?_
    rw [of_decide_eq_true accepted]
    exact Ne.symm apart

theorem classesOf_foldl (joins : ∀ call ∈ calls, call.Joins root)
    (gathers : ∀ seen ∈ seens, Gathers root seen) (place : Nat × Nat) :
    classesOf root place (calls.foldl act seens) = (callsOf root place calls).foldl act
      (classesOf root place seens) := by
  induction calls generalizing seens with
  | nil => rfl
  | cons call rest ih =>
    obtain ⟨first, later⟩ := List.forall_mem_cons.mp joins
    rw [List.foldl_cons, ih later (gathers_act first gathers), classesOf_act first gathers]
    by_cases own : root call.place = place <;> simp [callsOf, own]

end PublishCall

/-- Lists that agree on the elements of every key have the same elements. -/
theorem List.perm_of_filter_key {α κ : Type} [DecidableEq α] [DecidableEq κ] {key : α → κ}
    {some other : List α} (same : ∀ k, some.filter (fun a => key a = k) = other.filter fun a =>
      key a = k) : some.Perm other := by
  refine List.perm_iff_count.mpr fun a => ?_
  have own (l : List α) : List.count a (l.filter fun b => key b = key a) = List.count a l :=
    List.count_filter (decide_eq_true rfl)
  rw [← own, same, own]

namespace PublishCall
variable {calls others : List PublishCall}

/-- The same calls. Those that belong to one class, of which `root` tells, are in the same order. -/
def Interleaves (calls others : List PublishCall) : Prop :=
  ∃ root : Nat × Nat → Nat × Nat, (∀ call ∈ calls, call.Joins root) ∧
    ∀ place, callsOf root place calls = callsOf root place others

theorem Interleaves.perm (interleaves : Interleaves calls others) : calls.Perm others := by
  obtain ⟨root, _, same⟩ := interleaves
  exact List.perm_of_filter_key same

/-- Calls that are interleaved do the same to classes. -/
theorem Interleaves.act_perm (interleaves : Interleaves calls others) : (calls.foldl act []).Perm
    (others.foldl act []) := by
  have perm := interleaves.perm
  obtain ⟨root, joins, same⟩ := interleaves
  refine @List.perm_of_filter_key _ _ _ _ (fun seen => root seen.symbol.place) _ _ fun place => ?_
  have joinsOther : ∀ call ∈ others, call.Joins root := fun call listed =>
    joins call (perm.mem_iff.mpr listed)
  have none : ∀ seen ∈ ([] : List SeenClass), Gathers root seen := by simp
  change classesOf root place _ = classesOf root place _
  rw [classesOf_foldl joins none, classesOf_foldl joinsOther none, same]

end PublishCall
end ClassLang
