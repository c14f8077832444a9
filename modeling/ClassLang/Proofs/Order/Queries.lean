import ClassLang.Proofs.Order.Calls
import ClassLang.Proofs.Pledge
import ClassLang.Proofs.Stage.Reordering

/-! Queries of a symbol table that do not depend on the order in which its declarations were
published. -/

namespace ClassLang

namespace SymbolTable

/-- The record is what is seen of a class. -/
structure Sees (table : SymbolTable) (record : ClassRecord) (seen : SeenClass) : Prop where
  symbol : table.symbols[record.symbol]? = some seen.symbol
  members : List.Forall₂ (fun (number : Nat) symbol => table.symbols[number]? = some symbol)
    record.members seen.members
  name : record.name = seen.symbol.name
  order : record.order = seen.symbol.place
  typeParams : record.typeParams = seen.typeParams
  permits : record.permits = seen.permits
  superclass : record.superclass = seen.superclass
  interfaces : record.interfaces = seen.interfaces

/-- The table has the classes that are seen, and no place twice. -/
structure Shows (table : SymbolTable) (seens : List SeenClass) : Prop where
  distinct : table.places.Nodup
  classes : List.Forall₂ table.Sees table.classes seens
  apart : (seens.map (·.symbol.place)).Nodup

variable {table next : SymbolTable} {record : ClassRecord} {seen : SeenClass}
    {seens : List SeenClass} {number : Nat}
  {place : Nat × Nat} {symbol : Symbol} {call : PublishCall} {calls others : List PublishCall}

theorem places_getElem? : table.places[number]? = table.placeOf number := by
  simp [places, placeOf]

theorem mem_places (found : table.symbols[number]? = some symbol) :
    symbol.place ∈ table.places := by
  have stored : table.places[number]? = some symbol.place := by
    rw [places_getElem?, placeOf, found]; rfl
  exact List.mem_of_getElem? stored

/-- A place tells the number. -/
theorem number_inj (distinct : table.places.Nodup) {other : Nat} {another : Symbol}
    (earlier : table.symbols[number]? = some symbol) (later : table.symbols[other]? = some another)
    (same : symbol.place = another.place) : number = other := by
  have found : table.places[number]? = some symbol.place := by
    rw [places_getElem?, placeOf, earlier]; rfl
  have there : table.places[other]? = some symbol.place := by
    rw [places_getElem?, placeOf, later, same]; rfl
  exact (List.getElem?_inj (List.getElem?_eq_some_iff.mp found).1 distinct).mp
    (found.trans there.symm)

theorem numberAt_eq_ok (ran : table.numberAt place = .ok number) :
    ∃ symbol, table.symbols[number]? = some symbol ∧ symbol.place = place := by
  unfold numberAt at ran
  split at ran
  · rename_i found
    cases ran
    obtain ⟨inside, same, -⟩ := Array.findIdx?_eq_some_iff_getElem.mp found
    exact ⟨_, Array.getElem?_eq_getElem inside, by simpa using same⟩
  · cases ran

theorem numberAt_ok (declared : place ∈ table.places) :
    ∃ number, table.numberAt place = .ok number := by
  obtain ⟨symbol, listed, rfl⟩ := List.mem_map.mp declared
  have found : (table.symbols.findIdx? (·.place == symbol.place)).isSome := by
    rw [Array.findIdx?_isSome, Array.any_eq_true']
    exact ⟨symbol, Array.mem_toList_iff.mp listed, by simp⟩
  obtain ⟨number, found⟩ := Option.isSome_iff_exists.mp found
  exact ⟨number, by rw [numberAt, found]⟩

/-- What is done at a place is done with the symbol there. -/
theorem numberAt_bind_eq_ok {α : Type} {action : Nat → Except Abort α} {result : α}
    (ran : (table.numberAt place >>= action) = .ok result) :
    ∃ number symbol, table.symbols[number]? = some symbol ∧ symbol.place = place ∧
    action number = .ok result := by
  obtain ⟨number, answered, done⟩ := Except.bind_eq_ok ran
  obtain ⟨symbol, found, same⟩ := numberAt_eq_ok answered
  exact ⟨number, symbol, found, same, done⟩

/-- What stays in the table is seen as before. -/
theorem Sees.keep (sees : table.Sees record seen)
    (kept : ∀ (number : Nat) symbol, table.symbols[number]? = some symbol →
    next.symbols[number]? = some symbol) : next.Sees record seen :=
  { sees with
    symbol := kept _ _ sees.symbol
    members := sees.members.imp fun _ _ => kept _ _ }

/-- A place stands for one class only. -/
theorem Sees.symbol_iff (sees : table.Sees record seen) (distinct : table.places.Nodup)
    (found : table.symbols[number]? = some symbol) : record.symbol = number ↔
    seen.symbol.place = symbol.place := by
  constructor
  · rintro rfl
    cases sees.symbol.symm.trans found
    rfl
  · exact number_inj distinct sees.symbol found

/-- A change of the class at a place leaves the others as they are. -/
theorem Sees.update (sees : table.Sees record seen) (distinct : table.places.Nodup)
    (found : table.symbols[number]? = some symbol) {changed : ClassRecord} {shown : SeenClass}
    (shows : next.Sees changed shown) (apart : next.Sees record seen) :
    next.Sees (if record.symbol = number then changed else record)
      (if seen.symbol.place = symbol.place then shown else seen) := by
  have owns := sees.symbol_iff distinct found
  by_cases own : record.symbol = number
  · rw [if_pos own, if_pos (owns.mp own)]
    exact shows
  · rw [if_neg own, if_neg (own ∘ owns.mpr)]
    exact apart

/-! One call. -/

/-- Only what was declared is referred to. -/
theorem publish_refers (ran : table.publish call = .ok next) :
    ∀ place ∈ call.refers?, place ∈ table.places := by
  intro place refers
  cases call with
  | class_ => cases refers
  | member | supertypes | signature =>
    cases refers
    obtain ⟨number, symbol, found, rfl, -⟩ := numberAt_bind_eq_ok ran
    exact mem_places found

/-- Whoever refers to what was declared succeeds. -/
theorem publish_ok (declared : ∀ place ∈ call.refers?, place ∈ table.places) :
    ∃ next, table.publish call = .ok next := by
  cases call with
  | class_ => exact ⟨_, rfl⟩
  | member owner | supertypes owner =>
    obtain ⟨number, found⟩ := numberAt_ok (declared owner rfl)
    exact ⟨_, by rw [publish, found]; rfl⟩
  | signature place signature =>
    obtain ⟨number, found⟩ := numberAt_ok (declared place rfl)
    obtain ⟨symbol, there, -⟩ := numberAt_eq_ok found
    exact ⟨_, by rw [publish, found, ok_bind, publishSignature_eq there]⟩

theorem symbols_sign (distinct : table.places.Nodup) (found : table.symbols[number]? = some symbol)
    (signature : Signature) (other : Nat) : (table.sign number signature).symbols[other]? =
      (table.symbols[other]?).map (·.sign symbol.place signature) := by
  simp only [sign, Array.getElem?_modify]
  split
  · subst other
    rw [found]
    exact congrArg some (if_pos rfl).symm
  · rename_i apart
    cases there : table.symbols[other]? with
    | none => rfl
    | some another =>
      refine congrArg some (if_neg fun same => apart ?_).symm
      exact number_inj distinct found there same.symm

theorem publish_places (distinct : table.places.Nodup) (ran : table.publish call = .ok next) :
    next.places = table.places ++ call.declares?.toList := by
  cases call with
  | class_ =>
    cases ran
    simp [places, declareClass, PublishCall.declares?]
  | member | supertypes =>
    obtain ⟨number, _, -, -, same⟩ := numberAt_bind_eq_ok ran
    cases same
    simp [places, declareMember, publishClass, updateClass, PublishCall.declares?]
  | signature place signature =>
    obtain ⟨number, symbol, found, rfl, signed⟩ := numberAt_bind_eq_ok ran
    cases (publishSignature_eq found).symm.trans signed
    refine List.ext_getElem? fun other => ?_
    rw [PublishCall.declares?, Option.toList_none, List.append_nil, places_getElem?,
      places_getElem?, placeOf, placeOf, symbols_sign distinct found, Option.map_map]
    congr 1
    exact funext fun another => Symbol.place_sign _ _ another

/-- A call does to the table what it does to the classes that are seen. -/
theorem publish_classes (shows : table.Shows seens) (ran : table.publish call = .ok next) :
    List.Forall₂ next.Sees next.classes (call.act seens) := by
  have pushed (symbol : Symbol) (number : Nat) (other : Symbol)
      (found : table.symbols[number]? = some other) :
      (table.symbols.push symbol)[number]? = some other := by
    obtain ⟨inside, same⟩ := Array.getElem?_eq_some_iff.mp found
    rw [Array.getElem?_push_lt inside, same]
  have last (symbol : Symbol) : (table.symbols.push symbol)[table.size]? = some symbol :=
    Array.getElem?_push_size
  unfold PublishCall.act
  cases call with
  | class_ symbol typeParams permits =>
    cases ran
    refine List.rel_append (List.forall₂_map_right_iff.mpr
      (shows.classes.imp fun _ _ sees => sees.keep (pushed symbol))) ?_
    exact .cons ⟨last symbol, .nil, rfl, rfl, rfl, rfl, rfl, rfl⟩ .nil
  | member owner symbol =>
    obtain ⟨number, _, found, rfl, same⟩ := numberAt_bind_eq_ok ran
    cases same
    rw [PublishCall.opens, List.append_nil]
    refine List.forall₂_map_left_iff.mpr
      (List.forall₂_map_right_iff.mpr (shows.classes.imp fun record seen sees => ?_))
    have keep : (table.declareMember number symbol).2.Sees record seen := sees.keep (pushed symbol)
    refine sees.update shows.distinct found ?_ keep
    have kept := sees.members.imp fun _ _ => pushed symbol _ _
    exact { sees with
      symbol := pushed symbol _ _ sees.symbol
      members := List.rel_append kept (.cons (last symbol) .nil) }
  | supertypes owner superclass interfaces =>
    obtain ⟨number, _, found, rfl, same⟩ := numberAt_bind_eq_ok ran
    cases same
    rw [PublishCall.opens, List.append_nil]
    refine List.forall₂_map_left_iff.mpr
      (List.forall₂_map_right_iff.mpr (shows.classes.imp fun record seen sees => ?_))
    have keep : (table.publishClass number superclass interfaces).Sees record seen := { sees with }
    refine sees.update shows.distinct found ?_ keep
    exact { sees with superclass := rfl, interfaces := rfl }
  | signature place signature =>
    obtain ⟨number, symbol, found, rfl, signed⟩ := numberAt_bind_eq_ok ran
    cases (publishSignature_eq found).symm.trans signed
    have reads (other : Nat) (before : Symbol) (there : table.symbols[other]? = some before) :
        (table.sign number signature).symbols[other]? =
          some (before.sign symbol.place signature) := by
      rw [symbols_sign shows.distinct found, there, Option.map_some]
    rw [PublishCall.opens, List.append_nil]
    refine List.forall₂_map_right_iff.mpr (shows.classes.imp fun record seen sees => ?_)
    exact { sees with
      symbol := reads _ _ sees.symbol
      members := List.forall₂_map_right_iff.mpr (sees.members.imp fun _ _ => reads _ _)
      name := sees.name.trans (Symbol.name_sign _ _ _).symm
      order := sees.order.trans (Symbol.place_sign _ _ _).symm }

theorem publish_shows (shows : table.Shows seens)
    (fresh : ∀ place ∈ call.declares?, place ∉ table.places) (ran : table.publish call = .ok next) :
    next.Shows (call.act seens) := by
  refine ⟨?_, publish_classes shows ran, ?_⟩
  · rw [publish_places shows.distinct ran]
    refine List.Nodup.append shows.distinct ?_ ?_
    · cases call.declares? <;> simp
    · intro place old new
      exact fresh place (Option.mem_toList.mp new) old
  · have declared : ∀ seen ∈ seens, seen.symbol.place ∈ table.places := by
      intro seen listed
      obtain ⟨record, _, sees⟩ := exists_mem_of_forall₂ shows.classes.flip listed
      exact mem_places (Sees.symbol sees)
    simp only [PublishCall.act, List.map_append, List.map_map, Function.comp_def,
      PublishCall.change_place]
    refine List.Nodup.append shows.apart ?_ ?_
    · cases call <;> simp [PublishCall.opens]
    · intro place old new
      obtain ⟨seen, listed, rfl⟩ := List.mem_map.mp old
      obtain ⟨opened, there, same⟩ := List.mem_map.mp new
      cases call with
      | class_ symbol =>
        cases List.mem_singleton.mp there
        exact fresh _ rfl (same ▸ declared seen listed)
      | member | supertypes | signature => cases there

/-! All calls. -/

theorem publishAll_cons {final : SymbolTable} : table.publishAll (call :: calls) = .ok final ↔
    ∃ next, table.publish call = .ok next ∧ next.publishAll calls = .ok final := by
  rw [publishAll, List.foldlM_cons]
  refine ⟨Except.bind_eq_ok, ?_⟩
  rintro ⟨next, first, rest⟩
  rw [first, ok_bind]
  exact rest

theorem filterMap_declares_cons : (call :: calls).filterMap PublishCall.declares? =
    call.declares?.toList ++ calls.filterMap PublishCall.declares? := by
  cases declares : call.declares? <;> simp [declares]

theorem fresh_of_distinct
    (distinct : (table.places ++ (call :: calls).filterMap PublishCall.declares?).Nodup) :
    ∀ place ∈ call.declares?, place ∉ table.places := by
  intro place declares old
  rw [filterMap_declares_cons, List.nodup_append] at distinct
  exact distinct.2.2 place old place (List.mem_append_left _ (Option.mem_toList.mpr declares)) rfl

theorem publishAll_shows {final : SymbolTable} (shows : table.Shows seens)
    (distinct : (table.places ++ calls.filterMap PublishCall.declares?).Nodup)
    (ran : table.publishAll calls = .ok final) : final.Shows (calls.foldl PublishCall.act seens) ∧
    final.places = table.places ++ calls.filterMap PublishCall.declares? := by
  induction calls generalizing table seens with
  | nil =>
    cases ran
    exact ⟨shows, (List.append_nil _).symm⟩
  | cons call rest ih =>
    obtain ⟨next, first, later⟩ := publishAll_cons.mp ran
    have fresh := fresh_of_distinct distinct
    rw [filterMap_declares_cons, ← List.append_assoc, ← publish_places shows.distinct
      first] at distinct ⊢
    exact ih (publish_shows shows fresh first) distinct later

/-- Calls that refer to what is known, or was declared by an earlier call. -/
def InOrder (known : List (Nat × Nat)) (calls : List PublishCall) : Prop :=
  ∀ before call after, calls = before ++ call :: after → ∀ place ∈ call.refers?,
    place ∈ known ++ before.filterMap PublishCall.declares?

/-- Those are the ones that succeed. -/
theorem publishAll_ok_iff (shows : table.Shows seens)
    (distinct : (table.places ++ calls.filterMap PublishCall.declares?).Nodup) :
    (∃ final, table.publishAll calls = .ok final) ↔ InOrder table.places calls := by
  constructor
  · rintro ⟨final, ran⟩ before call after rfl place refers
    rw [publishAll, List.foldlM_append] at ran
    obtain ⟨between, first, later⟩ := Except.bind_eq_ok ran
    obtain ⟨next, then_, -⟩ := publishAll_cons.mp later
    rw [List.filterMap_append, ← List.append_assoc] at distinct
    rw [← (publishAll_shows shows (List.nodup_append.mp distinct).1 first).2]
    exact publish_refers then_ place refers
  · intro inOrder
    induction calls generalizing table seens with
    | nil => exact ⟨table, rfl⟩
    | cons call rest ih =>
      obtain ⟨next, first⟩ := @publish_ok table call fun place refers => by
        simpa using inOrder [] call rest rfl place refers
      have fresh := fresh_of_distinct distinct
      rw [filterMap_declares_cons, ← List.append_assoc, ← publish_places shows.distinct
        first] at distinct
      obtain ⟨final, later⟩ := ih (publish_shows shows fresh first) distinct
        fun before other after same place refers => by
        have member := inOrder (call :: before) other after (by rw [same]; rfl) place refers
        rwa [filterMap_declares_cons, ← List.append_assoc, ← publish_places shows.distinct
          first] at member
      exact ⟨final, publishAll_cons.mpr ⟨next, first, later⟩⟩

/-- Calls that are interleaved in another way are in order as well: what a call refers to goes with
it. -/
theorem InOrder.interleave (inOrder : InOrder [] calls)
    (interleaves : PublishCall.Interleaves calls others) : InOrder [] others := by
  rintro before call after rfl place refers
  have perm := interleaves.perm
  obtain ⟨root, joins, same⟩ := interleaves
  have own : root call.place = root place := joins call (perm.mem_iff.mpr (by simp)) place refers
  have alike := same (root place)
  rw [PublishCall.callsOf, PublishCall.callsOf, List.filter_append,
    List.filter_cons_of_pos (by simp [own])] at alike
  obtain ⟨early, late, rfl, first, rest⟩ := List.filter_eq_append_iff.mp alike
  obtain ⟨middle, last, rfl, apart, -⟩ := List.filter_eq_cons_iff.mp rest
  have member := inOrder (early ++ middle) call last (by simp) place refers
  rw [List.nil_append] at member ⊢
  obtain ⟨declaring, listed, declares⟩ := List.mem_filterMap.mp member
  refine List.mem_filterMap.mpr ⟨declaring, ?_, declares⟩
  have equal : root declaring.place = root place :=
    congrArg root (PublishCall.place_of_declares? declares)
  rcases List.mem_append.mp listed with soon | later
  · have kept : declaring ∈ early.filter fun call => root call.place = root place :=
      List.mem_filter.mpr ⟨soon, decide_eq_true equal⟩
    rw [first] at kept
    exact (List.mem_filter.mp kept).1
  · exact absurd (decide_eq_true equal) (apart declaring later)

end SymbolTable

/-! What a name refers to. -/

theorem declaredBefore_iff {first second : Nat × Nat} : declaredBefore first second = true ↔
    toLex first < toLex second := by
  rw [declaredBefore, decide_eq_true_iff, Prod.Lex.toLex_lt_toLex]

/-- Nothing is declared before the earliest. -/
theorem earliest?_le : ∀ {records : List ClassRecord} {best : ClassRecord},
    earliest? records = some best → ∀ record ∈ records, toLex best.order ≤ toLex record.order
  | first :: rest, best, found, record, listed => by
    unfold earliest? at found
    split at found
    · rename_i later answer
      have below := earliest?_le answer
      split at found <;> rename_i before
      · cases found
        rcases List.mem_cons.mp listed with rfl | inRest
        · exact (declaredBefore_iff.mp before).le
        · exact below record inRest
      · cases found
        have order : toLex first.order ≤ toLex later.order :=
          not_lt.mp (before ∘ declaredBefore_iff.mpr)
        rcases List.mem_cons.mp listed with rfl | inRest
        · exact le_rfl
        · exact order.trans (below record inRest)
    · rename_i none
      cases found
      rcases List.mem_cons.mp listed with rfl | inRest
      · exact le_rfl
      · cases rest with
        | nil => cases inRest
        | cons second others =>
          unfold earliest? at none
          split at none
          · split at none <;> cases none
          · cases none

/-- The earliest of the classes with a name, if there is any. -/
def SeenClass.Named (seens : List SeenClass) (name : Name) : Option SeenClass → Prop
  | none => ∀ seen ∈ seens, seen.symbol.name ≠ name
  | some seen => seen ∈ seens ∧ seen.symbol.name = name ∧
    ∀ other ∈ seens, other.symbol.name = name → toLex seen.symbol.place ≤ toLex other.symbol.place

namespace SeenClass
variable {seens others : List SeenClass} {name : Name} {found known : Option SeenClass}

/-- The places of the classes with a name. -/
def places (name : Name) (seens : List SeenClass) : List (Nat ×ₗ Nat) :=
  (seens.filter (·.symbol.name == name)).map (toLex ·.symbol.place)

theorem Named.perm (named : Named seens name found) (perm : seens.Perm others) :
    Named others name found := by
  cases found with
  | none => exact fun seen listed => named seen (perm.mem_iff.mpr listed)
  | some seen =>
    exact ⟨perm.mem_iff.mp named.1, named.2.1, fun other listed =>
      named.2.2 other (perm.mem_iff.mpr listed)⟩

theorem Named.unique (apart : (seens.map (·.symbol.place)).Nodup) (named : Named seens name found)
    (also : Named seens name known) : found = known := by
  cases found with
  | none =>
    cases known with
    | none => rfl
    | some seen => exact absurd also.2.1 (named seen also.1)
  | some seen =>
    cases known with
    | none => exact absurd named.2.1 (also seen named.1)
    | some other =>
      have same := le_antisymm (named.2.2 other also.1 also.2.1) (also.2.2 seen named.1 named.2.1)
      exact congrArg some (List.inj_on_of_nodup_map apart named.1 also.1 (toLex_inj.mp same))

end SeenClass

namespace SymbolTable
variable {table other : SymbolTable} {seens : List SeenClass} {name : Name}
    {found : Option SeenClass}

/-- A name refers to the earliest of the classes with it. -/
theorem Shows.exists_named (shows : table.Shows seens) (name : Name) :
    ∃ found, SeenClass.Named seens name found ∧
    Option.Rel table.Sees (table.record? name) found := by
  cases answer : table.record? name with
  | none =>
    refine ⟨none, fun seen listed same => ?_, .none⟩
    obtain ⟨record, there, sees⟩ := exists_mem_of_forall₂ shows.classes.flip listed
    have named : record ∈ table.classes.filter (·.name == name) :=
      List.mem_filter.mpr ⟨there, by simp [Sees.name sees, same]⟩
    unfold record? at answer
    cases all : table.classes.filter (·.name == name) with
    | nil => rw [all] at named; cases named
    | cons first rest =>
      rw [all] at answer
      unfold earliest? at answer
      split at answer
      · split at answer <;> cases answer
      · cases answer
  | some record =>
    obtain ⟨there, named⟩ := record?_mem answer
    obtain ⟨seen, listed, sees⟩ := exists_mem_of_forall₂ shows.classes there
    refine ⟨some seen, ⟨listed, sees.name ▸ named, fun other listedOther same => ?_⟩, .some sees⟩
    obtain ⟨another, thereToo, seesToo⟩ := exists_mem_of_forall₂ shows.classes.flip listedOther
    rw [← sees.order, ← Sees.order seesToo]
    exact earliest?_le answer another
      (List.mem_filter.mpr ⟨thereToo, by simp [Sees.name seesToo, same]⟩)

/-! Answers, as they are read from the class that is seen. -/

section Answers
variable {α : Type} (sees : Option.Rel table.Sees (table.record? name) found)
include sees

theorem bind_record?_seen {read : ClassRecord → Option α} {option : SeenClass → Option α}
    (same : ∀ {record seen}, table.Sees record seen → read record = option seen) :
    (table.record? name).bind read = found.bind option := by
  generalize table.record? name = record at sees ⊢
  cases sees with
  | none => rfl
  | some sees => exact same sees

theorem map_record?_seen {read : ClassRecord → α} {all : SeenClass → α}
    (same : ∀ {record seen}, table.Sees record seen → read record = all seen) :
    (table.record? name).map read = found.map all := by
  rw [Option.map_eq_bind, Option.map_eq_bind]
  exact bind_record?_seen sees fun sees => congrArg some (same sees)

theorem lookup?_seen : table.lookup? name = found.map (·.symbol) := by
  rw [lookup?, lookupClass?, Option.bind_map, Option.map_eq_bind]
  exact bind_record?_seen sees (·.symbol)

theorem lookupClass?_seen : (table.lookupClass? name).bind table.placeOf = found.map
    (·.symbol.place) := by
  rw [lookupClass?, Option.bind_map, Option.map_eq_bind]
  exact bind_record?_seen sees fun sees => congrArg (Option.map Symbol.place) sees.symbol

/-- Members, told by their places. -/
theorem findMembers_seen (test : Symbol → Bool) : (table.findMembers name test).map
    (Prod.map table.placeOf id) = (((found.map (·.members)).getD []).filter test).map fun symbol =>
      (some symbol.place, symbol) := by
  have listed {numbers : List Nat} {symbols : List Symbol}
      (all : List.Forall₂ (fun (number : Nat) symbol => table.symbols[number]? = some symbol)
        numbers symbols) :
      numbers.filterMap (table.member? test (Prod.map table.placeOf id)) =
        (symbols.filter test).map fun symbol => (some symbol.place, symbol) := by
    induction all with
    | nil => rfl
    | @cons number symbol numbers symbols stored _ ih =>
      rw [List.filterMap_cons, List.filter_cons, ih]
      by_cases passes : test symbol <;> simp [member?, placeOf, stored, passes]
  rw [findMembers_map]
  generalize table.record? name = record at sees ⊢
  cases sees with
  | none => rfl
  | some sees => exact listed sees.members

end Answers

/-! Declarations of a name, in order. -/

theorem insertDeclaration_eq (record : ClassRecord) : ∀ records : List ClassRecord,
    insertDeclaration record records = records.orderedInsert
      (fun first second => toLex first.order ≤ toLex second.order) record
  | [] => rfl
  | next :: rest => by
    rw [insertDeclaration, List.orderedInsert_cons, insertDeclaration_eq record rest]
    by_cases before : toLex next.order < toLex record.order
    · rw [if_pos (declaredBefore_iff.mpr before), if_neg before.not_ge]
    · rw [if_neg (before ∘ declaredBefore_iff.mp), if_pos (not_lt.mp before)]

theorem foldr_insertDeclaration (records : List ClassRecord) : records.foldr insertDeclaration [] =
    records.insertionSort fun first second => toLex first.order ≤ toLex second.order :=
  congrArg (List.foldr · [] records) (funext fun record => funext (insertDeclaration_eq record))

theorem orders_seen (shows : table.Shows seens) (name : Name) :
    (table.classes.filter (·.name == name)).map (toLex ·.order) = SeenClass.places name seens := by
  unfold SeenClass.places
  obtain ⟨-, classes, -⟩ := shows
  generalize table.classes = records at classes ⊢
  induction classes with
  | nil => rfl
  | cons sees _ ih =>
    rw [List.filter_cons, List.filter_cons, ← sees.name]
    split
    · rw [List.map_cons, List.map_cons, ih, sees.order]
    · exact ih

theorem declarations_seen (shows : table.Shows seens) (name : Name) :
    (table.declarations name).map table.placeOf =
      ((SeenClass.places name seens).insertionSort (· ≤ ·)).map fun place =>
        some (ofLex place) := by
  let order : ClassRecord → ClassRecord → Prop := fun first second =>
    toLex first.order ≤ toLex second.order
  let named := table.classes.filter (·.name == name)
  have placed : ∀ record ∈ named.insertionSort order,
      table.placeOf record.symbol = some (ofLex (toLex record.order)) := by
    intro record listed
    have there := List.mem_of_mem_filter ((List.mem_insertionSort order).mp listed)
    obtain ⟨seen, _, sees⟩ := exists_mem_of_forall₂ shows.classes there
    rw [placeOf, sees.symbol, sees.order]
    rfl
  calc (table.declarations name).map table.placeOf
    _ = (named.insertionSort order).map fun record => table.placeOf record.symbol := by
      rw [declarations, foldr_insertDeclaration, List.map_map]
      rfl
    _ = (named.insertionSort order).map fun record => some (ofLex (toLex record.order)) :=
      List.map_congr_left placed
    _ = ((named.map (toLex ·.order)).insertionSort (· ≤ ·)).map fun place =>
      some (ofLex place) := by
      rw [← List.map_insertionSort order (· ≤ ·) (toLex ·.order) named fun _ _ _ _ => Iff.rfl,
        List.map_map]
      rfl
    _ = _ := by rw [orders_seen shows]

end SymbolTable

theorem SeenClass.sorted_places_perm {seens others : List SeenClass} (perm : seens.Perm others)
    (name : Name) : (places name seens).insertionSort (· ≤ ·) = (places name others).insertionSort
    (· ≤ ·) := by
  have same := (perm.filter fun seen => seen.symbol.name == name).map (toLex ·.symbol.place)
  refine List.Perm.eq_of_pairwise' (List.pairwise_insertionSort _ _)
    (List.pairwise_insertionSort _ _) ?_
  exact ((List.perm_insertionSort _ _).trans same).trans (List.perm_insertionSort _ _).symm

/-- The place of the class with a name that the call declares. -/
def PublishCall.classPlace? (name : Name) : PublishCall → Option (Nat ×ₗ Nat)
  | class_ symbol _ _ => if symbol.name == name then some (toLex symbol.place) else none
  | member .. | supertypes .. | signature .. => none

/-- The places of all classes with a name. -/
def PublishCall.classPlaces (name : Name) (calls : List PublishCall) : List (Nat ×ₗ Nat) :=
  calls.filterMap (classPlace? name)

/-- The classes that are seen are the ones that were declared. -/
theorem PublishCall.places_foldl (name : Name) (calls : List PublishCall) (seens : List SeenClass) :
    SeenClass.places name (calls.foldl act seens) = SeenClass.places name seens ++ classPlaces
      name calls := by
  induction calls generalizing seens with
  | nil => exact (List.append_nil _).symm
  | cons call rest ih =>
    have first : SeenClass.places name (act seens call) = SeenClass.places name seens ++
        (call.classPlace? name).toList := by
      unfold SeenClass.places act
      rw [List.filter_append, List.map_append, List.filter_map, List.map_map]
      simp only [Function.comp_def, change_name, change_place]
      congr 1
      cases call with
      | class_ symbol =>
        by_cases named : symbol.name == name <;> simp [opens, classPlace?, named]
      | member | supertypes | signature => rfl
    rw [List.foldl_cons, ih, first, List.append_assoc, classPlaces, classPlaces,
      List.filterMap_cons]
    cases call.classPlace? name <;> rfl

namespace SymbolTable
variable {table other : SymbolTable} {seens others : List SeenClass}

/-- Every query has the same answer. Symbols are told by their places. -/
structure Agrees (table other : SymbolTable) : Prop where
  lookup : ∀ name, table.lookup? name = other.lookup? name
  lookupClass : ∀ name, (table.lookupClass? name).bind table.placeOf =
    (other.lookupClass? name).bind other.placeOf
  declarations : ∀ name, (table.declarations name).map table.placeOf = (other.declarations name).map
    other.placeOf
  membersNamed : ∀ class_ name kind,
    (table.membersNamed class_ name kind).map (Prod.map table.placeOf id) =
    (other.membersNamed class_ name kind).map (Prod.map other.placeOf id)
  findMembers : ∀ class_ test, (table.findMembers class_ test).map (Prod.map table.placeOf id) =
    (other.findMembers class_ test).map (Prod.map other.placeOf id)
  classModifiers : ∀ name, table.classModifiers? name = other.classModifiers? name
  superclass : ∀ name, table.hierarchy.superclass name = other.hierarchy.superclass name
  interfaces : ∀ name, table.hierarchy.interfaces name = other.hierarchy.interfaces name
  typeParams : ∀ name, table.hierarchy.typeParams name = other.hierarchy.typeParams name
  variants : ∀ name, table.hierarchy.variants name = other.hierarchy.variants name
  isAbstract : ∀ name, table.hierarchy.isAbstract name = other.hierarchy.isAbstract name
  components : ∀ name, table.hierarchy.components name = other.hierarchy.components name

/-- Tables that show the same classes agree. -/
theorem Shows.agrees (shows : table.Shows seens) (showsOther : other.Shows others)
    (perm : seens.Perm others) :
    table.Agrees other := by
  have both (name : Name) : ∃ found, Option.Rel table.Sees (table.record? name) found ∧
      Option.Rel other.Sees (other.record? name) found := by
    obtain ⟨found, named, sees⟩ := shows.exists_named name
    obtain ⟨known, namedOther, seesOther⟩ := showsOther.exists_named name
    cases (named.perm perm).unique showsOther.apart namedOther
    exact ⟨found, sees, seesOther⟩
  have lookup (name : Name) : table.lookup? name = other.lookup? name := by
    obtain ⟨found, sees, seesOther⟩ := both name
    rw [lookup?_seen sees, lookup?_seen seesOther]
  have members (class_ : Name) (test : Symbol → Bool) :
      (table.findMembers class_ test).map (Prod.map table.placeOf id) =
      (other.findMembers class_ test).map (Prod.map other.placeOf id) := by
    obtain ⟨found, sees, seesOther⟩ := both class_
    rw [findMembers_seen sees, findMembers_seen seesOther]
  have record {α : Type} {read : ClassRecord → α} {all : SeenClass → α}
      (same : ∀ {table : SymbolTable} {record seen}, table.Sees record seen →
        read record = all seen) (name : Name) :
      (table.record? name).map read = (other.record? name).map read := by
    obtain ⟨found, sees, seesOther⟩ := both name
    rw [map_record?_seen sees same, map_record?_seen seesOther same]
  have optional {α : Type} {read : ClassRecord → Option α} {option : SeenClass → Option α}
      (same : ∀ {table : SymbolTable} {record seen}, table.Sees record seen →
        read record = option seen) (name : Name) :
      (table.record? name).bind read = (other.record? name).bind read := by
    obtain ⟨found, sees, seesOther⟩ := both name
    rw [bind_record?_seen sees same, bind_record?_seen seesOther same]
  exact {
    lookup
    lookupClass name := by
      obtain ⟨found, sees, seesOther⟩ := both name
      rw [lookupClass?_seen sees, lookupClass?_seen seesOther]
    declarations name := by
      rw [declarations_seen shows, declarations_seen showsOther, SeenClass.sorted_places_perm perm]
    membersNamed class_ name kind := members class_ _
    findMembers := members
    classModifiers name := congrArg (Option.map _) (lookup name)
    superclass := optional fun sees => sees.superclass
    interfaces name := congrArg (Option.getD · []) (record (fun sees => sees.interfaces) name)
    typeParams name := congrArg (Option.getD · []) (record (fun sees => sees.typeParams) name)
    variants := optional fun sees => sees.permits
    isAbstract name := congrArg (fun symbol => (Option.map Symbol.isAbstract symbol).getD false)
      (lookup name)
    components name := by
      have types := congrArg (List.map (·.2.type))
        (members name fun symbol => symbol.kind == .field && !symbol.isStatic)
      rwa [List.map_map, List.map_map] at types }

/-- The name refers to the earliest of the classes that are declared with it. -/
def RefersToEarliest (calls : List PublishCall) (name : Name) : Option Symbol → Prop
  | none => PublishCall.classPlaces name calls = []
  | some found => found.name = name ∧ toLex found.place ∈ PublishCall.classPlaces name calls ∧
    ∀ place ∈ PublishCall.classPlaces name calls, toLex found.place ≤ place

theorem Shows.refersToEarliest {calls : List PublishCall}
    (shows : table.Shows (calls.foldl PublishCall.act [])) (name : Name) :
    RefersToEarliest calls name (table.lookup? name) := by
  obtain ⟨found, named, sees⟩ := shows.exists_named name
  have places := PublishCall.places_foldl name calls []
  change _ = PublishCall.classPlaces name calls at places
  rw [lookup?_seen sees]
  cases found with
  | none =>
    change PublishCall.classPlaces name calls = []
    rw [← places, SeenClass.places, List.map_eq_nil_iff, List.filter_eq_nil_iff]
    exact fun seen listed same => named seen listed (eq_of_beq same)
  | some seen =>
    obtain ⟨listed, same, least⟩ := named
    change seen.symbol.name = name ∧ toLex seen.symbol.place ∈ _ ∧ ∀ place ∈ _,
      toLex seen.symbol.place ≤ place
    rw [← places]
    refine ⟨same, List.mem_map_of_mem (List.mem_filter.mpr ⟨listed, beq_iff_eq.mpr same⟩),
      fun place there => ?_⟩
    obtain ⟨another, listedOther, rfl⟩ := List.mem_map.mp there
    obtain ⟨inAll, sameOther⟩ := List.mem_filter.mp listedOther
    exact least another inAll (eq_of_beq sameOther)

theorem empty_shows : ({} : SymbolTable).Shows [] := ⟨.nil, .nil, .nil⟩

/-- Queries do not depend on the order of publication. Let every call refer to what was declared
before, and nothing be declared twice. Then the calls succeed, and so do they in any order that
keeps what belongs to one class in order, and both tables answer alike. A name refers to the
earliest of its classes. -/
theorem publication_order_unobservable {calls others : List PublishCall}
    (inOrder : InOrder [] calls) (distinct : (calls.filterMap PublishCall.declares?).Nodup)
    (interleaves : PublishCall.Interleaves calls others) :
    ∃ table other, ({} : SymbolTable).publishAll calls = .ok table ∧
    ({} : SymbolTable).publishAll others = .ok other ∧
      table.Agrees other ∧ ∀ name, RefersToEarliest calls name (table.lookup? name) := by
  have distinctOther : (others.filterMap PublishCall.declares?).Nodup :=
    (interleaves.perm.filterMap PublishCall.declares?).nodup_iff.mp distinct
  obtain ⟨table, ran⟩ := (publishAll_ok_iff empty_shows distinct).mpr inOrder
  obtain ⟨other, ranOther⟩ :=
    (publishAll_ok_iff empty_shows distinctOther).mpr (inOrder.interleave interleaves)
  have shows := (publishAll_shows empty_shows distinct ran).1
  have showsOther := (publishAll_shows empty_shows distinctOther ranOther).1
  exact ⟨table, other, ran, ranOther, shows.agrees showsOther interleaves.act_perm,
    shows.refersToEarliest⟩

/-- A class `Point` with a superclass, and its field `x`. -/
def pointCalls (unit : Nat) : List PublishCall :=
  [.class_
      { name := "Point", kind := .class_, unit, member := 0, access := .public_, span := .dummy }
      [] none,
    .member (unit, 0)
      { name := "x", kind := .field, unit, member := 1, owner := "Point", access := .private_,
        span := .dummy },
    .supertypes (unit, 0) (some ⟨7⟩) [],
    .signature (unit, 1) { type := .int }]

/-- Two units at the same time. -/
theorem publication_order_unobservable_points :
    ∃ table other, ({} : SymbolTable).publishAll (pointCalls 1 ++ pointCalls 0) = .ok table ∧
      ({} : SymbolTable).publishAll
        (List.zipWith (fun first second => [first, second]) (pointCalls 0) (pointCalls 1)).flatten =
        .ok other ∧
      table.Agrees other ∧ ∀ name,
        RefersToEarliest (pointCalls 1 ++ pointCalls 0) name (table.lookup? name) := by
  have distinct : ((pointCalls 1 ++ pointCalls 0).filterMap PublishCall.declares?).Nodup := by
    decide
  obtain ⟨table, ran, -⟩ :=
    Except.exists_ok (({} : SymbolTable).publishAll (pointCalls 1 ++ pointCalls 0))
    (·.size = 4) (by decide +kernel)
  have inOrder := (@publishAll_ok_iff {} [] (pointCalls 1 ++ pointCalls 0) empty_shows distinct).mp
    ⟨table, ran⟩
  refine publication_order_unobservable inOrder distinct
    ⟨fun place => (place.1, 0), ?_, fun place => ?_⟩
  · simp [pointCalls, PublishCall.Joins, PublishCall.place, PublishCall.refers?, Symbol.place]
  · by_cases first : (0, 0) = place
    · subst first
      rfl
    · by_cases second : (1, 0) = place
      · subst second
        rfl
      · simp [PublishCall.callsOf, pointCalls, PublishCall.place, Symbol.place, first, second]

end SymbolTable
end ClassLang
