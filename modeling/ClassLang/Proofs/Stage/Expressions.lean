import ClassLang.Proofs.Stage.Overload
import ClassLang.Proofs.Stage.Signatures
import ClassLang.Stage.Bodies

/-! The type of one expression from the types of its parts: whatever is wrong with it, there is a
type of the pool to go on with. -/

namespace ClassLang

/-- The scope of a body is declared and its class has a type. -/
structure BodySite.HeldBy (site : BodySite) (pool : TypePool) : Prop where
  scope : ∀ entry ∈ site.scope, pool.Declares entry.2
  classType : pool.Has site.classType

theorem BodySite.HeldBy.grow {site : BodySite} {before after : TypePool} (held : site.HeldBy before)
    (growth : before.Growth after) : site.HeldBy after :=
  ⟨fun entry member => growth.declares (held.scope entry member), growth.has held.classType⟩

namespace BodyM
open TypePool Workspace CompilationUnit StageM

variable {total : Prop} {work : Workspace} {site : BodySite} {index : Nat} {span : Span}

theorem isLenient_asks {type : TypeRef} (held : work.pool.Has type) :
    Asks total (isLenient type) work fun _ _ => True :=
  Works.answer (fun _ => held.isLenient_eq) fun _ _ => trivial

theorem resolveAs_works {resolution : Resolution}
    (bound : ∀ symbol ∈ resolution.symbol?, symbol < work.symbols.size) :
    Works total (Leads Records) (resolveAs index resolution) work fun _ _ => True := by
  refine Works.ofSound fun sound => ?_
  refine (Works.record ⟨rfl, .refl _, fun _ kept => kept⟩ { sound.recorded with
    resolutions := fun other found symbol read refers => ?_ }).mono fun _ _ _ _ _ => trivial
  rw [IdMap.get?_insert] at read
  split at read
  · cases read
    exact bound symbol refers
  · exact sound.recorded.resolutions other found symbol read refers

theorem useSymbol_works {resolution : Resolution}
    (bound : ∀ symbol ∈ resolution.symbol?, symbol < work.symbols.size) (symbol : Symbol) :
    Works total (Leads Records) (useSymbol site index resolution symbol span) work
      fun _ _ => True := by
  refine Works.bind (resolveAs_works bound) fun _ _ _ _ _ => ?_
  dsimp only
  split
  · exact Works.asks (Works.report rfl)
  · exact Works.pure trivial

theorem isSupertype_asks {first second : TypeRef} (firstHere : work.pool.Has first)
    (secondHere : work.pool.Has second) :
    Asks total (StageM.withClasses (·.isSupertype first second)) work fun _ _ => True := by
  refine Works.ofSound fun sound => ?_
  have asked := ClassHierarchy.isSupertype_settles sound.hierarchy firstHere secondHere
  exact Works.get (Works.builds asked)

theorem expect_asks {expected found : TypeRef} (expectedHere : work.pool.Has expected)
    (foundHere : work.pool.Has found) (span : Span) :
    Asks total (expect expected found span) work fun _ _ => True := by
  refine Works.bind (isSupertype_asks expectedHere foundHere) fun fits between led sound _ => ?_
  have growth := led.growth sound
  cases fits with
  | true => exact Works.pure trivial
  | false => exact Works.mismatch (growth.has expectedHere) (growth.has foundHere) span

theorem join_asks {first second : TypeRef} (firstHere : work.pool.Has first)
    (secondHere : work.pool.Has second) :
    Asks total (join first second) work fun type after => after.pool.Has type := by
  unfold join
  split
  · exact Works.pure firstHere
  split
  · exact Works.pure secondHere
  refine Works.bind (isSupertype_asks firstHere secondHere) fun above between led sound _ => ?_
  have firstThere := (led.growth sound).has firstHere
  have secondThere := (led.growth sound).has secondHere
  cases above with
  | true => exact Works.pure firstThere
  | false =>
    refine Works.bind (isSupertype_asks secondThere firstThere)
      fun below after more soundAfter _ => ?_
    cases below with
    | true => exact Works.pure ((more.growth soundAfter).has secondThere)
    | false => exact Works.pure soundAfter.valid.has_any

theorem classTypeOf_asks {type : TypeRef} (held : work.pool.Has type) :
    Asks total (classTypeOf type) work fun result after => after.pool.Has result := by
  refine Works.ofSound fun sound => ?_
  obtain ⟨entry, found⟩ := held.lookup
  refine Works.inspect (fun _ => ⟨entry, node_eq found⟩) fun node read => ?_
  rw [node_eq found] at read
  cases read
  split
  · exact Works.answer (fun _ => (sound.valid.named _ _ _ found).upperBound_eq)
      fun bound asked => sound.valid.has_upperBound asked
  · exact Works.pure (sound.valid.has_bound found)
  · exact Works.pure held

theorem findField?_asks {receiver : TypeRef} (held : work.pool.Has receiver) (name : Name) :
    Asks total (findField? receiver name) work fun found after =>
      ∀ entry ∈ found, entry.1 < after.symbols.size ∧ after.pool.Has entry.2.2 := by
  refine Works.bind (classTypeOf_asks held) fun classType first _ sound classHere => ?_
  refine Works.get ?_
  have listing : PoolM.Builds (first.hierarchy.ancestors classType) first.pool
      fun ancestors after => ∀ ancestor ∈ ancestors, after.Has ancestor :=
    (PoolM.Builds.ancestors classHere sound.hierarchy).mono fun _ _ _ listed => listed.has
  refine Works.bind (Works.withClasses (listing.works total))
    fun ancestors second led _ listed => ?_
  refine Works.findSomeM? fun ancestor member third more soundThird => ?_
  have bindings : PoolM.Builds (first.symbols.ancestorBindings ancestor) third.pool
      fun found after => ∀ entry ∈ found, entry.2.HeldBy after :=
    SymbolTable.ancestorBindings_builds ((more.growth soundThird).has (listed ancestor member))
  refine Works.bind (Works.builds bindings) fun found fourth last soundFourth bound => ?_
  have sameTable : fourth.symbols = first.symbols :=
    last.symbols.trans (more.symbols.trans led.symbols)
  cases found with
  | none => exact Works.pure (by simp)
  | some entry =>
    dsimp only
    split
    · exact Works.pure (by simp)
    · rename_i id symbol rest listedMembers
      have found : first.symbols.symbols[id]? = some symbol :=
        SymbolTable.mem_findMembers (listedMembers ▸ List.mem_cons_self)
      have typeHere := soundFourth.program.symbols.has_type soundFourth.valid (sameTable ▸ found)
      refine Works.bind (Works.builds (PoolM.Builds.instantiated typeHere (bound entry rfl)))
        fun type after final _ resultHere => Works.pure fun entry same => ?_
      cases same
      refine ⟨?_, resultHere⟩
      rw [final.symbols, sameTable]
      exact (Array.getElem?_eq_some_iff.mp found).1

theorem noMember_asks {receiver : TypeRef} (held : work.pool.Has receiver) (name : Name)
    (span : Span) : Asks total (noMember receiver name span) work fun _ _ => True :=
  Works.bind (Works.display held) fun _ _ _ _ _ => Works.report rfl

theorem ident_works (held : site.HeldBy work.pool) {locals : Locals}
    (localsHere : ∀ entry ∈ locals, work.pool.Has entry.2) (name : Name) :
    Works total (Leads Records) (ident site locals index name span) work fun type after =>
      after.pool.Has type := by
  unfold ident
  cases bound : locals.lookup name with
  | some type =>
    have inPool : work.pool.Has type := by
      obtain ⟨before, after, same, _⟩ := List.lookup_eq_some_iff.mp bound
      exact localsHere (name, type) (by simp [same])
    refine Works.bind (resolveAs_works (by simp [Resolution.symbol?])) fun _ _ led sound _ => ?_
    exact Works.pure ((led.growth sound).has inPool)
  | none =>
    refine Works.bind (Works.asks (findField?_asks held.classType name))
      fun field first _ _ facts => ?_
    cases field with
    | some entry =>
      obtain ⟨inside, inPool⟩ := facts entry rfl
      refine Works.bind (useSymbol_works (by simpa [Resolution.symbol?] using inside) entry.2.1)
        fun _ _ led sound _ => ?_
      exact Works.pure ((led.growth sound).has inPool)
    | none =>
      refine Works.ofSound fun sound => Works.get ?_
      dsimp only
      cases found : first.symbols.lookupClass? name with
      | some id =>
        have inside := sound.program.symbols.lookupClass?_lt found
        refine Works.lift (fun _ => SymbolTable.get_ok inside) fun symbol _ => ?_
        refine Works.bind (useSymbol_works (by simpa [Resolution.symbol?] using inside) symbol)
          fun _ _ _ _ _ => ?_
        exact (Works.asks (Works.builds (PoolM.Builds.class_ name))).mono
          fun _ _ _ _ denotes => denotes.has
      | none =>
        refine Works.bind (Works.asks (Works.report rfl)) fun _ _ _ _ _ => ?_
        refine Works.bind (resolveAs_works (by simp [Resolution.symbol?])) fun _ _ _ _ _ => ?_
        exact (Works.asks (Works.builds (PoolM.Builds.unresolved name))).mono
          fun _ _ _ _ denotes => denotes.has

theorem field_works {receiver : TypeRef} (held : work.pool.Has receiver) (name : Name) :
    Works total (Leads Records) (field site index receiver name span) work fun type after =>
      after.pool.Has type := by
  refine Works.bind (Works.asks (isLenient_asks held)) fun lenient first led sound _ => ?_
  have hereFirst := (led.growth sound).has held
  cases lenient with
  | true => exact Works.pure sound.valid.has_any
  | false =>
    refine Works.bind (Works.asks (findField?_asks hereFirst name))
      fun found second more soundSecond facts => ?_
    cases found with
    | some entry =>
      obtain ⟨inside, typeHere⟩ := facts entry rfl
      refine Works.bind (useSymbol_works (by simpa [Resolution.symbol?] using inside) entry.2.1)
        fun _ _ last soundLast _ => ?_
      exact Works.pure ((last.growth soundLast).has typeHere)
    | none =>
      refine Works.bind (Works.asks (noMember_asks ((more.growth soundSecond).has hereFirst) name
        span)) fun _ _ _ soundLast _ => ?_
      exact Works.pure soundLast.valid.has_any

theorem call_works {receiver : TypeRef} (held : work.pool.Has receiver) (method : Name)
    {args : List TypeRef} (argsHere : ∀ arg ∈ args, work.pool.Has arg) :
    Works total (Leads Records) (call site index receiver method args span) work fun type after =>
      after.pool.Has type := by
  refine Works.bind (Works.asks (isLenient_asks held)) fun lenient first led sound _ => ?_
  have growth := led.growth sound
  cases lenient with
  | true => exact Works.pure sound.valid.has_any
  | false =>
    refine Works.bind (Works.asks (classTypeOf_asks (growth.has held)))
      fun classType second more soundSecond classHere => ?_
    have grown := growth.trans (more.growth soundSecond)
    refine Works.get ?_
    refine Works.bind (Works.asks (Works.builds (SymbolTable.selectOverload_builds
      soundSecond.program.symbols classHere method fun arg member =>
        grown.has (argsHere arg member))))
      fun outcome third last soundThird selected => ?_
    have whole := grown.trans (last.growth soundThird)
    have unresolved : ∀ between : Workspace, Works total (Leads Records) (do
        resolveAs index .unresolved
        return .any : StageM TypeRef) between fun type after => after.pool.Has type :=
      fun _ => Works.bind (resolveAs_works (by simp [Resolution.symbol?]))
        fun _ _ _ soundAfter _ => Works.pure soundAfter.valid.has_any
    cases outcome with
    | ok selection =>
      have heldBy := selected selection rfl
      have reporting : Asks total (selection.unbound.forM (StageM.reportFault span)) third
          fun _ after => True :=
        Works.forM trivial fun fault member between asked soundBetween _ =>
          Works.reportFault ((heldBy.unbound fault member).grow (asked.growth soundBetween)) span
      refine Works.bind (Works.asks reporting) fun _ fourth further soundFourth _ => ?_
      refine Works.lift (fun _ => SymbolTable.get_ok heldBy.symbol) fun symbol _ => ?_
      have inside : selection.id < fourth.symbols.size := by
        rw [further.symbols, last.symbols]
        exact heldBy.symbol
      refine Works.bind (useSymbol_works (by simpa [Resolution.symbol?] using inside) symbol)
        fun _ _ final soundFinal _ => ?_
      exact Works.pure
        ((final.growth soundFinal).has ((further.growth soundFourth).has heldBy.result))
    | error fault =>
      cases fault with
      | noSuchMethod =>
        refine Works.bind (Works.asks (noMember_asks (whole.has held) method span))
          fun _ _ _ soundLast _ => ?_
        exact Works.pure soundLast.valid.has_any
      | noneApplicable =>
        have shown : Asks total (args.mapM StageM.display) third fun texts _ =>
          ∀ text ∈ texts, True :=
          Works.mapM (fun _ _ _ _ _ _ => trivial) fun arg member between asked soundBetween =>
            Works.display ((asked.growth soundBetween).has (whole.has (argsHere arg member)))
        refine Works.bind (Works.asks shown) fun _ _ _ _ _ => ?_
        exact Works.bind (Works.asks (Works.report rfl)) fun _ between _ _ _ => unresolved between
      | ambiguous count =>
        exact Works.bind (Works.asks (Works.report rfl)) fun _ between _ _ _ => unresolved between

theorem newInstance_works (held : site.HeldBy work.pool) (type : TypeExpr) :
    Works total (Leads Records) (newInstance site index type span) work fun type after =>
      after.pool.Has type := by
  refine Works.bind (TypeSite.resolve_works type work held.scope) ?_
  rintro type first _ sound ⟨⟨inPool, _⟩, _⟩
  refine Works.inspect (fun _ => ⟨_, sound.valid.baseName?_eq inPool⟩) fun base _ => ?_
  cases base with
  | none => exact Works.pure inPool
  | some base =>
    refine Works.get ?_
    dsimp only
    cases found : first.symbols.lookupClass? base with
    | none => exact Works.pure inPool
    | some id =>
      have inside := sound.program.symbols.lookupClass?_lt found
      refine Works.lift (fun _ => SymbolTable.get_ok inside) fun symbol _ => ?_
      have use : ∀ between : Workspace, first.Leads Records between → between.Sound →
          Works total (Leads Records) (do
            useSymbol site index (.class_ id) symbol span
            return type) between fun type after => after.pool.Has type := by
        intro between led soundBetween
        have insideNow : id < between.symbols.size := led.symbols ▸ inside
        refine Works.bind (useSymbol_works (by simpa [Resolution.symbol?] using insideNow) symbol)
          fun _ _ more soundAfter _ => ?_
        exact Works.pure ((more.growth soundAfter).has ((led.growth soundBetween).has inPool))
      split
      · exact Works.bind (Works.asks (Works.report rfl)) fun _ between led soundBetween _ =>
          use between led soundBetween
      · exact use first (refl_of _ _) sound

/-- Wrong operands are reported. -/
theorem expectNumeric_asks (op : BinaryOp) {operands : List (TypeRef × Span)}
    (held : ∀ operand ∈ operands, work.pool.Has operand.1) :
    Asks total (expectNumeric op operands) work fun _ _ => True := by
  have reporting : Asks total ((operands.filter fun operand => !isNumeric op operand.1).forM
      fun operand => StageM.mismatch .int operand.1 operand.2) work fun _ _ => True :=
    Works.forM trivial fun operand member between asked sound _ =>
      Works.mismatch (sound.valid.has_primitive rfl)
        ((asked.growth sound).has (held operand (List.mem_filter.mp member).1)) operand.2
  exact Works.bind reporting fun _ _ _ _ _ => Works.pure trivial

/-- Arithmetic and comparison, once it is known whether an operand excuses the other. -/
theorem arithmetic_asks (op : BinaryOp) {left right : TypeRef × Span}
    (leftHere : work.pool.Has left.1) (rightHere : work.pool.Has right.1) (lenient : Bool) :
    Asks total (if lenient then return if op.isComparison then .bool else .any
      else if op = .add ∧ (left.1 = .string ∨ right.1 = .string) then return .string
      else do
        let numeric ← expectNumeric op [left, right]
        if op.isComparison then return .bool
        else if !numeric then return .any
        else return if left.1 = .float ∨ right.1 = .float then .float else .int : StageM TypeRef)
      work fun type after => after.pool.Has type := by
  refine Works.ofSound fun sound => ?_
  split
  · refine Works.pure (sound.valid.has_primitive ?_)
    split <;> rfl
  split
  · exact Works.pure (sound.valid.has_primitive rfl)
  have operands : ∀ operand ∈ [left, right], work.pool.Has operand.1 := by
    simpa using ⟨leftHere, rightHere⟩
  refine Works.bind (expectNumeric_asks op operands) fun numeric _ _ soundAfter _ => ?_
  split
  · exact Works.pure (soundAfter.valid.has_primitive rfl)
  split
  · exact Works.pure soundAfter.valid.has_any
  · refine Works.pure (soundAfter.valid.has_primitive ?_)
    split <;> rfl

theorem binary_asks (op : BinaryOp) {left right : TypeRef × Span} (leftHere : work.pool.Has left.1)
    (rightHere : work.pool.Has right.1) :
    Asks total (binary op left right) work fun type after => after.pool.Has type := by
  refine Works.ofSound fun sound => ?_
  unfold binary
  split
  · refine Works.bind (expect_asks (sound.valid.has_primitive rfl) leftHere left.2)
      fun _ first led soundFirst _ => ?_
    refine Works.bind (expect_asks (soundFirst.valid.has_primitive rfl)
      ((led.growth soundFirst).has rightHere) right.2) fun _ _ _ soundAfter _ => ?_
    exact Works.pure (soundAfter.valid.has_primitive rfl)
  split
  · exact Works.pure (sound.valid.has_primitive rfl)
  refine Works.bind (isLenient_asks leftHere) fun leftLenient first led soundFirst _ => ?_
  have growth := led.growth soundFirst
  cases leftLenient with
  | true => exact arithmetic_asks op (growth.has leftHere) (growth.has rightHere) true
  | false =>
    refine Works.bind (isLenient_asks (growth.has rightHere))
      fun lenient second more soundSecond _ => ?_
    have whole := growth.trans (more.growth soundSecond)
    exact arithmetic_asks op (whole.has leftHere) (whole.has rightHere) lenient

theorem unary_asks (op : UnaryOp) {operand : TypeRef} (held : work.pool.Has operand) (span : Span) :
    Asks total (unary op operand span) work fun type after => after.pool.Has type := by
  refine Works.bind (isLenient_asks held) fun lenient first led sound _ => ?_
  have hereFirst := (led.growth sound).has held
  have wrong : Asks total (do
      StageM.mismatch .int operand span
      return .any : StageM TypeRef) first fun type after => after.pool.Has type :=
    Works.bind (Works.mismatch (sound.valid.has_primitive rfl) hereFirst span)
      fun _ _ _ soundAfter _ => Works.pure soundAfter.valid.has_any
  cases lenient with
  | true =>
    refine Works.pure ?_
    split
    · exact sound.valid.has_primitive rfl
    · exact hereFirst
  | false =>
    cases op with
    | not =>
      exact Works.bind (expect_asks (sound.valid.has_primitive rfl) hereFirst span)
        fun _ _ _ soundAfter _ => Works.pure (soundAfter.valid.has_primitive rfl)
    | neg | bitNot =>
      rw [if_neg Bool.false_ne_true]
      dsimp only
      split
      · exact Works.pure hereFirst
      · exact wrong

end BodyM
end ClassLang
