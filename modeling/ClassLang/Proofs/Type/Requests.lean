import ClassLang.Proofs.Type.Entries
import ClassLang.Proofs.Type.Instantiation
import ClassLang.Proofs.Type.Params
import Mathlib.Logic.Relation

/-! A pool as its clients see it: they hold the handles it gave out and those they read in its
entries, and ask for more types. Whatever they ask, equal handles are equal types. -/

namespace ClassLang

/-- What a pool can be asked for. -/
inductive PoolRequest where
  | class_ (name : Name)
  | applied (base : Name) (args : List TypeRef)
  | var (param : ParamRef)
  | wildcard (variance : Variance) (bound : TypeRef)
  | anyWildcard
  | unresolved (name : Name)
  | declareParam (name owner : Name) (variance : Variance)
  | setBounds (param : ParamRef) (bounds : List TypeRef)
  | instantiate (type : TypeRef) (subst : Substitution)
deriving Repr, DecidableEq

/-- What a pool gives out for a request. -/
inductive PoolAnswer where
  | type (type : TypeRef)
  | param (param : ParamRef)
  | done
deriving Repr, DecidableEq

namespace PoolRequest

/-- The types a request names. -/
def types : PoolRequest → List TypeRef
  | applied _ args => args
  | wildcard _ bound => [bound]
  | setBounds _ bounds => bounds
  | instantiate type subst => type :: subst.bindings.map Prod.snd
  | _ => []

/-- The parameters a request names. -/
def params : PoolRequest → List ParamRef
  | var param | setBounds param _ => [param]
  | instantiate _ subst => subst.bindings.map Prod.fst
  | _ => []

def perform : PoolRequest → PoolM PoolAnswer
  | class_ name => return .type (← PoolM.class_ name)
  | applied base args => return .type (← PoolM.applied base args)
  | var param => return .type (← PoolM.var param)
  | wildcard variance bound => return .type (← PoolM.wildcard variance bound)
  | anyWildcard => return .type (← PoolM.anyWildcard)
  | unresolved name => return .type (← PoolM.unresolved name)
  | declareParam name owner variance => return .param (← PoolM.declareParam name owner variance)
  | setBounds param bounds => do
    PoolM.setBounds param bounds
    return .done
  | .instantiate type subst => return .type (← ClassLang.instantiate type subst)

end PoolRequest

/-- A pool and what it gave out. -/
structure PoolClient where
  pool : TypePool := {}
  given : List PoolAnswer := []
deriving Repr, DecidableEq

namespace PoolClient

/-- The client has the handle of a type: it is primitive, was given out, or stands in an entry that
can be read. -/
inductive HasType (client : PoolClient) : TypeRef → Prop where
  | primitive {type : TypeRef} (primitive : type.isPrimitive = true) : HasType client type
  | given {type : TypeRef} (given : .type type ∈ client.given) : HasType client type
  | part {type part : TypeRef} {node : TypeNode} (whole : HasType client type)
    (read : client.pool.node type = .ok node) (member : part ∈ node.parts) : HasType client part

/-- The client has the number of a parameter: it was given out, or read in the entry of a
variable. -/
inductive HasParam (client : PoolClient) : ParamRef → Prop where
  | given {param : ParamRef} (given : .param param ∈ client.given) : HasParam client param
  | var {type : TypeRef} {param : ParamRef} {variance : Variance} (known : client.HasType type)
    (read : client.pool.node type = .ok (.var param variance)) : HasParam client param

/-- The client can ask: it has every handle that the request names. -/
structure Offers (client : PoolClient) (request : PoolRequest) : Prop where
  types : ∀ type ∈ request.types, client.HasType type
  params : ∀ param ∈ request.params, client.HasParam param

/-- One request is answered. -/
inductive Step : PoolClient → PoolClient → Prop where
  | ask {client : PoolClient} {request : PoolRequest} {answer : PoolAnswer} {after : TypePool}
    (offers : client.Offers request)
    (answered : request.perform.run client.pool = .ok (answer, after)) :
    Step client ⟨after, client.given ++ [answer]⟩

/-- `after` comes from `before` by requests. -/
def Reaches : PoolClient → PoolClient → Prop := Relation.ReflTransGen Step

end PoolClient

/-- What is given out is there. -/
def PoolAnswer.HeldBy (pool : TypePool) : PoolAnswer → Prop
  | .type handle => pool.Has handle
  | .param number => pool.Declares number
  | .done => True

theorem PoolAnswer.HeldBy.grow {before after : TypePool} {answer : PoolAnswer}
    (held : answer.HeldBy before) (within : before.Within after) : answer.HeldBy after := by
  cases answer with
  | type => exact within.has held
  | param => exact within.declares held
  | done => trivial

namespace TypePool

/-- A variable has the declared variance of its parameter. -/
def Varies (pool : TypePool) : TypeNode → Prop
  | .var param variance => (pool.params[param.raw]?).map (·.variance) = some variance
  | _ => True

theorem varies_substitutable (pool : TypePool) : Substitutable pool.Varies :=
  ⟨fun _ _ => trivial, fun _ _ _ _ _ => trivial⟩

/-- A valid pool in which every variable has its declared variance. -/
structure Faithful (pool : TypePool) : Prop where
  valid : pool.Valid
  varies : pool.Only pool.Varies

instance (pool : TypePool) : DecidablePred pool.Varies
  | .var param variance => inferInstanceAs
      (Decidable ((pool.params[param.raw]?).map (·.variance) = some variance))
  | .any | .void | .int | .float | .bool | .char | .string | .class_ _ | .applied _ _ | .wildcard _
      _ | .unresolved _ =>
    isTrue trivial

/-- Faithfulness, entry by entry. -/
theorem faithful_iff_checks {pool : TypePool} :
    pool.Faithful ↔ pool.Valid ∧ ∀ node ∈ pool.types.toList, pool.Varies node := by
  constructor
  · refine fun faithful => ⟨faithful.valid, fun node member => ?_⟩
    obtain ⟨index, found⟩ := List.mem_iff_getElem?.mp member
    exact faithful.varies index node (Array.getElem?_toList ▸ found)
  · refine fun ⟨valid, varies⟩ => ⟨valid, fun index node found => ?_⟩
    rw [← Array.getElem?_toList] at found
    exact varies node (List.mem_of_getElem? found)

instance (pool : TypePool) : Decidable pool.Faithful := decidable_of_iff' _ faithful_iff_checks

theorem faithful_empty : Faithful {} := by decide

/-- Parameters may be added and change their bounds, if they keep their variance. -/
theorem Faithful.withParams {before after : TypePool} (faithful : before.Faithful)
    (valid : after.Valid) (types : after.types = before.types)
    (variance : ∀ param, before.Declares param →
      (after.params[param.raw]?).map (·.variance) = (before.params[param.raw]?).map (·.variance)) :
    after.Faithful := by
  refine ⟨valid, fun index node found => ?_⟩
  rw [types] at found
  have varies := faithful.varies index node found
  cases node with
  | var param declared =>
    exact (variance param (faithful.valid.named index param declared found)).trans varies
  | _ => trivial

theorem Growth.faithful {before after : TypePool} (growth : before.Growth after)
    (only : after.Only before.Varies) : after.Faithful := by
  refine ⟨growth.valid, fun index node found => ?_⟩
  have varies := only index node found
  cases node with
  | var param variance =>
    simp only [Varies] at varies ⊢
    rwa [growth.grown.params]
  | _ => trivial

end TypePool

namespace PoolRequest
open TypePool

variable {pool : TypePool}

/-- The request is answered by something that is there, in a faithful pool with all entries that
were there before. -/
def Succeeds (action : PoolM PoolAnswer) (pool : TypePool) : Prop :=
  Completes action pool fun answer after =>
    after.Faithful ∧ pool.Within after ∧ answer.HeldBy after

/-- Entering one entry succeeds. -/
theorem intern_succeeds (faithful : pool.Faithful) {node : TypeNode} (admits : pool.Admits node)
    (varies : pool.Varies node) : Succeeds (do return .type (← PoolM.intern node)) pool := by
  obtain ⟨growth, found⟩ := intern_growth faithful.valid admits
  refine Completes.bind
    (Completes.modifyGet (Completes.pure ⟨?_, growth.within, has_of_lookup found⟩))
  exact growth.faithful (faithful.varies.intern varies)

/-- A request for what is there succeeds. -/
theorem perform_succeeds (faithful : pool.Faithful) (request : PoolRequest)
    (types : ∀ type ∈ request.types, pool.Has type)
    (params : ∀ param ∈ request.params, pool.Declares param) : Succeeds request.perform pool := by
  have plain : ∀ node : TypeNode, node.parts = [] → (∀ param variance, node ≠ .var param variance) →
      pool.Admits node ∧ pool.Varies node := by
    intro node atomic other
    refine ⟨⟨by simp [atomic], fun param variance same => absurd same (other param variance)⟩, ?_⟩
    cases node with
    | var param variance => exact absurd rfl (other param variance)
    | _ => trivial
  cases request with
  | class_ name =>
    obtain ⟨admits, varies⟩ := plain (.class_ name) rfl (by simp)
    exact intern_succeeds faithful admits varies
  | applied base args =>
    simp only [perform, PoolM.applied]
    by_cases empty : args.isEmpty = true
    · obtain ⟨admits, varies⟩ := plain (.class_ base) rfl (by simp)
      rw [if_pos empty]
      exact intern_succeeds faithful admits varies
    · have admits : pool.Admits (.applied base args) := ⟨types, by simp⟩
      rw [if_neg empty]
      exact intern_succeeds faithful admits trivial
  | var param =>
    obtain ⟨declared, stored⟩ := (params param List.mem_cons_self).lookup
    have asked : pool.param param = .ok declared := by simp [TypePool.param, stored]
    have admits : pool.Admits (.var param declared.variance) := by
      refine ⟨by simp [TypeNode.parts], fun other variance same => ?_⟩
      cases same
      exact params param List.mem_cons_self
    have varies : pool.Varies (.var param declared.variance) := by simp [Varies, stored]
    simp only [perform, PoolM.var, bind_assoc]
    refine Completes.bind (Completes.bind (Completes.get (Completes.lift asked ?_)))
    exact intern_succeeds faithful admits varies
  | wildcard variance bound =>
    exact intern_succeeds faithful ⟨types, by simp⟩ trivial
  | anyWildcard =>
    refine intern_succeeds faithful ⟨fun part member => ?_, by simp⟩ trivial
    rw [List.mem_singleton.mp member]
    exact faithful.valid.has_any
  | unresolved name =>
    obtain ⟨admits, varies⟩ := plain (.unresolved name) rfl (by simp)
    exact intern_succeeds faithful admits varies
  | declareParam name owner variance =>
    refine Completes.bind (Completes.modifyGet (Completes.pure
      ⟨?_, declareParam_within, declareParam_declares⟩))
    refine faithful.withParams faithful.valid.declareParam declareParam_types
      fun param declares => ?_
    rw [declareParam_params, if_neg (Nat.ne_of_lt declares)]
  | setBounds param bounds =>
    refine Completes.bind (Completes.modify (Completes.pure ⟨?_, setBounds_within, trivial⟩))
    exact faithful.withParams (faithful.valid.setBounds types) setBounds_types
      fun _ _ => setBounds_variance
  | instantiate type subst =>
    have inPool : pool.Has type := types type List.mem_cons_self
    have held : subst.HeldBy pool := by
      intro param bound found
      obtain ⟨first, second, split, _⟩ := List.lookup_eq_some_iff.mp found
      exact types bound
        (List.mem_cons_of_mem _ (List.mem_map.mpr ⟨(param, bound), by simp [split], rfl⟩))
    have builds := PoolM.Builds.instantiate (Denotes.self inPool) ⟨held, fun _ => rfl⟩
    obtain ⟨result, after, ran, growth, denotes⟩ := builds faithful.valid
    have keeps := PoolM.instantiate_keeps (varies_substitutable pool) type subst
    have only := (keeps.run faithful.varies ran).2.1
    refine Completes.bind ⟨result, after, ran,
      Completes.pure ⟨growth.faithful only, growth.within, ?_⟩⟩
    exact denotes.has

end PoolRequest

namespace PoolClient
open TypePool

variable {client later : PoolClient} {type : TypeRef} {param : ParamRef} {request : PoolRequest}

/-- The pool of a client is faithful, and has what it gave out. -/
structure Sound (client : PoolClient) : Prop where
  pool : client.pool.Faithful
  given : ∀ answer ∈ client.given, answer.HeldBy client.pool

theorem HasType.has (has : client.HasType type) (sound : client.Sound) : client.pool.Has type := by
  induction has with
  | primitive primitive => exact sound.pool.valid.has_primitive primitive
  | given given => exact sound.given _ given
  | part _ read member whole =>
    have below := sound.pool.valid.parts _ _ (lookup_of_node read) _ member
    exact Nat.lt_trans below whole

theorem HasParam.declares (has : client.HasParam param) (sound : client.Sound) :
    client.pool.Declares param := by
  cases has with
  | given given => exact sound.given _ given
  | var _ read => exact sound.pool.valid.named _ _ _ (lookup_of_node read)

theorem Offers.succeeds (offers : client.Offers request) (sound : client.Sound) :
    PoolRequest.Succeeds request.perform client.pool :=
  PoolRequest.perform_succeeds sound.pool request
    (fun type member => (offers.types type member).has sound)
    fun param member => (offers.params param member).declares sound

/-- A request keeps the pool faithful and every entry at its place. -/
theorem Step.keeps (step : Step client later) (sound : client.Sound) :
    later.Sound ∧ client.pool.Within later.pool := by
  cases step with
  | @ask request answer after offers answered =>
    obtain ⟨poolAnswer, final, ran, faithful, within, held⟩ := offers.succeeds sound
    rw [answered] at ran
    cases ran
    refine ⟨⟨faithful, fun other member => ?_⟩, within⟩
    rcases List.mem_append.mp member with old | new
    · exact (sound.given other old).grow within
    · rw [List.mem_singleton.mp new]
      exact held

/-- So does any number of requests. -/
theorem Reaches.keeps (reached : Reaches client later) (sound : client.Sound) :
    later.Sound ∧ client.pool.Within later.pool := by
  induction reached with
  | refl => exact ⟨sound, .refl _⟩
  | tail _ step ih =>
    obtain ⟨between, within⟩ := ih
    obtain ⟨after, more⟩ := step.keeps between
    exact ⟨after, within.trans more⟩

/-- One more request. -/
theorem Reaches.ask {answer : PoolAnswer} {after : TypePool} (reached : Reaches client later)
    (request : PoolRequest) (types : ∀ type ∈ request.types, later.HasType type)
    (params : ∀ param ∈ request.params, later.HasParam param)
    (answered : request.perform.run later.pool = .ok (answer, after)) :
    Reaches client ⟨after, later.given ++ [answer]⟩ :=
  .tail reached (.ask ⟨types, params⟩ answered)

theorem sound_new : Sound {} := ⟨faithful_empty, by simp⟩

/-- The pool keeps every type once. Whatever was asked for: no entry stands at two places, and the
map that is kept beside the entries has exactly the place of each; an entry is made of entries
before it; a variable has the declared variance of its parameter; a handle that a client has is that
of an entry, which never changes; handles are equal exactly if they stand for equal types; and every
request for handles that the client has is answered. -/
theorem pool_keeps_types_once (started : Reaches {} client) :
    (∀ (first second : Nat) (node : TypeNode), client.pool.types[first]? = some node →
      client.pool.types[second]? = some node → first = second) ∧
    (∀ (node : TypeNode) (handle : TypeRef), client.pool.dedup.lookup node = some handle ↔
      client.pool.types[handle.raw]? = some node) ∧
    (∀ (index : Nat) (node : TypeNode), client.pool.types[index]? = some node →
      ∀ part ∈ node.parts, part.raw < index) ∧
    (∀ (index : Nat) (param : ParamRef) (variance : Variance),
      client.pool.types[index]? = some (.var param variance) →
      ∃ declared, client.pool.param param = .ok declared ∧ declared.variance = variance) ∧
    (∀ type, client.HasType type → ∃ node, client.pool.node type = .ok node ∧
      ∀ later, Reaches client later → later.pool.node type = .ok node) ∧
    (∀ first second, client.pool.Has first → client.pool.Has second →
      (first = second ↔ client.pool.tree first = client.pool.tree second)) ∧
    (∀ request, client.Offers request → ∃ answer after,
      request.perform.run client.pool = .ok (answer, after) ∧ answer.HeldBy after) := by
  obtain ⟨sound, _⟩ := started.keeps sound_new
  have valid := sound.pool.valid
  refine ⟨valid.distinct, valid.lockstep, valid.parts,
    fun index param variance found => ?_, fun type has => ?_, fun first second inPool there => ?_,
    fun request offers => ?_⟩
  · have varies := sound.pool.varies index _ found
    obtain ⟨declared, stored, same⟩ := Option.map_eq_some_iff.mp varies
    exact ⟨declared, by simp [TypePool.param, stored], same⟩
  · obtain ⟨node, found⟩ := (has.has sound).lookup
    refine ⟨node, node_eq found, fun later reached => ?_⟩
    obtain ⟨_, within⟩ := reached.keeps sound
    exact node_eq (within.types.entries _ _ found)
  · exact ⟨fun same => same ▸ rfl, valid.tree_injective first second inPool there⟩
  · obtain ⟨answer, after, ran, _, _, held⟩ := offers.succeeds sound
    exact ⟨answer, after, ran, held⟩

/-- A client that declared a parameter, applied a class to its variable, and instantiated that. -/
def boxClient : PoolClient where
  pool :=
    { TypePool.pushAll {} [.var ⟨0⟩ .covariant, .applied "Box" [⟨7⟩], .applied "Box" [.int]] with
      params := #[{ name := "T", owner := "Box", variance := .covariant, bounds := [.int] }] }
  given := [.param ⟨0⟩, .type ⟨7⟩, .type ⟨8⟩, .done, .type ⟨9⟩]

theorem pool_keeps_types_once_box :
    Reaches {} boxClient ∧ boxClient.pool.find? (.applied "Box" [.int]) = some ⟨9⟩ ∧
      boxClient.pool.tree ⟨8⟩ ≠ boxClient.pool.tree ⟨9⟩ := by
  have declared : Reaches {} _ := Reaches.ask .refl (.declareParam "T" "Box" .covariant)
    (by simp [PoolRequest.types]) (by simp [PoolRequest.params]) rfl
  have variable_ := declared.ask (.var ⟨0⟩) (by simp [PoolRequest.types])
    (by simpa [PoolRequest.params] using HasParam.given List.mem_cons_self) rfl
  have generic := variable_.ask (.applied "Box" [⟨7⟩])
    (by simpa [PoolRequest.types] using HasType.given (by decide))
    (by simp [PoolRequest.params]) rfl
  have bounded := generic.ask (.setBounds ⟨0⟩ [.int])
    (by simpa [PoolRequest.types] using HasType.primitive rfl)
    (by simpa [PoolRequest.params] using HasParam.given List.mem_cons_self) rfl
  have instantiated := bounded.ask (.instantiate ⟨8⟩ ⟨[(⟨0⟩, .int)]⟩)
    (by
      intro type member
      rcases List.mem_cons.mp member with rfl | rest
      · exact .given (by decide)
      · exact .primitive (by rw [List.mem_singleton.mp rest]; rfl))
    (by simpa [PoolRequest.params] using HasParam.given List.mem_cons_self) rfl
  have reached : Reaches {} boxClient := instantiated
  obtain ⟨_, finds, _, _, _, same, _⟩ := pool_keeps_types_once reached
  refine ⟨reached, (finds _ _).mpr rfl, fun trees => ?_⟩
  have equal := (same ⟨8⟩ ⟨9⟩ (by decide) (by decide)).mpr trees
  cases equal

end PoolClient
end ClassLang
