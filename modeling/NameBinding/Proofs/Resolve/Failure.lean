import NameBinding.Proofs.Resolve.Total

/-! # What fails, and what a failure leaves behind

A demand fails because of its arguments and of the graph at hand, and not because of what comes up
while it is met. Only a document with a node below itself can keep the other ones from an answer. -/

namespace NameBinding

open SymbolGraph

namespace SymbolGraph

/-- A symbol without an instance side that is not resolved. -/
def IsUnsided (g : SymbolGraph) (x : SymbolId) : Prop :=
  g.instanceType? x = none ∧ ¬g.isResolved x

instance (g : SymbolGraph) (x : SymbolId) : Decidable (g.IsUnsided x) :=
  inferInstanceAs (Decidable (_ ∧ _))

end SymbolGraph

namespace Demand

/-- How asking for a symbol fails if there is no such symbol. -/
def failureOfUnknown? (g : SymbolGraph) (id : SymbolId) : Option (BindError × SymbolGraph) :=
  if id < g.size then none else some (.unknownSymbol id, g)

/-- How resolving a class fails. It is marked before its instance side is looked for. -/
def failureOfClass? (g : SymbolGraph) (id : SymbolId) : Option (BindError × SymbolGraph) :=
  if id < g.size ∧ g.IsUnsided id then some (.missingInstanceType id, g.setResolved id true)
  else failureOfUnknown? g id

/-- How resolving a symbol of any kind fails. -/
def failureOfSymbol? (g : SymbolGraph) (id : SymbolId) : Option (BindError × SymbolGraph) :=
  if g.kind? id = some .classType then failureOfClass? g id else failureOfUnknown? g id

/-- How asking for an array type fails. The symbol for it is made before its element type is looked
for, and can be that element type. -/
def failureOfArray? (g : SymbolGraph) (element : SymbolId) : Option (BindError × SymbolGraph) :=
  if element ≤ g.size then none
  else some (.unknownSymbol element,
    g.alloc (g.name element ++ "[]") .array (Flags.single .synthesized))

/-- How asking about a unit fails if there is no such unit. -/
def failureOfUnit? (s : Setting) (g : SymbolGraph) (unit : UnitId) :
    Option (BindError × SymbolGraph) :=
  if (s.program.unitById? unit).isSome then none else some (.unknownUnit unit, g)

/-- How a demand fails, and the graph that it leaves behind. -/
def failure? (s : Setting) (g : SymbolGraph) : Demand → Option (BindError × SymbolGraph)
  | .symbol id => failureOfSymbol? g id
  | .classType id => failureOfClass? g id
  | .module id | .interface id | .function id | .signature id | .value id | .alias id
  | .aliasTarget id => failureOfUnknown? g id
  | .arrayOf element => failureOfArray? g element
  | .path .. => none
  | .typeNode unit .. => failureOfUnit? s g unit

end Demand

namespace ResolveM

variable {setting : Setting} {g : SymbolGraph} {x : SymbolId} {α β : Type}

/-- From the graph the step does what is expected: it fails in the given way and reports nothing, or
it succeeds. -/
def Meets (setting : Setting) (g : SymbolGraph) (m : ResolveM α) :
    Option (BindError × SymbolGraph) → Prop
  | none => Succeeds setting g m
  | some (e, g') => ∀ log, m ⟨g, log⟩ = .error e ⟨g', log⟩

namespace Meets

variable {m : ResolveM α} {failure? : Option (BindError × SymbolGraph)}

theorem of_succeeds {Q : α → SymbolGraph → Prop} (h : Succeeds setting g m Q) :
    Meets setting g m none :=
  h.weaken fun _ _ _ _ _ => True.intro

theorem succeeds (h : Meets setting g m none) : Succeeds setting g m := h

theorem bind_pure (h : Meets setting g m failure?) (f : α → β) :
    Meets setting g (m >>= fun a => pure (f a)) failure? := by
  match failure? with
  | none =>
      exact .of_succeeds (Q := fun _ _ => True) (h.succeeds.bind fun _ _ ha _ _ => .pure ha True.intro)
  | some (e, g') =>
      intro log
      simp only [bind, EStateM.bind, h log]

theorem map (h : Meets setting g m failure?) (f : α → β) : Meets setting g (f <$> m) failure? := by
  rw [map_eq_pure_bind]
  exact h.bind_pure f

theorem graph_bind {f : SymbolGraph → ResolveM α} (h : Meets setting g (f g) failure?) :
    Meets setting g (graph >>= f) failure? := by
  match failure? with
  | none => exact h.succeeds.graph_bind
  | some (e, g') => exact h

theorem throw (g : SymbolGraph) (e : BindError) :
    Meets setting g (throw e : ResolveM α) (some (e, g)) := fun _ => rfl

end Meets

/-! ### Marks -/

theorem run_begin_of_unknown (hx : ¬x < g.size) (log : List Diagnostic) :
    begin x ⟨g, log⟩ = .error (.unknownSymbol x) ⟨g, log⟩ := by
  have hnone : g.get? x = none := (get?_eq_none_iff _ _).mpr (Nat.not_lt.mp hx)
  simp only [begin, graph, bind_assoc, run_get_bind, pure_bind, hnone]
  rfl

theorem run_begin_of_new (hx : x < g.size) (hnew : ¬g.isResolved x) (log : List Diagnostic) :
    begin x ⟨g, log⟩ = .ok true ⟨g.setResolved x true, log⟩ := by
  obtain ⟨s, hs⟩ := Option.isSome_iff_exists.mp ((isSome_get? g x).trans (decide_eq_true hx))
  have hunmarked : ¬s.resolved := by simpa [isResolved, hs] using hnew
  simp only [begin, graph, bind_assoc, run_get_bind, pure_bind, hs]
  rw [if_neg hunmarked]
  rfl

/-- What starts with a mark fails at once on a symbol that does not exist. -/
theorem meets_begin {work rest : ResolveM α}
    (h : x < g.size → Succeeds setting g (do if ← begin x then work else rest)) :
    Meets setting g (do if ← begin x then work else rest) (Demand.failureOfUnknown? g x) := by
  unfold Demand.failureOfUnknown?
  split
  · next hx => exact h hx
  · next hx =>
    intro log
    simp only [bind, EStateM.bind, run_begin_of_unknown hx]

/-! ### Symbols -/

/-- A class without an instance side is marked and nothing else. -/
theorem meets_resolveClass (ha : Answerable setting g) (x : SymbolId) :
    Meets setting g (resolveClass setting x) (Demand.failureOfClass? g x) := by
  unfold Demand.failureOfClass?
  split
  · next h =>
    obtain ⟨hx, hnone, hnew⟩ := h
    intro log
    have hside : (g.setResolved x true).instanceType? x = none := by
      rw [instanceType?_setResolved, hnone]
    simp only [resolveClass, resolveClassWith, run_bind_of_ok (run_begin_of_new hx hnew log),
      if_true, graph, bind_assoc, run_get_bind, pure_bind, hside]
    rfl
  · next h =>
    refine meets_begin fun hx => ?_
    cases hinst : g.instanceType? x with
    | some inst => exact succeeds_resolveClass ha hinst
    | none => exact succeeds_begin_then ha hx fun hnew => absurd ⟨hx, hinst, hnew⟩ h

theorem meets_resolveSymbol (ha : Answerable setting g) (x : SymbolId) :
    Meets setting g (resolveSymbol setting x) (Demand.failureOfSymbol? g x) := by
  unfold Demand.failureOfSymbol?
  split
  · next hk =>
    unfold resolveSymbol
    refine .graph_bind ?_
    rw [hk]
    exact meets_resolveClass ha x
  · next hk =>
    unfold Demand.failureOfUnknown?
    split
    · next hx => exact .of_succeeds (succeeds_resolveSymbol ha ⟨hx, fun h => absurd h hk⟩)
    · next hx =>
      have hnone : g.kind? x = none := Option.eq_none_iff_forall_ne_some.mpr fun kind hkind =>
        hx (lt_size_of_kind? hkind)
      unfold resolveSymbol
      refine .graph_bind ?_
      rw [hnone]
      exact .throw g _

theorem meets_resolveAlias (ha : Answerable setting g) (x : SymbolId) :
    Meets setting g (resolveAlias setting x) (Demand.failureOfUnknown? g x) := by
  have hstep := answersAliases_resolveAlias g ha x
  unfold resolveAlias at hstep ⊢
  generalize Limits.aliasDepth = hops at hstep ⊢
  cases hops with
  | zero => exact meets_begin fun hx => (hstep hx).weaken fun _ _ _ _ _ => True.intro
  | succ hops => exact meets_begin fun hx => (hstep hx).weaken fun _ _ _ _ _ => True.intro

theorem meets_aliasTarget (ha : Answerable setting g) (x : SymbolId) :
    Meets setting g (aliasTarget setting x) (Demand.failureOfUnknown? g x) := by
  refine .graph_bind ?_
  split
  · next hr =>
    rw [Demand.failureOfUnknown?, if_pos (lt_size_of_isResolved hr)]
    exact .of_succeeds (succeeds_settledTarget ha x)
  · exact meets_resolveAlias ha x

/-! ### Types -/

/-- A symbol that does not exist has no array types, so that one is made. -/
theorem meets_arrayOf (ha : Answerable setting g) (element : SymbolId) :
    Meets setting g (arrayOf element) (Demand.failureOfArray? g element) := by
  unfold Demand.failureOfArray?
  split
  · next hle => exact .of_succeeds (succeeds_arrayOf ha hle)
  · next hlt =>
    have hnone : g.arrayTypes element = [] := by
      refine List.eq_nil_iff_forall_not_mem.mpr fun array harray => hlt ?_
      exact Nat.le_of_lt (ha.mirrored.lt_size (ha.mirrored.mem_sources_iff.mp harray)).2
    have hx : ¬element < (g.alloc (g.name element ++ "[]") .array (Flags.single .synthesized)).size := by
      rw [size_alloc]
      exact fun h => hlt (Nat.le_of_lt_succ h)
    have halloc : GraphM.alloc (g.name element ++ "[]") .array (Flags.single .synthesized) g =
        .ok g.size (g.alloc (g.name element ++ "[]") .array (Flags.single .synthesized)) := rfl
    unfold arrayOf
    refine .graph_bind ?_
    rw [hnone]
    intro log
    simp only [bind, EStateM.bind, alloc, link, onGraph, halloc, GraphM.link_eq_error _ _ hx]

theorem meets_typeReference (ha : Answerable setting g) (unit : UnitId) (r : NodeRef)
    (context : List SymbolId) (enclosing : Option DeclId) :
    Meets setting g (typeReference setting unit r context enclosing)
      (Demand.failureOfUnit? setting g unit) := by
  unfold Demand.failureOfUnit?
  cases hu : setting.program.unitById? unit with
  | some u => exact .of_succeeds (succeeds_typeReference ha hu r context enclosing)
  | none =>
      unfold typeReference
      rw [hu]
      exact .throw g _

end ResolveM

namespace Demand

open ResolveM

variable {setting : Setting} {g g' : SymbolGraph} {e : BindError}

/-- Every demand that does not fail in the way that is foreseen succeeds. -/
theorem meets_run (ha : Answerable setting g) (d : Demand) :
    Meets setting g (d.run setting) (d.failure? setting g) := by
  cases d with
  | symbol id => exact (meets_resolveSymbol ha id).bind_pure _
  | module id => exact (meets_begin fun hx => succeeds_resolveModule ha hx).bind_pure _
  | classType id => exact (meets_resolveClass ha id).bind_pure _
  | interface id => exact (meets_begin fun hx => succeeds_resolveInterface ha hx).bind_pure _
  | function id => exact (meets_begin fun hx => succeeds_resolveFunction ha hx).bind_pure _
  | signature id => exact (meets_begin fun hx => succeeds_resolveSignature ha hx).bind_pure _
  | value id => exact (meets_begin fun hx => succeeds_resolveValue ha hx).bind_pure _
  | «alias» id => exact (meets_resolveAlias ha id).map some
  | aliasTarget id => exact (meets_aliasTarget ha id).map some
  | arrayOf element => exact (meets_arrayOf ha element).map some
  | path segments context enclosing meaning =>
      exact .of_succeeds (succeeds_findPath ha segments context enclosing meaning)
  | typeNode unit node context enclosing =>
      exact (meets_typeReference ha unit node context enclosing).map some

/-! ### What is left behind -/

/-- The demand leaves something behind when it fails. -/
def Spoils (g : SymbolGraph) : Demand → Prop
  | .symbol id => g.kind? id = some .classType ∧ g.IsUnsided id
  | .classType id => id < g.size ∧ g.IsUnsided id
  | .arrayOf element => g.size < element
  | _ => False

/-- The demand leaves something behind when it fails with which it does not fail again. -/
def Flips (g : SymbolGraph) : Demand → Prop
  | .arrayOf element => element = g.size + 1
  | d => d.Spoils g

theorem failureOfUnknown?_eq_some_iff {id : SymbolId} :
    failureOfUnknown? g id = some (e, g') ↔ ¬id < g.size ∧ e = .unknownSymbol id ∧ g' = g := by
  unfold failureOfUnknown?
  split <;> simp_all [eq_comm]

theorem failureOfClass?_eq_some_iff {id : SymbolId} : failureOfClass? g id = some (e, g') ↔
    id < g.size ∧ g.IsUnsided id ∧ e = .missingInstanceType id ∧ g' = g.setResolved id true ∨
      ¬id < g.size ∧ e = .unknownSymbol id ∧ g' = g := by
  unfold failureOfClass?
  split
  · next h => simp [h.1, h.2, eq_comm]
  · next h =>
    rw [failureOfUnknown?_eq_some_iff]
    tauto

theorem failureOfUnit?_eq_some_iff {unit : UnitId} : failureOfUnit? setting g unit = some (e, g') ↔
    setting.program.unitById? unit = none ∧ e = .unknownUnit unit ∧ g' = g := by
  unfold failureOfUnit?
  split
  · next hsome => simp [Option.isSome_iff_ne_none.mp hsome]
  · next hnone => simp [Option.not_isSome_iff_eq_none.mp hnone, eq_comm]

theorem failureOfArray?_eq_some_iff {element : SymbolId} : failureOfArray? g element = some (e, g') ↔
    g.size < element ∧ e = .unknownSymbol element ∧
      g' = g.alloc (g.name element ++ "[]") .array (Flags.single .synthesized) := by
  unfold failureOfArray?
  split
  · next hle => simp [Nat.not_lt.mpr hle]
  · next hlt =>
    constructor
    · intro h
      obtain ⟨rfl, rfl⟩ := Prod.mk.inj (Option.some.inj h)
      exact ⟨Nat.not_le.mp hlt, rfl, rfl⟩
    · rintro ⟨-, rfl, rfl⟩
      rfl

/-- How demands fail: at once, at a class without an instance side, or at an element type that does
not exist. -/
theorem failure?_cases {d : Demand} (h : d.failure? setting g = some (e, g')) :
    ¬e.isEndless ∧ (¬d.Spoils g ∧ g' = g ∨
      (∃ id, (d = .symbol id ∧ g.kind? id = some .classType ∨ d = .classType id) ∧ id < g.size ∧
        g.IsUnsided id ∧ g' = g.setResolved id true) ∨
      ∃ element, d = .arrayOf element ∧ g.size < element ∧ e = .unknownSymbol element ∧
        g' = g.alloc (g.name element ++ "[]") .array (Flags.single .synthesized)) := by
  have hunknown : ∀ id, failureOfUnknown? g id = some (e, g') → ¬e.isEndless ∧ g' = g := by
    intro id h
    obtain ⟨-, rfl, rfl⟩ := failureOfUnknown?_eq_some_iff.mp h
    exact ⟨by simp [BindError.isEndless], rfl⟩
  cases d with
  | symbol id =>
      change failureOfSymbol? g id = _ at h
      unfold failureOfSymbol? at h
      split at h
      · next hk =>
        rcases failureOfClass?_eq_some_iff.mp h with ⟨hx, hside, rfl, rfl⟩ | ⟨hx, rfl, rfl⟩
        · exact ⟨by simp [BindError.isEndless], .inr (.inl ⟨id, .inl ⟨rfl, hk⟩, hx, hside, rfl⟩)⟩
        · exact absurd (lt_size_of_kind? hk) hx
      · next hk => exact ⟨(hunknown id h).1, .inl ⟨fun hs => hk hs.1, (hunknown id h).2⟩⟩
  | classType id =>
      rcases failureOfClass?_eq_some_iff.mp h with ⟨hx, hside, rfl, rfl⟩ | ⟨hx, rfl, rfl⟩
      · exact ⟨by simp [BindError.isEndless], .inr (.inl ⟨id, .inr rfl, hx, hside, rfl⟩)⟩
      · exact ⟨by simp [BindError.isEndless], .inl ⟨fun hs => hx hs.1, rfl⟩⟩
  | arrayOf element =>
      obtain ⟨hlt, rfl, rfl⟩ := failureOfArray?_eq_some_iff.mp h
      exact ⟨by simp [BindError.isEndless], .inr (.inr ⟨element, rfl, hlt, rfl, rfl⟩)⟩
  | path segments context enclosing meaning => exact absurd h (by simp [failure?])
  | typeNode unit node context enclosing =>
      obtain ⟨-, rfl, rfl⟩ := failureOfUnit?_eq_some_iff.mp h
      exact ⟨by simp [BindError.isEndless], .inl ⟨id, rfl⟩⟩
  | module id | interface id | function id | signature id | value id | «alias» id | aliasTarget id =>
      exact ⟨(hunknown id h).1, .inl ⟨fun hs => hs, (hunknown id h).2⟩⟩

/-- No demand fails for a second array type. -/
theorem ne_duplicateArrayType_of_failure {d : Demand} (h : d.failure? setting g = some (e, g'))
    (x : SymbolId) (n : Nat) : e ≠ .duplicateArrayType x n := by
  have hunknown : ∀ id, failureOfUnknown? g id = some (e, g') → e ≠ .duplicateArrayType x n := by
    intro id h
    obtain ⟨-, rfl, -⟩ := failureOfUnknown?_eq_some_iff.mp h
    simp
  have hclass : ∀ id, failureOfClass? g id = some (e, g') → e ≠ .duplicateArrayType x n := by
    intro id h
    rcases failureOfClass?_eq_some_iff.mp h with ⟨-, -, rfl, -⟩ | ⟨-, rfl, -⟩ <;> simp
  cases d with
  | symbol id =>
      change failureOfSymbol? g id = _ at h
      unfold failureOfSymbol? at h
      split at h
      · exact hclass id h
      · exact hunknown id h
  | classType id => exact hclass id h
  | arrayOf element =>
      obtain ⟨-, rfl, -⟩ := failureOfArray?_eq_some_iff.mp h
      simp
  | path segments context enclosing meaning => exact absurd h (by simp [failure?])
  | typeNode unit node context enclosing =>
      obtain ⟨-, rfl, -⟩ := failureOfUnit?_eq_some_iff.mp h
      simp
  | module id | interface id | function id | signature id | value id | «alias» id | aliasTarget id =>
      exact hunknown id h

theorem answerable_of_failure {d : Demand} (ha : Answerable setting g)
    (h : d.failure? setting g = some (e, g')) : Answerable setting g' := by
  obtain ⟨-, ⟨-, rfl⟩ | ⟨id, -, -, -, rfl⟩ | ⟨element, -, -, -, rfl⟩⟩ := failure?_cases h
  · exact ha
  · exact ha.mark id
  · exact ha.alloc _ _ _

/-- Every demand, also one that fails, leaves a graph in which everything can be answered. -/
theorem contract_run_answerable (ha : Answerable setting g) (d : Demand) :
    Contract (fun r => r.graph = g) (d.run setting) (fun _ r => Answerable setting r.graph)
      fun r => Answerable setting r.graph := by
  have hmeets := d.meets_run ha
  cases hf : d.failure? setting g with
  | none =>
      rw [hf] at hmeets
      exact Contract.weaken hmeets.succeeds.contract (fun _ hr => hr) (fun _ _ hr => hr.1)
        fun _ hr => hr
  | some failure =>
      rw [hf] at hmeets
      rintro ⟨_, log⟩ rfl
      rw [hmeets log]
      exact answerable_of_failure ha hf

/-- Something is left behind exactly by the demands that spoil: a mark, or a symbol. -/
theorem Spoils.exists_failure {d : Demand} (h : d.Spoils g) (setting : Setting) : ∃ e g',
    d.failure? setting g = some (e, g') ∧
      (g'.size ≠ g.size ∨ ∃ x, g'.isResolved x ≠ g.isResolved x) := by
  have hclass : ∀ id, id < g.size → g.IsUnsided id → ∃ e g', failureOfClass? g id = some (e, g') ∧
      (g'.size ≠ g.size ∨ ∃ x, g'.isResolved x ≠ g.isResolved x) := by
    intro id hx hside
    refine ⟨_, _, failureOfClass?_eq_some_iff.mpr (.inl ⟨hx, hside, rfl, rfl⟩), .inr ⟨id, fun h => ?_⟩⟩
    exact hside.2 (h ▸ (isResolved_setResolved g id id).mpr (.inr ⟨rfl, hx⟩))
  cases d with
  | symbol id =>
      obtain ⟨e, g', hf, hleft⟩ := hclass id (lt_size_of_kind? h.1) h.2
      exact ⟨e, g', (if_pos h.1).trans hf, hleft⟩
  | classType id => exact hclass id h.1 h.2
  | arrayOf element =>
      refine ⟨_, _, failureOfArray?_eq_some_iff.mpr ⟨h, rfl, rfl⟩, .inl ?_⟩
      rw [size_alloc]
      exact Nat.succ_ne_self _
  | module | interface | function | signature | value | «alias» | aliasTarget | path | typeNode =>
      exact h.elim

theorem Flips.exists_failure {d : Demand} (h : d.Flips g) (setting : Setting) : ∃ e g',
    d.failure? setting g = some (e, g') := by
  have hspoils : d.Spoils g := by
    cases d with
    | arrayOf element => exact h ▸ Nat.lt_succ_self g.size
    | _ => exact h
  obtain ⟨e, g', hf, -⟩ := hspoils.exists_failure setting
  exact ⟨e, g', hf⟩

/-- Other demands leave everything as it was when they fail. -/
theorem eq_of_failure {d : Demand} (h : d.failure? setting g = some (e, g'))
    (hclean : ¬d.Spoils g) : g' = g := by
  obtain ⟨-, ⟨-, rfl⟩ | ⟨id, hd, hx, hside, -⟩ | ⟨element, rfl, hlt, -⟩⟩ := failure?_cases h
  · rfl
  · rcases hd with ⟨rfl, hk⟩ | rfl
    · exact absurd ⟨hk, hside⟩ hclean
    · exact absurd ⟨hx, hside⟩ hclean
  · exact absurd hlt hclean

/-- After a failure the demand fails again, unless what is left behind answers it. -/
theorem failure?_again_iff {d : Demand} (h : d.failure? setting g = some (e, g')) :
    (∃ g'', d.failure? setting g' = some (e, g'')) ↔ ¬d.Flips g := by
  have hmarked : ∀ id, id < g.size → failureOfClass? (g.setResolved id true) id = none := by
    intro id hx
    have hr := (isResolved_setResolved g id id).mpr (.inr ⟨rfl, hx⟩)
    rw [failureOfClass?, if_neg fun h => h.2.2 hr, failureOfUnknown?, if_pos (lt_size_of_isResolved hr)]
  obtain ⟨-, ⟨hclean, rfl⟩ | ⟨id, hd, hx, hside, rfl⟩ | ⟨element, rfl, hlt, rfl, rfl⟩⟩ := failure?_cases h
  · refine iff_of_true ⟨_, h⟩ ?_
    cases d with
    | arrayOf element =>
        intro hflip
        exact hclean (hflip ▸ Nat.lt_succ_self g'.size)
    | _ => exact hclean
  · rcases hd with ⟨rfl, hk⟩ | rfl
    · have hk' : (g.setResolved id true).kind? id = some .classType :=
        (kind?_congr (label?_setResolved g id true id)).trans hk
      have hnone : Demand.failure? setting (g.setResolved id true) (.symbol id) = none :=
        (if_pos hk').trans (hmarked id hx)
      rw [hnone]
      exact iff_of_false (by simp) fun hflip => hflip ⟨hk, hside⟩
    · have hnone : Demand.failure? setting (g.setResolved id true) (.classType id) = none :=
        hmarked id hx
      rw [hnone]
      exact iff_of_false (by simp) fun hflip => hflip ⟨hx, hside⟩
  · simp only [failure?, failureOfArray?, size_alloc, Flips]
    by_cases hnext : element = g.size + 1
    · simp [hnext]
    · have hle : ¬element ≤ g.size + 1 := fun hle => hnext (Nat.le_antisymm hle hlt)
      simp [hnext, hle]

end Demand

end NameBinding
