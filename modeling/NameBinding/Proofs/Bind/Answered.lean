import NameBinding.Proofs.Bind.Rest
import NameBinding.Proofs.Bind.Sound

/-! # Listed declarations are bound

A declaration is listed on its symbols, and before the next one comes one of them is noted on it. So
in the end each declaration that is listed anywhere is bound. -/

namespace NameBinding

open SymbolGraph

namespace Binding

/-- Listed declarations are bound, apart from some that are still due. Some are bound in any case. -/
structure Answers (due done : List DeclId) (b : Binding) : Prop where
  listed : ∀ {x d}, d ∈ b.graph.declarations x → d ∈ due ∨ (b.program.symbol? d).isSome
  bound : ∀ {d}, d ∈ done → (b.program.symbol? d).isSome

variable {due due' done done' : List DeclId} {d : DeclId} {b b' : Binding}

namespace Answers

/-- A change that no declaration sees. -/
theorem congr (h : Answers due done b) (hd : ∀ x, b'.graph.declarations x = b.graph.declarations x)
    (hs : ∀ d, b'.program.symbol? d = b.program.symbol? d) : Answers due done b' where
  listed {x d} hx := by
    rw [hs]
    exact h.listed (hd x ▸ hx)
  bound {d} hx := by
    rw [hs]
    exact h.bound hx

theorem mono (h : Answers due done b) (hdue : ∀ {d}, d ∈ due → d ∈ due' ∨ d ∈ done)
    (hdone : done' ⊆ done) : Answers due' done' b where
  listed hx := by
    rcases h.listed hx with hd | hs
    · exact (hdue hd).imp_right h.bound
    · exact .inr hs
  bound hd := h.bound (hdone hd)

end Answers

/-- If the step succeeds, the same declarations are due and the same ones bound. -/
def Answering {α : Type} (due done : List DeclId) (m : BindM α) : Prop :=
  Contract (Answers due done) m (fun _ => Answers due done) fun _ => True

namespace Answering

variable {α β : Type} {m : BindM α}

protected theorem pure (a : α) : Answering due done (pure a) := Contract.pure a fun _ h => h

protected theorem throw (e : BindError) : Answering due done (throw e : BindM α) :=
  Contract.throw e fun _ _ => True.intro

protected theorem bind {f : α → BindM β} (hm : Answering due done m)
    (hf : ∀ a, Answering due done (f a)) : Answering due done (m >>= f) :=
  Contract.bind hm hf

protected theorem get_bind {f : Binding → BindM α} (h : ∀ b, Answering due done (f b)) :
    Answering due done (get >>= f) := fun b hb => h b b hb

protected theorem graph_bind {f : SymbolGraph → BindM α} (h : ∀ g, Answering due done (f g)) :
    Answering due done (BindM.graph >>= f) := fun b hb => h b.graph b hb

protected theorem onGraph {step : GraphM α} (h : ∀ g, Contract (· = g) step
    (fun _ g' => ∀ x, g'.declarations x = g.declarations x) fun _ => True) :
    Answering due done (BindM.onGraph step) := by
  intro b hb
  have hstep := h b.graph b.graph rfl
  unfold BindM.onGraph
  cases hs : step b.graph with
  | ok a g =>
      rw [hs] at hstep
      exact hb.congr hstep fun _ => rfl
  | error e g => exact True.intro

protected theorem forM {f : α → BindM PUnit} (as : List α)
    (h : ∀ a, Answering due done (f a)) : Answering due done (as.forM f) := by
  induction as with
  | nil => exact .pure _
  | cons a as ih => exact (h a).bind fun _ => ih

protected theorem foldlM {f : β → α → BindM β} (as : List α) (init : β)
    (h : ∀ x a, Answering due done (f x a)) : Answering due done (as.foldlM f init) := by
  induction as generalizing init with
  | nil => exact .pure _
  | cons a as ih =>
      rw [List.foldlM_cons]
      exact (h init a).bind fun x => ih x

end Answering

open BindM

variable {unit : UnitId} {scope : Option SymbolId} {decl : Decl} {symbol : SymbolId}

/-! ### Steps -/

theorem answering_alloc (name : String) (kind : SymbolKind) (flags : Flags SymbolFlag) :
    Answering due done (alloc name kind flags) :=
  .onGraph fun g => (GraphM.contract_alloc name kind flags).weaken (fun _ hg => hg)
    (fun _ _ ⟨_, hg, _, hg'⟩ x => hg' ▸ hg ▸ declarations_alloc g name kind flags x)
    fun _ _ => True.intro

theorem answering_link (source target : SymbolId) (kind : EdgeKind) :
    Answering due done (link source target kind) := by
  refine (Answering.onGraph fun g => ?_).bind fun _ => .pure _
  refine (GraphM.contract_link source target kind).weaken (fun _ hg => hg) ?_ fun _ _ => True.intro
  rintro _ _ ⟨_, rfl, -, -, rfl⟩ x
  exact declarations_congr (label?_addEdge _ _ _)

theorem answering_setInstanceType (cls inst : SymbolId) :
    Answering due done (onGraph (GraphM.setInstanceType cls inst)) := by
  refine .onGraph fun g => ?_
  refine (GraphM.contract_setInstanceType cls inst).weaken (fun _ hg => hg) ?_ fun _ _ => True.intro
  rintro _ _ ⟨_, rfl, -, -, -, rfl⟩ x
  exact declarations_congr (label?_addEdge _ _ _)

theorem answering_addTopLevel (name : String) : Answering due done (addTopLevel unit name symbol) :=
  Contract.modify fun _ hb => hb.congr (fun _ => rfl) (Program.symbol?_addTopLevel _ _ _ _)

/-- What is listed is due or bound. -/
theorem answering_contribute (hd : d ∈ due ∨ d ∈ done) :
    Answering due done (contribute symbol d) := by
  intro b hb
  have hstep := GraphM.contract_declare (P := (· = b.graph)) symbol d b.graph rfl
  unfold contribute onGraph
  cases hs : GraphM.declare symbol d b.graph with
  | error e g => exact True.intro
  | ok a g =>
      rw [hs] at hstep
      obtain ⟨_, rfl, -, rfl⟩ := hstep
      refine ⟨fun {x d'} hx => ?_, hb.bound⟩
      rcases mem_declarations_declare.mp hx with hx | ⟨-, -, rfl⟩
      · exact hb.listed hx
      · exact hd.imp_right hb.bound

/-- What is recorded is no longer due. -/
theorem answers_record : Contract (Answers (d :: due) done) (record d symbol)
    (fun _ => Answers due (d :: done)) fun _ => True := by
  unfold record
  refine Contract.bind (answering_contribute (.inl List.mem_cons_self)) fun _ => ?_
  refine Contract.get_bind fun b hb => ?_
  dsimp only
  split
  · exact Contract.throw _ fun _ _ => True.intro
  · next hsome =>
    refine Contract.modify ?_
    rintro b rfl
    have hkeep : ∀ {d'}, (b.program.symbol? d').isSome → ((b.program.modifyUnit d.unit
        (·.modifyDecl d (·.bindTo symbol))).symbol? d').isSome := by
      intro d' hd'
      rw [Program.symbol?_bindTo]
      split
      · next heq =>
        rw [heq, Option.isSome_map, ← Option.not_isNone, Bool.not_eq_true']
        exact Bool.eq_false_iff.mpr hsome
      · exact hd'
    have hnew : ((b.program.modifyUnit d.unit
        (·.modifyDecl d (·.bindTo symbol))).symbol? d).isSome := by
      rw [Program.symbol?_bindTo, if_pos rfl, Option.isSome_map, ← Option.not_isNone,
        Bool.not_eq_true']
      exact Bool.eq_false_iff.mpr hsome
    refine ⟨fun {x d'} hx => ?_, fun {d'} hd' => ?_⟩
    · rcases hb.listed hx with hd' | hs
      · rcases List.mem_cons.mp hd' with rfl | hd'
        · exact .inr hnew
        · exact .inl hd'
      · exact .inr (hkeep hs)
    · rcases List.mem_cons.mp hd' with rfl | hd'
      · exact hnew
      · exact hkeep (hb.bound hd')

/-- A declaration is listed and recorded together. -/
theorem answers_record_new : Contract (Answers due done) (record d symbol)
    (fun _ => Answers due (d :: done)) fun _ => True :=
  answers_record.weaken (fun _ hb => hb.mono (fun hd => .inl (List.mem_cons_of_mem d hd))
    (List.Subset.refl _)) (fun _ _ hb => hb) fun _ hb => hb

/-- After a declaration is recorded, it counts as bound. -/
theorem answering_record_bind {α : Type} {f : Unit → BindM α}
    (h : ∀ a, Answering due (d :: done) (f a)) : Answering due done (record d symbol >>= f) :=
  (Contract.bind answers_record_new h).weaken (fun _ hb => hb)
    (fun _ _ hb => hb.mono .inl (List.subset_cons_self _ _)) fun _ hb => hb

theorem answering_owner (scope : Option SymbolId) (decl : Decl) :
    Answering due done (owner scope decl) := by
  unfold owner
  split
  · exact .pure _
  · refine .graph_bind fun g => ?_
    split
    · split
      · exact .pure _
      · exact .throw _
    · exact .pure _

theorem answering_attach (owner : Option SymbolId) (symbol : SymbolId) (decl : Decl) :
    Answering due done (attach unit owner symbol decl) := by
  unfold attach
  split
  · split
    · exact answering_addTopLevel _
    · exact .pure _
  · refine .graph_bind fun g => ?_
    split
    · exact answering_link _ _ _
    · exact answering_link _ _ _

theorem answering_mergeOrCreate (kind : SymbolKind) (accept : SymbolKind → Flags SymbolFlag → Bool) :
    Answering due done (mergeOrCreate unit scope decl kind accept) := by
  unfold mergeOrCreate
  refine (answering_owner scope decl).bind fun owner => .get_bind fun b => ?_
  split
  · dsimp only
    split
    · exact (answering_addTopLevel _).bind fun _ => .pure _
    · exact .pure _
  · exact (answering_alloc _ _ _).bind fun _ => (answering_attach _ _ _).bind fun _ => .pure _

/-! ### The kinds of declarations -/

theorem answering_bindMerged (kind : SymbolKind) :
    Answering due done (bindMerged unit scope decl kind) := by
  unfold bindMerged
  exact (answering_mergeOrCreate _ _).bind fun _ => answering_record_bind fun _ => .pure _

theorem answering_bindAccessor : Answering due done (bindAccessor unit scope decl) := by
  unfold bindAccessor
  exact (answering_mergeOrCreate _ _).bind fun _ => answering_record_bind fun _ => .pure _

theorem answering_bindValue (kind : SymbolKind) :
    Answering due done (bindValue unit scope decl kind) := by
  unfold bindValue create
  refine Answering.bind ?_ fun _ => .pure _
  refine (answering_owner _ _).bind fun _ => (answering_alloc _ _ _).bind fun _ => ?_
  refine (answering_attach _ _ _).bind fun _ => ?_
  exact answers_record_new.weaken (fun _ hb => hb)
    (fun _ _ hb => hb.mono .inl (List.subset_cons_self _ _)) fun _ hb => hb

/-- What a declaration is listed on before it is recorded. -/
theorem answering_of_due {α : Type} {m : BindM α}
    (h : Contract (Answers (d :: due) done) m (fun _ => Answers due (d :: done)) fun _ => True) :
    Answering due done m :=
  h.weaken (fun _ hb => hb.mono (fun hd => .inl (List.mem_cons_of_mem d hd)) (List.Subset.refl _))
    (fun _ _ hb => hb.mono .inl (List.subset_cons_self _ _)) fun _ hb => hb

theorem answering_bindClass : Answering due done (bindClass unit scope decl) := by
  unfold bindClass
  refine answering_of_due (d := decl.id) ?_
  refine Contract.bind (answering_owner _ _) fun _ => ?_
  refine Contract.bind (answering_alloc _ _ _) fun _ => ?_
  refine Contract.bind (answering_alloc _ _ _) fun _ => ?_
  refine Contract.bind (answering_setInstanceType _ _) fun _ => ?_
  refine Contract.bind (answering_contribute (.inl List.mem_cons_self)) fun _ => ?_
  refine Contract.bind (answering_attach _ _ _) fun _ => ?_
  exact Contract.bind answers_record fun _ => Contract.pure _ fun _ hb => hb

theorem answering_bindParameterField (inst : SymbolId) (hd : decl.id ∈ done) :
    Answering due done (bindParameterField inst decl) := by
  unfold bindParameterField
  refine (answering_alloc _ _ _).bind fun field => (answering_contribute (.inr hd)).bind fun _ => ?_
  exact answering_link _ _ _

/-- The field of a parameter is made after the parameter is recorded. -/
theorem answering_bindArgument (signature : SymbolId) (fieldsOf : Option SymbolId) :
    Answering due done (bindArgument signature fieldsOf decl) := by
  unfold bindArgument
  refine (answering_alloc _ _ _).bind fun param => answering_record_bind fun _ => ?_
  refine (answering_link _ _ _).bind fun _ => ?_
  split
  · split
    · exact answering_bindParameterField _ List.mem_cons_self
    · exact .pure _
  · exact .pure _

theorem answering_bindSignature (hd : decl.id ∈ due ∨ decl.id ∈ done) (flags : Flags SymbolFlag)
    (fieldsOf : Option SymbolId) : Answering due done (bindSignature decl flags fieldsOf) := by
  unfold bindSignature
  refine (answering_alloc _ _ _).bind fun signature => (answering_contribute hd).bind fun _ => ?_
  refine (Answering.forM _ fun child => .get_bind fun b => ?_).bind fun _ => .pure _
  split
  · exact .throw _
  · split
    · exact answering_bindArgument _ _
    · exact .pure _

theorem answering_bindFunction : Answering due done (bindFunction unit scope decl) := by
  unfold bindFunction
  refine (answering_mergeOrCreate _ _).bind fun function => answering_record_bind fun _ => ?_
  refine .graph_bind fun g => ?_
  refine (answering_bindSignature (.inr List.mem_cons_self) _ _).bind fun _ => ?_
  exact (answering_link _ _ _).bind fun _ => .pure _

theorem answering_constructedType (scope : Option SymbolId) :
    Answering due done (constructedType scope) := by
  unfold constructedType
  refine .graph_bind fun g => ?_
  split
  · exact .pure _
  · split
    · split
      · exact .pure _
      · exact .throw _
    · exact .pure _

/-- A signature that lists its declaration is where the declaration is recorded. -/
theorem answering_hangSignature (kind : EdgeKind) (inside : Inside) (owner : Option SymbolId)
    (signature : SymbolId) : Contract (Answers (decl.id :: due) done)
      (hangSignature kind decl.id inside owner signature)
      (fun _ => Answers due (decl.id :: done)) fun _ => True := by
  have hlast : Contract (Answers (decl.id :: due) done)
      (do record decl.id signature; return inside : BindM Inside)
      (fun _ => Answers due (decl.id :: done)) fun _ => True :=
    Contract.bind answers_record fun _ => Contract.pure _ fun _ hb => hb
  unfold hangSignature
  split
  · exact Contract.bind (answering_link _ _ _) fun _ => hlast
  · exact hlast

theorem answering_bindConstructor : Answering due done (bindConstructor scope decl) := by
  rw [bindConstructor_eq]
  refine answering_of_due (d := decl.id) ?_
  refine Contract.bind (answering_constructedType _) fun _ => ?_
  exact Contract.bind (answering_bindSignature (.inl List.mem_cons_self) _ _)
    fun signature => answering_hangSignature _ _ scope signature

theorem answering_bindSignatureIn (owner : Option SymbolId) :
    Contract (Answers (decl.id :: due) done) (bindSignatureIn decl owner)
      (fun _ => Answers due (decl.id :: done)) fun _ => True :=
  Contract.bind (answering_bindSignature (.inl List.mem_cons_self) _ _)
    fun signature => answering_hangSignature _ _ owner signature

theorem answering_bindMemberSignature : Answering due done (bindMemberSignature scope decl) := by
  rw [bindMemberSignature_eq]
  refine answering_of_due (d := decl.id) ?_
  split
  · exact answering_bindSignatureIn scope
  · exact Contract.bind (answering_owner _ _) answering_bindSignatureIn

theorem answering_bindDecl : Answering due done (bindDecl unit scope decl) := by
  unfold bindDecl
  split
  · exact .pure _
  iterate 3 exact answering_bindMerged _
  · exact answering_bindClass
  iterate 3
    split
    · exact answering_bindConstructor
    · exact answering_bindFunction
  iterate 2
    split
    · exact answering_bindAccessor
    · exact answering_bindValue _
  iterate 2 exact answering_bindValue _
  iterate 3 exact answering_bindMemberSignature
  · exact .pure _

theorem answering_bindNext (opened : Array Inside) :
    Answering due done (bindNext unit opened decl) := by
  unfold bindNext
  split
  · exact .pure _
  · exact answering_bindDecl.bind fun _ => .pure _

/-- A unit is bound one declaration after the other. -/
theorem answering_bindUnit (unit : UnitId) : Answering due done (bindUnit unit) := by
  unfold bindUnit
  refine .get_bind fun b => ?_
  split
  · exact .throw _
  · dsimp only
    split
    · exact .throw _
    · exact (Answering.foldlM _ _ fun _ _ => answering_bindNext _).bind fun _ => .pure _

end Binding

end NameBinding
