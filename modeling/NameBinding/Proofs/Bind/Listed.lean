import NameBinding.Proofs.Bind.Appended

/-! # What units list at their top

A declaration at the top of a unit enters its symbol into the table of the unit, and is recorded on
the symbol before the next declaration comes. So in the end a unit lists only symbols that it
declares. -/

namespace NameBinding

open SymbolGraph

theorem CompilationUnit.topLevel_modifyDecl (u : CompilationUnit) (d : DeclId) (f : Decl → Decl) :
    (u.modifyDecl d f).topLevel = u.topLevel := by
  unfold modifyDecl
  split <;> rfl

namespace Binding

/-- Units list symbols that they declare. In one unit some declarations are still due. -/
def Listed (unit : UnitId) (due : List SymbolId) (b : Binding) : Prop :=
  ∀ u ∈ b.program.units, ∀ name, ∀ x ∈ u.topLevelSymbols name,
    (∃ d ∈ b.graph.declarations x, d.unit = u.id) ∨ (u.id = unit ∧ x ∈ due)

variable {unit : UnitId} {due due' : List SymbolId} {b b' : Binding}

namespace Listed

/-- Units list the same, and symbols keep their declarations. -/
theorem grow (h : Listed unit due b)
    (hunits : ∀ u' ∈ b'.program.units, ∃ u ∈ b.program.units, u'.id = u.id ∧ u'.topLevel = u.topLevel)
    (hdecls : ∀ x, b.graph.declarations x ⊆ b'.graph.declarations x) : Listed unit due b' := by
  intro u' hu' name x hx
  obtain ⟨u, hu, hid, htop⟩ := hunits u' hu'
  rw [CompilationUnit.topLevelSymbols, htop] at hx
  rw [hid]
  refine (h u hu name x hx).imp_left ?_
  rintro ⟨d, hd, hunit⟩
  exact ⟨d, hdecls x hd, hunit⟩

theorem mono (h : Listed unit due b) (hdue : due ⊆ due') : Listed unit due' b :=
  fun u hu name x hx => (h u hu name x hx).imp_right fun hd => ⟨hd.1, hdue hd.2⟩

/-- What is declared in the unit is no longer due. -/
theorem discharge {symbol : SymbolId} {d : DeclId} (h : Listed unit (symbol :: due) b)
    (hd : d ∈ b.graph.declarations symbol) (hunit : d.unit = unit) : Listed unit due b := by
  intro u hu name x hx
  rcases h u hu name x hx with hdecl | ⟨hid, hx⟩
  · exact .inl hdecl
  · rcases List.mem_cons.mp hx with rfl | hx
    · exact .inl ⟨d, hd, hunit.trans hid.symm⟩
    · exact .inr ⟨hid, hx⟩

end Listed

/-- If the step succeeds, no more declarations are due than before. -/
def Listing {α : Type} (unit : UnitId) (due : List SymbolId) (m : BindM α) : Prop :=
  Contract (Listed unit due) m (fun _ => Listed unit due) fun _ => True

namespace Listing

variable {α : Type} {m : BindM α}

protected theorem pure (a : α) : Listing unit due (pure a) := Contract.pure a fun _ h => h

protected theorem throw (e : BindError) : Listing unit due (throw e : BindM α) :=
  Contract.throw e fun _ _ => True.intro

protected theorem bind {β : Type} {f : α → BindM β} (hm : Listing unit due m)
    (hf : ∀ a, Listing unit due (f a)) : Listing unit due (m >>= f) :=
  Contract.bind hm hf

protected theorem get_bind {f : Binding → BindM α} (h : ∀ b, Listing unit due (f b)) :
    Listing unit due (get >>= f) := fun b hb => h b b hb

protected theorem graph_bind {f : SymbolGraph → BindM α} (h : ∀ g, Listing unit due (f g)) :
    Listing unit due (BindM.graph >>= f) := fun b hb => h b.graph b hb

protected theorem onGraph {step : GraphM α} (h : ∀ g, Contract (· = g) step
    (fun _ g' => ∀ x, g.declarations x ⊆ g'.declarations x) fun _ => True) :
    Listing unit due (BindM.onGraph step) := by
  intro b hb
  have hstep := h b.graph b.graph rfl
  unfold BindM.onGraph
  cases hs : step b.graph with
  | error e g => exact True.intro
  | ok a g =>
      rw [hs] at hstep
      exact hb.grow (fun u hu => ⟨u, hu, rfl, rfl⟩) hstep

protected theorem forM {f : α → BindM PUnit} (as : List α)
    (h : ∀ a, Listing unit due (f a)) : Listing unit due (as.forM f) := by
  induction as with
  | nil => exact .pure _
  | cons a as ih => exact (h a).bind fun _ => ih

end Listing

open BindM

variable {scope : Option SymbolId} {decl : Decl} {symbol : SymbolId} {d : DeclId}

/-! ### Steps -/

theorem listing_alloc (name : String) (kind : SymbolKind) (flags : Flags SymbolFlag) :
    Listing unit due (alloc name kind flags) := by
  refine .onGraph fun g => ?_
  refine (GraphM.contract_alloc name kind flags).weaken (fun _ hg => hg) ?_ fun _ _ => True.intro
  rintro _ _ ⟨_, rfl, -, rfl⟩ x
  rw [declarations_alloc]
  exact List.Subset.refl _

theorem listing_link (source target : SymbolId) (kind : EdgeKind) :
    Listing unit due (link source target kind) := by
  refine (Listing.onGraph fun g => ?_).bind fun _ => .pure _
  refine (GraphM.contract_link source target kind).weaken (fun _ hg => hg) ?_ fun _ _ => True.intro
  rintro _ _ ⟨_, rfl, -, -, rfl⟩ x
  rw [declarations_congr (label?_addEdge _ _ _)]
  exact List.Subset.refl _

theorem listing_setInstanceType (cls inst : SymbolId) :
    Listing unit due (onGraph (GraphM.setInstanceType cls inst)) := by
  refine .onGraph fun g => ?_
  refine (GraphM.contract_setInstanceType cls inst).weaken (fun _ hg => hg) ?_ fun _ _ => True.intro
  rintro _ _ ⟨_, rfl, -, -, -, rfl⟩ x
  rw [declarations_congr (label?_addEdge _ _ _)]
  exact List.Subset.refl _

theorem listing_contribute : Listing unit due (contribute symbol d) := by
  refine .onGraph fun g => ?_
  refine (GraphM.contract_declare symbol d).weaken (fun _ hg => hg) ?_ fun _ _ => True.intro
  rintro _ _ ⟨_, rfl, -, rfl⟩ x y hy
  exact mem_declarations_declare.mpr (.inl hy)

/-- A declaration of the unit is listed on a symbol that is due. -/
theorem listed_contribute (hd : d.unit = unit) : Contract (Listed unit (symbol :: due))
    (contribute symbol d) (fun _ => Listed unit due) fun _ => True := by
  intro b hb
  have hcontribute : Listing unit (symbol :: due) (contribute symbol d) := listing_contribute
  have hkept := hcontribute b hb
  have hstep := GraphM.contract_declare (P := (· = b.graph)) symbol d b.graph rfl
  unfold contribute onGraph at hkept ⊢
  cases hs : GraphM.declare symbol d b.graph with
  | error e g => exact True.intro
  | ok a g =>
      rw [hs] at hkept hstep
      obtain ⟨_, rfl, hlt, rfl⟩ := hstep
      exact hkept.discharge (mem_declarations_declare.mpr (.inr ⟨rfl, hlt, rfl⟩)) hd

/-- What notes a symbol on a declaration leaves the tables alone. -/
theorem listed_bindTo (h : Listed unit due b) (d : DeclId) (symbol : SymbolId) : Listed unit due
    { b with program := b.program.modifyUnit d.unit (·.modifyDecl d (·.bindTo symbol)) } := by
  refine h.grow (fun v hv => ?_) fun _ => List.Subset.refl _
  obtain ⟨u, hu, rfl⟩ := List.mem_map.mp hv
  refine ⟨u, hu, ?_⟩
  split
  · exact ⟨CompilationUnit.id_modifyDecl _ _ _, CompilationUnit.topLevel_modifyDecl _ _ _⟩
  · exact ⟨rfl, rfl⟩

/-- What follows the contribution in a record. -/
theorem listing_note (d : DeclId) (symbol : SymbolId) : Listing unit due (do
    if ((← get).program.decl? d).isNone then throw (.unknownDecl d)
    modify fun b =>
      { b with program := b.program.modifyUnit d.unit (·.modifyDecl d (·.bindTo symbol)) } :
      BindM Unit) := by
  refine .get_bind fun b => ?_
  dsimp only
  split
  · exact .throw _
  · exact Contract.modify fun b hb => listed_bindTo hb d symbol

theorem listing_record : Listing unit due (record d symbol) := by
  unfold record
  exact listing_contribute.bind fun _ => listing_note d symbol

/-- What is recorded is no longer due. -/
theorem listed_record (hd : d.unit = unit) : Contract (Listed unit (symbol :: due))
    (record d symbol) (fun _ => Listed unit due) fun _ => True := by
  unfold record
  exact Contract.bind (listed_contribute hd) fun _ => listing_note d symbol

/-- What is entered is due. -/
theorem listed_addTopLevel (name : String) (symbol : SymbolId) : Contract (Listed unit due)
    (addTopLevel unit name symbol) (fun _ => Listed unit (symbol :: due)) fun _ => True := by
  refine Contract.modify fun b hb => ?_
  intro v hv other x hx
  obtain ⟨u, hu, rfl⟩ := List.mem_map.mp hv
  have hold : x ∈ u.topLevelSymbols other → (∃ d ∈ b.graph.declarations x, d.unit = u.id) ∨
      (u.id = unit ∧ x ∈ symbol :: due) := fun hx => hb.mono (List.subset_cons_self _ _) u hu other x hx
  split at hx
  · next hid =>
    rw [if_pos hid]
    simp only [CompilationUnit.topLevelSymbols, CompilationUnit.addTopLevel,
      CompilationUnit.lookup_enter] at hx
    split at hx
    · next hn =>
      rcases List.mem_append.mp hx with hx | hx
      · exact hold (hn.1 ▸ hx)
      · exact .inr ⟨hid, List.mem_cons.mpr (.inl (List.mem_singleton.mp hx))⟩
    · exact hold hx
  · next hid =>
    rw [if_neg hid]
    exact hold hx

theorem listing_owner (scope : Option SymbolId) (decl : Decl) :
    Listing unit due (owner scope decl) := by
  unfold owner
  split
  · exact .pure _
  · refine .graph_bind fun g => ?_
    split
    · split
      · exact .pure _
      · exact .throw _
    · exact .pure _

/-- A step that may leave one more declaration due. -/
theorem Listing.leaves {α : Type} {m : BindM α} (h : Listing unit due m) (symbol : SymbolId) :
    Contract (Listed unit due) m (fun _ => Listed unit (symbol :: due)) fun _ => True :=
  h.weaken (fun _ hb => hb) (fun _ _ hb => hb.mono (List.subset_cons_self _ _)) fun _ hb => hb

theorem listed_attach (owner : Option SymbolId) (symbol : SymbolId) (decl : Decl) :
    Contract (Listed unit due) (attach unit owner symbol decl)
      (fun _ => Listed unit (symbol :: due)) fun _ => True := by
  unfold attach
  split
  · split
    · exact listed_addTopLevel _ _
    · exact (Listing.pure _).leaves symbol
  · refine Listing.leaves (.graph_bind fun g => ?_) symbol
    split
    · exact listing_link _ _ _
    · exact listing_link _ _ _

theorem listed_mergeOrCreate (decl : Decl) (kind : SymbolKind)
    (accept : SymbolKind → Flags SymbolFlag → Bool) :
    Contract (Listed unit due) (mergeOrCreate unit scope decl kind accept)
      (fun x => Listed unit (x :: due)) fun _ => True := by
  unfold mergeOrCreate
  refine Contract.bind (listing_owner scope decl) fun owner => ?_
  refine Contract.get_bind fun b hb => ?_
  refine Contract.weaken ?_ (fun s hs => (hs ▸ hb : Listed unit due s)) (fun _ _ h => h) fun _ h => h
  split
  · next x _ =>
    dsimp only
    split
    · exact Contract.bind (listed_addTopLevel _ x) fun _ => Contract.pure _ fun _ h => h
    · exact Contract.pure x fun _ h => h.mono (List.subset_cons_self _ _)
  · refine Contract.bind (listing_alloc _ _ _) fun x => ?_
    exact Contract.bind (listed_attach owner x decl) fun _ => Contract.pure _ fun _ h => h

/-! ### The kinds of declarations -/

/-- A declaration is recorded on the symbol that it merges with, or on a new one. -/
theorem listing_mergeOrCreate_record {α : Type} (h : decl.id.unit = unit) (kind : SymbolKind)
    (accept : SymbolKind → Flags SymbolFlag → Bool) {f : SymbolId → BindM α}
    (hf : ∀ x, Listing unit due (f x)) : Listing unit due (do
      let x ← mergeOrCreate unit scope decl kind accept
      record decl.id x
      f x) :=
  Contract.bind (listed_mergeOrCreate decl kind accept) fun x =>
    Contract.bind (listed_record h) fun _ => hf x

theorem listing_bindMerged (h : decl.id.unit = unit) (kind : SymbolKind) :
    Listing unit due (bindMerged unit scope decl kind) := by
  unfold bindMerged
  exact listing_mergeOrCreate_record h kind _ fun x => .pure _

theorem listing_bindAccessor (h : decl.id.unit = unit) :
    Listing unit due (bindAccessor unit scope decl) := by
  unfold bindAccessor
  exact listing_mergeOrCreate_record h _ _ fun x => .pure _

theorem listing_bindValue (h : decl.id.unit = unit) (kind : SymbolKind) :
    Listing unit due (bindValue unit scope decl kind) := by
  unfold bindValue create
  refine Listing.bind ?_ fun _ => .pure _
  refine (listing_owner _ _).bind fun owner => (listing_alloc _ _ _).bind fun x => ?_
  exact Contract.bind (listed_attach owner x decl) fun _ => listed_record h

theorem listing_bindClass (h : decl.id.unit = unit) :
    Listing unit due (bindClass unit scope decl) := by
  unfold bindClass
  refine (listing_owner _ _).bind fun owner => (listing_alloc _ _ _).bind fun cls => ?_
  refine (listing_alloc _ _ _).bind fun inst => (listing_setInstanceType _ _).bind fun _ => ?_
  refine listing_contribute.bind fun _ => ?_
  refine Contract.bind (listed_attach owner cls decl) fun _ => ?_
  exact Contract.bind (listed_record h) fun _ => Contract.pure _ fun _ h => h

theorem listing_bindArgument (signature : SymbolId) (fieldsOf : Option SymbolId) :
    Listing unit due (bindArgument signature fieldsOf decl) := by
  unfold bindArgument bindParameterField
  refine (listing_alloc _ _ _).bind fun param => listing_record.bind fun _ => ?_
  refine (listing_link _ _ _).bind fun _ => ?_
  split
  · split
    · exact (listing_alloc _ _ _).bind fun field => listing_contribute.bind fun _ =>
        listing_link _ _ _
    · exact .pure _
  · exact .pure _

theorem listing_bindSignature (decl : Decl) (flags : Flags SymbolFlag)
    (fieldsOf : Option SymbolId) : Listing unit due (bindSignature decl flags fieldsOf) := by
  unfold bindSignature
  refine (listing_alloc _ _ _).bind fun signature => listing_contribute.bind fun _ => ?_
  refine (Listing.forM _ fun child => .get_bind fun b => ?_).bind fun _ => .pure _
  split
  · exact .throw _
  · split
    · exact listing_bindArgument _ _
    · exact .pure _

theorem listing_bindFunction (h : decl.id.unit = unit) :
    Listing unit due (bindFunction unit scope decl) := by
  unfold bindFunction
  refine listing_mergeOrCreate_record h _ _ fun function => .graph_bind fun g => ?_
  exact (listing_bindSignature decl _ _).bind fun _ => (listing_link _ _ _).bind fun _ => .pure _

theorem listing_constructedType (scope : Option SymbolId) :
    Listing unit due (constructedType scope) := by
  unfold constructedType
  refine .graph_bind fun g => ?_
  split
  · exact .pure _
  · split
    · split
      · exact .pure _
      · exact .throw _
    · exact .pure _

theorem listing_hangSignature (kind : EdgeKind) (inside : Inside) (owner : Option SymbolId)
    (signature : SymbolId) :
    Listing unit due (hangSignature kind d inside owner signature) := by
  have hlast : Listing unit due (do record d signature; return inside : BindM Inside) :=
    listing_record.bind fun _ => .pure _
  unfold hangSignature
  split
  · exact (listing_link _ _ _).bind fun _ => hlast
  · exact hlast

theorem listing_bindConstructor : Listing unit due (bindConstructor scope decl) := by
  rw [bindConstructor_eq]
  refine (listing_constructedType scope).bind fun fieldsOf => ?_
  exact (listing_bindSignature decl _ _).bind fun _ => listing_hangSignature _ _ scope _

theorem listing_bindSignatureIn (owner : Option SymbolId) :
    Listing unit due (bindSignatureIn decl owner) :=
  (listing_bindSignature decl _ _).bind fun _ => listing_hangSignature _ _ owner _

theorem listing_bindMemberSignature : Listing unit due (bindMemberSignature scope decl) := by
  rw [bindMemberSignature_eq]
  split
  · exact listing_bindSignatureIn scope
  · exact (listing_owner _ _).bind listing_bindSignatureIn

theorem listing_bindDecl (h : decl.id.unit = unit) :
    Listing unit due (bindDecl unit scope decl) := by
  unfold bindDecl
  split
  · exact .pure _
  iterate 3 exact listing_bindMerged h _
  · exact listing_bindClass h
  iterate 3
    split
    · exact listing_bindConstructor
    · exact listing_bindFunction h
  iterate 2
    split
    · exact listing_bindAccessor h
    · exact listing_bindValue h _
  iterate 2 exact listing_bindValue h _
  iterate 3 exact listing_bindMemberSignature
  · exact .pure _

theorem listing_bindNext (h : decl.id.unit = unit) (opened : Array Inside) :
    Listing unit due (bindNext unit opened decl) := by
  unfold bindNext
  split
  · exact .pure _
  · exact (listing_bindDecl h).bind fun _ => .pure _

/-- By induction on the declarations. -/
theorem listing_foldlM_bindNext {ds : List Decl} (h : ∀ d ∈ ds, d.id.unit = unit)
    (opened : Array Inside) : Listing unit due (ds.foldlM (bindNext unit) opened) := by
  induction ds generalizing opened with
  | nil => exact .pure _
  | cons d ds ih =>
      rw [List.foldlM_cons]
      refine (listing_bindNext (h d List.mem_cons_self) opened).bind fun opened => ?_
      exact ih (fun d hd => h d (List.mem_cons_of_mem _ hd)) opened

/-- Binding a unit lists only what the unit declares. -/
theorem listed_bindUnit {u : CompilationUnit} (hu : u ∈ b.program.units) (hp : b.program.WellFormed)
    (h : Listed u.id [] b) :
    Contract (· = b) (bindUnit u.id) (fun _ => Listed u.id []) fun _ => True := by
  have hunit : ∀ d ∈ u.decls.toList, d.id.unit = u.id := by
    intro d hd
    obtain ⟨i, hi⟩ := List.mem_iff_getElem?.mp hd
    rw [Array.getElem?_toList] at hi
    rw [hp.numbered u hu i d hi]
  unfold bindUnit
  refine Contract.get_bind ?_
  rintro b rfl
  rw [hp.unitById?_eq_some_iff.mpr ⟨hu, rfl⟩]
  dsimp only
  split
  · exact Contract.throw _ fun _ _ => True.intro
  · refine Contract.weaken ?_ (fun s hs => (hs ▸ h : Listed u.id [] s)) (fun _ _ hs => hs)
      fun _ hs => hs
    exact Contract.bind (listing_foldlM_bindNext hunit #[]) fun _ => Contract.pure _ fun _ hs => hs

end Binding

end NameBinding
