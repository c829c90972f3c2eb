import NameBinding.Proofs.Resolve.Total

/-! # Bounds that do not matter

A step that goes down with a bound does what it would do with a larger one, unless it gives up. So
where it never gives up, the bound decides nothing and the way down ends by itself. -/

namespace NameBinding

namespace ResolveM

variable {setting : Setting} {α β : Type}

/-- The first step does what the second one does, or gives up. -/
def Approximates (m m' : ResolveM α) : Prop :=
  ∀ r, m r = m' r ∨ ∃ e r', m r = .error e r' ∧ e.isEndless

namespace Approximates

variable {m m' : ResolveM α}

protected theorem refl (m : ResolveM α) : Approximates m m := fun _ => .inl rfl

protected theorem throw_endless {e : BindError} (he : e.isEndless) (m : ResolveM α) :
    Approximates (throw e) m := fun r => .inr ⟨e, r, rfl, he⟩

protected theorem bind {f f' : α → ResolveM β} (hm : Approximates m m')
    (hf : ∀ a, Approximates (f a) (f' a)) : Approximates (m >>= f) (m' >>= f') := by
  intro r
  simp only [bind, EStateM.bind]
  rcases hm r with heq | ⟨e, r', hr, he⟩
  · rw [← heq]
    cases m r with
    | ok a r' => exact hf a r'
    | error e r' => exact .inl rfl
  · rw [hr]
    exact .inr ⟨e, r', rfl, he⟩

protected theorem ite {p : Prop} [Decidable p] {n n' : ResolveM α} (hm : Approximates m m')
    (hn : Approximates n n') : Approximates (if p then m else n) (if p then m' else n') := by
  by_cases hp : p
  · rwa [if_pos hp, if_pos hp]
  · rwa [if_neg hp, if_neg hp]

protected theorem forM {f f' : α → ResolveM PUnit} (hf : ∀ a, Approximates (f a) (f' a)) :
    ∀ as : List α, Approximates (as.forM f) (as.forM f')
  | [] => .refl _
  | a :: as => (hf a).bind fun _ => Approximates.forM hf as

/-- Where a step never gives up, the other one does the same. -/
theorem eq_of_succeeds (h : Approximates m m') {r : Resolution} {Q : α → SymbolGraph → Prop}
    (hm : Succeeds setting r.graph m Q) (htrees : setting.program.HasTrees) : m' r = m r := by
  rcases h r with heq | ⟨e, r', hr, -⟩
  · exact heq.symm
  · have hrun := hm r rfl
    rw [hr] at hrun
    exact absurd htrees hrun.2.2

end Approximates

/-! ### Bases -/

section Pull

variable {pull pull' : SymbolId → ResolveM Unit} (h : ∀ type, Approximates (pull type) (pull' type))

include h

theorem approximates_extendWith (site : DeclSite) (notObject : Nat) (type : SymbolId)
    (entry : NodeRef) : Approximates (extendWith pull setting site notObject type entry)
      (extendWith pull' setting site notObject type entry) := by
  unfold extendWith
  refine .bind (.refl _) fun base? => ?_
  cases base? with
  | none => exact .refl _
  | some base => exact (h base).bind fun _ => .refl _

theorem approximates_resolveClassWith (cls : SymbolId) :
    Approximates (resolveClassWith pull setting cls) (resolveClassWith pull' setting cls) := by
  have hdecl : ∀ inst d, Approximates (resolveClassDecl pull setting inst d)
      (resolveClassDecl pull' setting inst d) := by
    intro inst d
    unfold resolveClassDecl
    refine .bind (.refl _) fun site => ?_
    cases site.tree.classDecl? site.decl.node with
    | none => exact .refl _
    | some c => exact (Approximates.forM (approximates_extendWith h site _ inst) _).bind fun _ => .refl _
  unfold resolveClassWith
  refine .bind (.refl _) fun begins => .ite (.bind (.refl _) fun g => ?_) (.refl _)
  cases g.instanceType? cls with
  | none => exact .refl _
  | some inst =>
      refine .bind (.refl _) fun _ => .bind (.refl _) fun _ => .bind (.refl _) fun _ =>
        .bind (.refl _) fun ds => ?_
      exact (Approximates.forM (hdecl inst) ds).bind fun _ => .refl _

theorem approximates_resolveInterfaceWith (interface : SymbolId) :
    Approximates (resolveInterfaceWith pull setting interface)
      (resolveInterfaceWith pull' setting interface) := by
  have hdecl : ∀ d, Approximates (resolveInterfaceDecl pull setting interface d)
      (resolveInterfaceDecl pull' setting interface d) := by
    intro d
    unfold resolveInterfaceDecl
    refine .bind (.refl _) fun site => ?_
    cases site.tree.interfaceDecl? site.decl.node with
    | none => exact .refl _
    | some i => exact .forM (approximates_extendWith h site _ interface) _
  unfold resolveInterfaceWith
  refine .bind (.refl _) fun begins => .ite ?_ (.refl _)
  refine .bind (.refl _) fun _ => .bind (.refl _) fun ds => ?_
  exact (Approximates.forM hdecl ds).bind fun _ => .refl _

end Pull

/-- By induction on the smaller bound. -/
theorem approximates_pullWithin {types types' : Nat} (hle : types ≤ types') (type : SymbolId) :
    Approximates (pullWithin setting types type) (pullWithin setting types' type) := by
  induction types generalizing types' type with
  | zero => exact .throw_endless rfl _
  | succ types ih =>
      obtain ⟨more, rfl⟩ := Nat.exists_eq_add_of_le' hle
      have hpull := fun base => ih (Nat.le_add_left types more) base
      rw [← Nat.add_assoc, pullWithin, pullWithin]
      refine .bind (.refl _) fun g => ?_
      split
      · split
        · exact approximates_resolveClassWith hpull _
        · exact .refl _
      · exact approximates_resolveInterfaceWith hpull type
      · exact .refl _

theorem run_graph_bind (f : SymbolGraph → ResolveM α) (r : Resolution) :
    (graph >>= f) r = f r.graph r := rfl

/-- The bound is read off the graph at hand. -/
theorem run_pull (type : SymbolId) (r : Resolution) :
    pull setting type r = pullWithin setting (r.graph.size + 1) type r := by
  unfold pull
  exact run_graph_bind (fun g => pullWithin setting (g.size + 1) type) r

/-! ### Types -/

section Nested

variable {place : TypePlace} {resolve resolve' : NodeRef → ResolveM SymbolId}
  (h : ∀ r, Approximates (resolve r) (resolve' r))

include h

theorem approximates_makeParameter (signature : SymbolId) (r : NodeRef) :
    Approximates (makeParameter place resolve signature r)
      (makeParameter place resolve' signature r) := by
  unfold makeParameter
  cases place.tree.node? r with
  | none => exact .refl _
  | some node =>
      cases place.tree.parameter? r with
      | none => exact .refl _
      | some p =>
          exact .bind (.refl _) fun _ => .bind (.refl _) fun _ => (h p.typeNode).bind fun _ => .refl _

theorem approximates_makeSignature (r : NodeRef) :
    Approximates (makeSignature place resolve r) (makeSignature place resolve' r) := by
  unfold makeSignature
  refine .bind (.refl _) fun signature => ?_
  exact (Approximates.forM (approximates_makeParameter h signature) _).bind fun _ =>
    (h _).bind fun _ => .refl _

theorem approximates_makeCallable (r : NodeRef) (kind : SymbolKind) (signatureKind : EdgeKind) :
    Approximates (makeCallable place resolve r kind signatureKind)
      (makeCallable place resolve' r kind signatureKind) :=
  .bind (.refl _) fun _ => (approximates_makeSignature h r).bind fun _ => .refl _

theorem approximates_makeMember (literal : SymbolId) (r : NodeRef) :
    Approximates (makeMember place resolve literal r) (makeMember place resolve' literal r) := by
  have hlinked : ∀ (owner : SymbolId) (kind : EdgeKind), Approximates
      (do
        let signature ← makeSignature place resolve r
        link owner signature kind)
      (do
        let signature ← makeSignature place resolve' r
        link owner signature kind) :=
    fun owner kind => (approximates_makeSignature h r).bind fun _ => .refl _
  unfold makeMember
  cases place.tree.node? r with
  | none => exact .refl _
  | some node =>
      dsimp only
      split
      · cases place.tree.property? r with
        | none => exact .refl _
        | some p =>
            exact .bind (.refl _) fun _ => .bind (.refl _) fun _ => (h p.typeNode).bind fun _ => .refl _
      · exact .bind (.refl _) fun method => hlinked method .callSignature
      · exact hlinked literal .callSignature
      · exact hlinked literal .constructSignature
      · exact hlinked literal .indexSignature
      · exact .refl _

theorem approximates_makeLiteral (r : NodeRef) :
    Approximates (makeLiteral place resolve r) (makeLiteral place resolve' r) :=
  .bind (.refl _) fun literal => .bind (.refl _) fun _ =>
    (Approximates.forM (approximates_makeMember h literal) _).bind fun _ => .refl _

theorem approximates_typeOfNode (r : NodeRef) :
    Approximates (typeOfNode place resolve setting r) (typeOfNode place resolve' setting r) := by
  unfold typeOfNode
  split
  · exact .refl _
  · exact .refl _
  · exact .refl _
  · exact (h _).bind fun _ => .refl _
  · exact approximates_makeCallable h r .function .callSignature
  · exact approximates_makeCallable h r .typeLiteral .constructSignature
  · exact approximates_makeLiteral h r
  · exact .refl _
  · exact .refl _

end Nested

/-- By induction on the smaller bound. -/
theorem approximates_typeWithin {place : TypePlace} {levels levels' : Nat} (hle : levels ≤ levels')
    (r : NodeRef) : Approximates (typeWithin setting place levels r)
      (typeWithin setting place levels' r) := by
  induction levels generalizing levels' r with
  | zero => exact .throw_endless rfl _
  | succ levels ih =>
      obtain ⟨more, rfl⟩ := Nat.exists_eq_add_of_le' hle
      rw [← Nat.add_assoc, typeWithin, typeWithin]
      exact approximates_typeOfNode (fun part => ih (Nat.le_add_left levels more) part) r

end ResolveM

end NameBinding
