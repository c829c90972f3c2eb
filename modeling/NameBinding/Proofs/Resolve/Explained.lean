import NameBinding.Proofs.Resolve.Demand
import NameBinding.Proofs.Resolve.Knots

/-! # Error types are explained

What a type node or a base denotes is the error symbol only if that is explained. So whatever symbol
is resolved, no error symbol is left behind without an explanation. -/

namespace NameBinding

open SymbolGraph Resolution

/-- What was answered is the error symbol only if that is explained. -/
def Resolution.HonestAnswer (setting : Setting) (g₀ : SymbolGraph) (busy : List SymbolId)
    (answer : SymbolId) (r : Resolution) : Prop :=
  r.Honest setting g₀ busy ∧ (answer = WellKnown.error → r.Explains setting g₀ busy)

namespace ResolveM

variable {setting : Setting} {g₀ : SymbolGraph} {busy : List SymbolId} {r : Resolution}
  {x : SymbolId}

theorem NoAlias.cons (h : NoAlias g₀ busy)
    (hx : g₀.declarations x ≠ [] → g₀.kind? x ≠ some .alias) : NoAlias g₀ (x :: busy) := by
  intro y hy
  rcases List.mem_cons.mp hy with rfl | hy
  · exact hx
  · exact h y hy

variable (ho : Outset setting g₀)

include ho

/-- What is new is not the error symbol. -/
theorem honestAnswer_new (h : r.Honest setting g₀ busy) (hx : g₀.size ≤ x) :
    r.HonestAnswer setting g₀ busy x := by
  refine ⟨h, ?_⟩
  rintro rfl
  exact absurd hx (Nat.not_le.mpr (lt_size_of_kind? ho.error))

omit ho in
/-- No keyword denotes the error symbol. -/
theorem honestAnswer_keyword (h : r.Honest setting g₀ busy) (kind : NodeKind) :
    r.HonestAnswer setting g₀ busy ((WellKnown.ofKeyword? kind).getD WellKnown.any) := by
  refine ⟨h, fun herror => ?_⟩
  cases hk : WellKnown.ofKeyword? kind with
  | none =>
      rw [hk] at herror
      exact absurd herror (by decide)
  | some type =>
      obtain ⟨hlt, -⟩ := List.findIdx?_eq_some_iff_getElem.mp hk
      rw [hk] at herror
      exact absurd herror (Nat.ne_of_lt hlt)

/-! ### Types -/

section Types

variable (hclear : NoAlias g₀ busy)

/-- From every state the step answers with the error symbol only if that is explained. -/
abbrev AnswersHonestly (setting : Setting) (g₀ : SymbolGraph) (busy : List SymbolId)
    (step : ResolveM SymbolId) : Prop :=
  ∀ r : Resolution, r.Honest setting g₀ busy → r.Yields step (HonestAnswer setting g₀ busy)

/-- An array type is none of the symbols that are there from the start. -/
theorem yields_arrayOf (h : r.Honest setting g₀ busy) (element : SymbolId) :
    r.Yields (arrayOf element) (HonestAnswer setting g₀ busy) := by
  unfold arrayOf
  refine .graph_bind ?_
  split
  · refine (h.yields_alloc _ _ _).bind ?_
    rintro array r₁ ⟨h₁, hnew⟩
    refine (h₁.yields_link (by simp [EdgeKind.isResolution]) (by simp) hnew (.inl rfl)).bind
      fun _ r₂ h₂ => ?_
    refine (h₂.yields_markResolved_new hnew).bind
      fun _ r₃ h₃ => .pure (honestAnswer_new ho h₃ hnew)
  · next array hsole =>
    have hmem : array ∈ r.graph.arrayTypes element := by
      rw [hsole]
      exact List.mem_singleton_self array
    rcases h.tidy.bound (h.tidy.mem_sources_iff.mp hmem) with hold | hr | ⟨-, hnew, -⟩
    · exact .pure ⟨h, fun herror => absurd herror (ho.ne_error (ho.arrays hold rfl) (by simp))⟩
    · simp [EdgeKind.isResolution] at hr
    · exact .pure (honestAnswer_new ho h hnew)
  · exact .throw _

variable {place : TypePlace}

include hclear in
theorem yields_namedType (h : r.Honest setting g₀ busy) (name reported : NodeRef) :
    r.Yields (namedType setting place name reported) (HonestAnswer setting g₀ busy) := by
  have hmissing : ∀ r : Resolution, r.Honest setting g₀ busy → r.Yields (do
      report (.ofCode place.file (place.tree.span reported) Message.cannotFindName
        [Dotted.join (place.tree.entityName name)])
      return WellKnown.error) (HonestAnswer setting g₀ busy) := fun r h =>
    (yields_missing ho h rfl).weaken fun _ _ hr' => ⟨hr'.1, fun _ => hr'.2.2⟩
  unfold namedType
  refine (yields_findPath ho hclear h _ _ _ _).bind ?_
  rintro found r₁ ⟨h₁, hfound⟩
  cases found with
  | none => exact hmissing r₁ h₁
  | some found =>
      refine (yields_asType ho hclear h₁ (hfound found rfl).1).bind fun type r₂ hr₂ =>
        .graph_bind ?_
      split
      · exact .pure hr₂
      · exact hmissing r₂ hr₂.1

section Nested

variable {resolve : NodeRef → ResolveM SymbolId}
  (hresolve : ∀ node, AnswersHonestly setting g₀ busy (resolve node))

include hresolve

omit ho in
/-- A part of a new symbol is made with its type. -/
theorem yields_typedPart (h : r.Honest setting g₀ busy) {holder : SymbolId}
    (hx : g₀.size ≤ holder) (node : NodeRef) (name : String) (symbolKind : SymbolKind)
    (flags : Flags SymbolFlag) {kind : EdgeKind} (hk : kind.isPart) : r.Yields (do
      let part ← alloc name symbolKind flags
      link holder part kind
      let type ← resolve node
      setSingle part type .typedAs
      markResolved part) fun _ r' => r'.Honest setting g₀ busy := by
  have hne : ¬kind.isResolution ∧ kind ≠ .instanceType := by
    revert hk
    cases kind <;> simp [EdgeKind.isPart, EdgeKind.isResolution]
  refine (h.yields_alloc name symbolKind flags).bind ?_
  rintro part r₁ ⟨h₁, hnew⟩
  have hnone : g₀.declarations part = [] := declarations_eq_nil hnew
  refine (h₁.yields_link hne.1 hne.2 hx (.inr hnew)).bind fun _ r₂ h₂ => ?_
  refine (hresolve node r₂ h₂).bind fun type r₃ hr₃ => ?_
  refine (hr₃.1.yields_setSingle_undeclared hnone rfl).bind fun _ r₄ h₄ => ?_
  exact h₄.yields_markResolved_new hnew

omit ho in
theorem yields_makeParameter (h : r.Honest setting g₀ busy) {signature : SymbolId}
    (hx : g₀.size ≤ signature) (node : NodeRef) :
    r.Yields (makeParameter place resolve signature node)
      fun _ r' => r'.Honest setting g₀ busy := by
  unfold makeParameter
  split
  · exact yields_typedPart hresolve h hx _ _ _ _ rfl
  · exact .pure h

omit ho in
theorem yields_makeSignature (h : r.Honest setting g₀ busy) (node : NodeRef) :
    r.Yields (makeSignature place resolve node) fun signature r' =>
      r'.Honest setting g₀ busy ∧ g₀.size ≤ signature := by
  unfold makeSignature
  refine (h.yields_alloc _ _ _).bind ?_
  rintro signature r₁ ⟨h₁, hnew⟩
  have hnone : g₀.declarations signature = [] := declarations_eq_nil hnew
  refine Yields.bind (.forM h₁ _ fun p _ r' h' => yields_makeParameter hresolve h' hnew p)
    fun _ r₂ h₂ => ?_
  refine (hresolve _ r₂ h₂).bind fun type r₃ hr₃ => ?_
  refine (hr₃.1.yields_setSingle_undeclared hnone rfl).bind fun _ r₄ h₄ => ?_
  exact (h₄.yields_markResolved_new hnew).bind
    fun _ r₅ h₅ => .pure ⟨h₅, hnew⟩

omit ho in
/-- A signature is made and hung on a new symbol. -/
theorem yields_makeSignature_link (h : r.Honest setting g₀ busy) {owner : SymbolId}
    (hx : g₀.size ≤ owner) (node : NodeRef) {kind : EdgeKind} (hk : kind.isSignature) :
    r.Yields (do
      let signature ← makeSignature place resolve node
      link owner signature kind) fun _ r' => r'.Honest setting g₀ busy := by
  refine (yields_makeSignature hresolve h node).bind ?_
  rintro signature r' ⟨h', hnew⟩
  refine h'.yields_link ?_ ?_ hx (.inr hnew)
  · exact EdgeKind.not_isResolution_of_isSole (EdgeKind.isSole_of_isSignature hk)
  · rintro rfl
    simp [EdgeKind.isSignature] at hk

theorem answersHonestly_makeCallable (node : NodeRef) (kind : SymbolKind)
    {signatureKind : EdgeKind} (hk : signatureKind.isSignature) :
    AnswersHonestly setting g₀ busy (makeCallable place resolve node kind signatureKind) := by
  intro r h
  unfold makeCallable
  refine (h.yields_alloc _ _ _).bind ?_
  rintro callable r₁ ⟨h₁, hnew⟩
  rw [← bind_assoc]
  refine (yields_makeSignature_link hresolve h₁ hnew node hk).bind fun _ r₂ h₂ => ?_
  exact (h₂.yields_markResolved_new hnew).bind
    fun _ r₃ h₃ => .pure (honestAnswer_new ho h₃ hnew)

omit ho hresolve in
/-- The methods of a new type literal are new. -/
theorem yields_literalMethod (h : r.Honest setting g₀ busy) {literal : SymbolId}
    (hx : g₀.size ≤ literal) (name : String) : r.Yields (literalMethod literal name)
      fun method r' => r'.Honest setting g₀ busy ∧ g₀.size ≤ method := by
  unfold literalMethod
  refine .graph_bind ?_
  split
  · next method hm =>
    obtain ⟨kind, hk, he⟩ := hasEdge_of_mem_members h.tidy.toMirrored (List.mem_of_find?_eq_some hm)
    refine .pure ⟨h, ?_⟩
    rcases h.tidy.bound he with hold | hr | ⟨-, -, ha | hnew⟩
    · simp [hasEdge, outgoing_eq_nil hx] at hold
    · exact absurd hk (EdgeKind.not_isMembership_of_isResolution hr)
    · obtain rfl : kind = .arrayOf := ha
      simp [EdgeKind.isMembership] at hk
    · exact hnew
  · refine (h.yields_alloc _ _ _).bind ?_
    rintro method r₁ ⟨h₁, hnew⟩
    refine (h₁.yields_link (by simp [EdgeKind.isResolution]) (by simp) hx (.inr hnew)).bind
      fun _ r₂ h₂ => ?_
    exact (h₂.yields_markResolved_new hnew).bind
      fun _ r₃ h₃ => .pure ⟨h₃, hnew⟩

omit ho in
theorem yields_makeMember (h : r.Honest setting g₀ busy) {literal : SymbolId}
    (hx : g₀.size ≤ literal) (node : NodeRef) :
    r.Yields (makeMember place resolve literal node) fun _ r' => r'.Honest setting g₀ busy := by
  unfold makeMember
  split
  · exact .pure h
  · split
    · split
      · exact yields_typedPart hresolve h hx _ _ _ _ rfl
      · exact .pure h
    · exact (yields_literalMethod h hx _).bind fun method r' ⟨h', hnew⟩ =>
        yields_makeSignature_link hresolve h' hnew node rfl
    · exact yields_makeSignature_link hresolve h hx node rfl
    · exact yields_makeSignature_link hresolve h hx node rfl
    · exact yields_makeSignature_link hresolve h hx node rfl
    · exact .pure h

theorem answersHonestly_makeLiteral (node : NodeRef) :
    AnswersHonestly setting g₀ busy (makeLiteral place resolve node) := by
  intro r h
  unfold makeLiteral
  refine (h.yields_alloc _ _ _).bind ?_
  rintro literal r₁ ⟨h₁, hnew⟩
  refine (h₁.yields_markResolved_new hnew).bind
    fun _ r₂ h₂ => ?_
  exact Yields.bind (.forM h₂ _ fun m _ r' h' => yields_makeMember hresolve h' hnew m)
    fun _ r₃ h₃ => .pure (honestAnswer_new ho h₃ hnew)

include hclear

/-- What a node denotes, given what the nodes below it denote. -/
theorem answersHonestly_typeOfNode (node : NodeRef) :
    AnswersHonestly setting g₀ busy (typeOfNode place resolve setting node) := by
  intro r h
  unfold typeOfNode
  split
  · exact yields_namedType ho hclear h _ node
  · exact yields_namedType ho hclear h node node
  · exact yields_namedType ho hclear h node node
  · exact (hresolve _ r h).bind fun element r' hr' => yields_arrayOf ho hr'.1 element
  · exact answersHonestly_makeCallable ho hresolve node .function rfl r h
  · exact answersHonestly_makeCallable ho hresolve node .typeLiteral rfl r h
  · exact answersHonestly_makeLiteral ho hresolve node r h
  · next kind _ _ _ _ _ _ _ _ => exact .pure (honestAnswer_keyword h kind)
  · exact .pure ⟨h, fun herror => absurd herror (by decide)⟩

end Nested

include hclear

/-- By induction on the levels of the node. -/
theorem answersHonestly_typeWithin (levels : Nat) (node : NodeRef) :
    AnswersHonestly setting g₀ busy (typeWithin setting place levels node) := by
  induction levels generalizing node with
  | zero => exact fun r _ => .throw _
  | succ levels ih =>
      rw [typeWithin]
      exact answersHonestly_typeOfNode ho hclear ih node

theorem answersHonestly_typeAt (node : NodeRef) :
    AnswersHonestly setting g₀ busy (typeAt setting place node) :=
  answersHonestly_typeWithin ho hclear _ node

end Types

/-! ### Collisions -/

omit ho in
theorem yields_reportCollision (h : r.Honest setting g₀ busy) (earlier later : SymbolId) :
    r.Yields (reportCollision setting earlier later) fun _ r' => r'.Honest setting g₀ busy := by
  have hreport : ∀ d, r.Yields (report d) fun _ r' => r'.Honest setting g₀ busy := fun d =>
    (h.yields_report d).weaken fun _ _ hr' => hr'.1
  unfold reportCollision
  refine .graph_bind ((yields_firstSite r setting later).bind ?_)
  rintro site? r' ⟨_, _, rfl⟩
  cases site? with
  | none => exact .pure h
  | some site =>
      refine (yields_firstSite r' setting earlier).bind ?_
      rintro first? r'' ⟨_, _, rfl⟩
      cases first? with
      | none => exact hreport _
      | some first => exact hreport _

omit ho in
theorem yields_checkCollisions (h : r.Honest setting g₀ busy) (container : SymbolId) :
    r.Yields (checkCollisions setting container) fun _ r' => r'.Honest setting g₀ busy := by
  unfold checkCollisions
  split
  · exact .graph_bind (.forM h _ fun p _ r' h' => yields_reportCollision h' p.1 p.2)
  · exact .pure h

/-! ### Bases -/

section Bases

variable (hclear : NoAlias g₀ busy)

include hclear

/-- What an entry denotes, if it denotes anything, is the error symbol only if that is explained. -/
theorem yields_heritageTarget (h : r.Honest setting g₀ busy) (site : DeclSite) (notObject : Nat)
    (entry : NodeRef) : r.Yields (heritageTarget setting site notObject entry) fun target? r' =>
      r'.Honest setting g₀ busy ∧
        ∀ target, target? = some target → r'.HonestAnswer setting g₀ busy target := by
  have hfound : ∀ (found : SymbolId) (d : Diagnostic) (r : Resolution),
      r.Honest setting g₀ busy → g₀.declarations found ≠ [] → r.Yields (do
        let type ← asType setting found
        let kind? := (← graph).kind? type
        if (kind?.map (·.isObjectType)).getD false || kind? == some .error then return some type
        else
          report d
          return none : ResolveM (Option SymbolId)) fun target? r' =>
            r'.Honest setting g₀ busy ∧
              ∀ target, target? = some target → r'.HonestAnswer setting g₀ busy target := by
    refine fun found d r h hdecl => (yields_asType ho hclear h hdecl).bind fun type r₁ hr₁ =>
      .graph_bind ?_
    dsimp only
    split
    · refine .pure ⟨hr₁.1, ?_⟩
      rintro _ ⟨⟩
      exact hr₁
    · exact (hr₁.1.yields_report d).bind fun _ r₂ hr₂ => .pure ⟨hr₂.1, fun _ h => absurd h (by simp)⟩
  unfold heritageTarget
  refine (yields_findPath ho hclear h _ _ _ _).bind ?_
  rintro found r₁ ⟨h₁, hdecl⟩
  cases found with
  | some found => exact hfound found _ r₁ h₁ (hdecl found rfl).1
  | none =>
      refine (yields_findPath ho hclear h₁ _ _ _ _).bind ?_
      rintro found r₂ ⟨h₂, hdecl⟩
      cases found with
      | some found => exact hfound found _ r₂ h₂ (hdecl found rfl).1
      | none =>
          refine (h₂.yields_report _).bind fun _ r₃ hr₃ => .pure ⟨hr₃.1, ?_⟩
          rintro _ ⟨⟩
          exact ⟨hr₃.1, fun _ => hr₃.2 rfl⟩

end Bases

/-- The bases of types are resolved, and for the error symbol nothing is done. -/
abbrev PullsHonestly (setting : Setting) (g₀ : SymbolGraph) (busy : List SymbolId)
    (pull : SymbolId → ResolveM Unit) : Prop :=
  ∀ r : Resolution, r.Honest setting g₀ busy → ∀ type, r.Yields (pull type) fun _ r' =>
    r'.Honest setting g₀ busy ∧ (type = WellKnown.error → r' = r)

section Pull

variable {pull : SymbolId → ResolveM Unit} (hclear : NoAlias g₀ busy)
  (hpull : PullsHonestly setting g₀ busy pull)

include hclear hpull

theorem yields_extendWith (h : r.Honest setting g₀ busy) (site : DeclSite) (notObject : Nat)
    (hx : g₀.declarations x ≠ [] → ∃ kind, g₀.kind? x = some kind ∧ kind.resolvesBy .extends)
    (entry : NodeRef) : r.Yields (extendWith pull setting site notObject x entry)
      fun _ r' => r'.Honest setting g₀ busy := by
  unfold extendWith
  refine (yields_heritageTarget ho hclear h site notObject entry).bind ?_
  rintro target? r₁ ⟨h₁, htarget⟩
  cases target? with
  | none => exact .pure h₁
  | some base =>
      unfold linkBase
      refine (hpull r₁ h₁ base).bind ?_
      rintro _ r₂ ⟨h₂, hkept⟩
      refine .graph_bind ?_
      split
      · exact (h₂.yields_report _).weaken fun _ _ hr' => hr'.1
      · refine h₂.yields_linkBase (.inl rfl) hx fun herror => ?_
        rw [hkept herror]
        exact (htarget base rfl).2 herror

omit hpull in
theorem yields_implementWith (h : r.Honest setting g₀ busy) (site : DeclSite)
    (hx : g₀.declarations x ≠ [] → ∃ kind, g₀.kind? x = some kind ∧ kind.resolvesBy .implements)
    (entry : NodeRef) : r.Yields (implementWith setting site x entry)
      fun _ r' => r'.Honest setting g₀ busy := by
  unfold implementWith
  refine (yields_heritageTarget ho hclear h site _ entry).bind ?_
  rintro target? r₁ ⟨h₁, htarget⟩
  cases target? with
  | none => exact .pure h₁
  | some target => exact h₁.yields_linkBase (.inr rfl) hx (htarget target rfl).2

theorem yields_resolveClassDecl (h : r.Honest setting g₀ busy) {inst : SymbolId}
    (hinst : g₀.kind? inst = some .instanceType) (d : DeclId) :
    r.Yields (resolveClassDecl pull setting inst d) fun _ r' => r'.Honest setting g₀ busy := by
  unfold resolveClassDecl
  refine (yields_site r setting d).bind ?_
  rintro site r' ⟨_, rfl⟩
  split
  · exact .pure h
  · refine Yields.bind (.forM h _ fun entry _ r' h' => ?_) fun _ r₁ h₁ =>
      .forM h₁ _ fun entry _ r' h' => ?_
    · exact yields_extendWith ho hclear hpull h' site _ (fun _ => ⟨_, hinst, rfl⟩) entry
    · exact yields_implementWith ho hclear h' site (fun _ => ⟨_, hinst, rfl⟩) entry

/-- An instance side is open while its bases are taken away, and is done before new ones are linked. -/
theorem yields_resolveClassWith (h : r.Honest setting g₀ busy)
    (hx : g₀.declarations x ≠ [] → g₀.kind? x = some .classType) :
    r.Yields (resolveClassWith pull setting x) fun _ r' => r'.Honest setting g₀ busy := by
  unfold resolveClassWith
  refine h.yields_begin_inert (fun hdecl => ⟨_, hx hdecl, rfl⟩) fun r₁ h₁ => .graph_bind ?_
  split
  · exact .throw _
  · next inst hinst =>
    have hkind := kind?_of_instanceType? ho h₁ hinst
    have hnot : g₀.kind? inst ≠ some .alias := by simp [hkind]
    refine (yields_markResolved r₁ inst).bind fun _ r₂ hr₂ => ?_
    have hlt : inst < r₁.graph.size :=
      (h₁.tidy.lt_size (hasEdge_of_instanceType? h₁.tidy.toMirrored hinst)).2
    have h₂ : r₂.Honest setting g₀ (inst :: busy) := hr₂ ▸ h₁.mark_open hlt fun ha => absurd ha hnot
    refine (h₂.yields_removeOutgoing List.mem_cons_self rfl).bind ?_
    rintro _ r₃ ⟨h₃, hgone⟩
    refine (h₃.yields_removeOutgoing List.mem_cons_self rfl).bind ?_
    rintro _ r₄ ⟨h₄, hgone'⟩
    have h₅ : r₄.Honest setting g₀ busy := by
      refine h₄.close_bare hnot fun symbolKind kind target _ hsymbol hby he => ?_
      obtain rfl := Option.some.inj (hsymbol.symm.trans hkind)
      obtain ⟨he', hne'⟩ := hgone' he
      obtain ⟨-, hne⟩ := hgone he'
      cases kind <;> simp_all [SymbolKind.resolvesBy]
    refine (yields_declarations r₄ x).bind ?_
    rintro ds r₅ ⟨_, rfl⟩
    refine Yields.bind (.forM h₅ ds fun d _ r' h' => ?_) fun _ r₆ h₆ => ?_
    · exact yields_resolveClassDecl ho hclear hpull h' hkind d
    · exact (yields_checkCollisions h₆ inst).bind fun _ _ h₇ => yields_checkCollisions h₇ x

/-- An interface is open while its bases are taken away, and is done before new ones are linked. -/
theorem yields_resolveInterfaceWith (h : r.Honest setting g₀ busy)
    (hx : g₀.declarations x ≠ [] → g₀.kind? x = some .interface)
    (hnot : g₀.kind? x ≠ some .alias) :
    r.Yields (resolveInterfaceWith pull setting x) fun _ r' => r'.Honest setting g₀ busy := by
  unfold resolveInterfaceWith
  refine h.yields_begin_then fun r₁ h₁ => ?_
  refine (h₁.yields_removeOutgoing List.mem_cons_self rfl).bind ?_
  rintro _ r₂ ⟨h₂, hgone⟩
  have h₃ : r₂.Honest setting g₀ busy := by
    refine h₂.close_bare hnot fun symbolKind kind target hdecl hsymbol hby he => ?_
    obtain rfl := Option.some.inj (hsymbol.symm.trans (hx hdecl))
    obtain ⟨-, hne⟩ := hgone he
    cases kind <;> simp_all [SymbolKind.resolvesBy]
  refine (yields_declarations r₂ x).bind ?_
  rintro ds r₃ ⟨_, rfl⟩
  refine Yields.bind (.forM h₃ ds fun d _ r' h' => ?_) fun _ r₄ h₄ => yields_checkCollisions h₄ x
  unfold resolveInterfaceDecl
  refine (yields_site r' setting d).bind ?_
  rintro site r'' ⟨_, rfl⟩
  split
  · exact .pure h'
  · refine .forM h' _ fun entry _ r' h' => ?_
    exact yields_extendWith ho hclear hpull h' site _ (fun hdecl => ⟨_, hx hdecl, rfl⟩) entry

end Pull

/-- The class of an instance side is the one it had before. -/
theorem kind?_of_classOfInstance? (h : r.Honest setting g₀ busy) {cls : SymbolId}
    (hcls : r.graph.classOfInstance? x = some cls) : g₀.kind? cls = some .classType :=
  (ho.sides (h.tidy.hasEdge_instanceType (hasEdge_of_classOfInstance? h.tidy.toMirrored hcls))).1

/-- By induction on the types that may still lie below. -/
theorem pullsHonestly_pullWithin (hclear : NoAlias g₀ busy) (types : Nat) :
    PullsHonestly setting g₀ busy (pullWithin setting types) := by
  induction types with
  | zero => exact fun r _ type => .throw _
  | succ types ih =>
      intro r h type
      have hother : ∀ {kind}, r.graph.kind? type = some kind → kind ≠ .error →
          type ≠ WellKnown.error := by
        rintro kind hk hne rfl
        exact hne (Option.some.inj (hk.symm.trans (kind?_error ho h)))
      rw [pullWithin]
      refine .graph_bind ?_
      split
      · next hk =>
        split
        · next cls hcls =>
          have hkind := kind?_of_classOfInstance? ho h hcls
          exact (yields_resolveClassWith ho hclear ih h fun _ => hkind).weaken
            fun _ _ h' => ⟨h', fun herror => absurd herror (hother hk (by simp))⟩
        · exact .pure ⟨h, fun _ => rfl⟩
      · next hk =>
        refine (yields_resolveInterfaceWith ho hclear ih h (fun hdecl => ?_) fun ha => ?_).weaken
          fun _ _ h' => ⟨h', fun herror => absurd herror (hother hk (by simp))⟩
        · rwa [← h.tidy.kind?_eq hdecl]
        · exact absurd (hk.symm.trans (h.tidy.follows.kind? ha)) (by simp)
      · exact .pure ⟨h, fun _ => rfl⟩

theorem pullsHonestly_pull (hclear : NoAlias g₀ busy) :
    PullsHonestly setting g₀ busy (pull setting) := fun r h type =>
  .graph_bind (pullsHonestly_pullWithin ho hclear _ r h type)

/-! ### Symbols -/

omit ho in
theorem yields_chooseTypeNode (r : Resolution) (setting : Setting)
    (chosen : Option (DeclSite × NodeRef)) (ds : List DeclId) :
    r.Yields (chooseTypeNode setting chosen ds) fun _ r' => r' = r := by
  induction ds generalizing chosen with
  | nil => exact .pure rfl
  | cons d ds ih =>
      rw [chooseTypeNode]
      refine (yields_site r setting d).bind ?_
      rintro site r' ⟨_, rfl⟩
      split
      · exact ih _
      · exact .pure rfl
      · exact ih _

/-- Typed by its annotation, a value that is declared has one type. -/
theorem yields_resolveValue (hclear : NoAlias g₀ busy) (h : r.Honest setting g₀ busy)
    (hx : g₀.declarations x ≠ [] → ∃ kind, g₀.kind? x = some kind ∧ kind ≠ .alias ∧
      kind.resolvesBy .typedAs) :
    r.Yields (resolveValue setting x) fun _ r' => r'.Honest setting g₀ busy := by
  have hnot : g₀.declarations x ≠ [] → g₀.kind? x ≠ some .alias := by
    intro hdecl ha
    obtain ⟨kind, hk, hne, -⟩ := hx hdecl
    exact hne (Option.some.inj (hk.symm.trans ha))
  have htyped : ∀ {step : ResolveM SymbolId}, AnswersHonestly setting g₀ (x :: busy) step →
      ∀ r : Resolution, r.Honest setting g₀ (x :: busy) → r.Yields (do
        let type ← step
        setSingle x type .typedAs) fun _ r' => r'.Honest setting g₀ busy := by
    intro step hstep r h
    refine (hstep r h).bind fun type r' hr' => ?_
    refine (hr'.1.yields_setSingle rfl rfl (fun hdecl => ?_) (fun hdecl ha => ?_)
      fun _ herror => .inl (hr'.2 herror)).weaken fun _ _ hr'' => hr''.1
    · obtain ⟨kind, hk, -, hby⟩ := hx hdecl
      exact ⟨kind, hk, hby⟩
    · exact absurd ha (hnot hdecl)
  unfold resolveValue
  refine h.yields_begin_then fun r₁ h₁ => ?_
  refine (yields_declarations r₁ x).bind ?_
  rintro ds r₂ ⟨_, rfl⟩
  refine (yields_chooseTypeNode r₂ setting none ds).bind fun chosen r₃ hr₃ => ?_
  subst hr₃
  split
  · exact htyped (answersHonestly_typeAt ho (hclear.cons hnot) _) _ h₁
  · exact htyped (fun r h => .pure ⟨h, fun herror => absurd herror (by decide)⟩) _ h₁

omit ho in
/-- The parts of a declared symbol are those that it had before. -/
theorem kind?_of_hasEdge (h : r.Honest setting g₀ busy) {y : SymbolId} {kind : EdgeKind}
    (hk : kind.isSole) {symbolKind : SymbolKind}
    (hold : ∀ {x y}, g₀.hasEdge ⟨x, y, kind⟩ → g₀.declarations y ≠ [] →
      g₀.kind? y = some symbolKind)
    (he : r.graph.hasEdge ⟨x, y, kind⟩) (hdecl : g₀.declarations y ≠ []) :
    g₀.kind? y = some symbolKind := by
  rcases h.tidy.bound he with hold' | hr | ⟨-, -, ha | hnew⟩
  · exact hold hold' hdecl
  · exact absurd hr (EdgeKind.not_isResolution_of_isSole hk)
  · obtain rfl : kind = .arrayOf := ha
    simp [EdgeKind.isSole, EdgeKind.isSignature] at hk
  · exact absurd (declarations_eq_nil hnew) hdecl

theorem yields_declaredReturn (hclear : NoAlias g₀ busy) (h : r.Honest setting g₀ busy)
    (site : DeclSite) :
    r.Yields (declaredReturn setting x site) (HonestAnswer setting g₀ busy) := by
  unfold declaredReturn
  refine .graph_bind ?_
  split
  · refine .pure ⟨h, fun herror => ?_⟩
    cases hinst : (r.graph.container? x).bind r.graph.instanceType? with
    | none =>
        rw [hinst] at herror
        exact absurd herror (by decide)
    | some inst =>
        rw [hinst] at herror
        obtain ⟨cls, -, hinst⟩ := Option.bind_eq_some_iff.mp hinst
        exact absurd herror (ho.ne_error (kind?_of_instanceType? ho h hinst) (by simp))
  · exact answersHonestly_typeAt ho hclear _ r h

theorem yields_resolveSignature (hclear : NoAlias g₀ busy) (h : r.Honest setting g₀ busy)
    (hx : g₀.declarations x ≠ [] → g₀.kind? x = some .signature) :
    r.Yields (resolveSignature setting x) fun _ r' => r'.Honest setting g₀ busy := by
  have hnot : g₀.declarations x ≠ [] → g₀.kind? x ≠ some .alias := fun hdecl => by simp [hx hdecl]
  unfold resolveSignature
  refine h.yields_begin_then fun r₁ h₁ => .graph_bind ?_
  refine Yields.bind (.forM h₁ _ fun p hp r' h' => ?_) fun _ r₂ h₂ => ?_
  · have he := hasEdge_of_mem_parameters h₁.tidy.toMirrored hp
    refine yields_resolveValue ho (hclear.cons hnot) h' fun hdecl => ?_
    exact ⟨.parameter, kind?_of_hasEdge h₁ rfl ho.parameters he hdecl, by simp, rfl⟩
  refine (yields_firstSite r₂ setting x).bind ?_
  rintro site? r₃ ⟨hnone, _, rfl⟩
  cases site? with
  | none =>
      refine .pure (h₂.close (fun _ hdecl => absurd ?_ hdecl) fun herror => absurd ?_ herror.1)
      · rw [← h₂.tidy.declarations_eq]
        exact hnone rfl
      · exact hnone rfl
  | some site =>
      refine (yields_declaredReturn ho (hclear.cons hnot) h₂ site).bind fun type r₄ hr₄ => ?_
      exact (hr₄.1.yields_setSingle rfl rfl (fun hdecl => ⟨.signature, hx hdecl, rfl⟩)
        (fun hdecl ha => absurd ha (hnot hdecl)) fun _ herror => .inl (hr₄.2 herror)).weaken
          fun _ _ hr' => hr'.1

omit ho in
theorem yields_reportImplementations (h : r.Honest setting g₀ busy) (seen : Bool)
    (ds : List DeclId) : r.Yields (reportImplementations setting seen ds)
      fun _ r' => r'.Honest setting g₀ busy := by
  induction ds generalizing r seen with
  | nil => exact .pure h
  | cons d ds ih =>
      rw [reportImplementations]
      refine (yields_site r setting d).bind ?_
      rintro site r' ⟨_, rfl⟩
      dsimp only
      split
      · exact (h.yields_report _).bind fun _ r' hr' => ih hr'.1 _
      · exact ih h _

theorem yields_resolveFunction (hclear : NoAlias g₀ busy) (h : r.Honest setting g₀ busy)
    (hx : g₀.declarations x ≠ [] → ∃ kind, g₀.kind? x = some kind ∧ kind.isInert) :
    r.Yields (resolveFunction setting x) fun _ r' => r'.Honest setting g₀ busy := by
  unfold resolveFunction
  refine h.yields_begin_inert hx fun r₁ h₁ => .graph_bind ?_
  refine Yields.bind (.forM h₁ _ fun s hs r' h' => ?_) fun _ r₂ h₂ => ?_
  · have he := hasEdge_of_mem_callSignatures h₁.tidy.toMirrored hs
    exact yields_resolveSignature ho hclear h' (kind?_of_hasEdge h₁ rfl ho.signatures he)
  · exact (yields_declarations r₂ x).bind fun ds r₃ ⟨_, hr₃⟩ =>
      yields_reportImplementations (hr₃ ▸ h₂) false ds

omit ho in
/-- An alias that is not declared names nothing. -/
theorem yields_resolveAlias_undeclared (h : r.Honest setting g₀ busy)
    (hx : g₀.declarations x = []) :
    r.Yields (resolveAlias setting x) fun _ r' => r'.Honest setting g₀ busy := by
  have hset : ∀ target (r : Resolution), r.Honest setting g₀ (x :: busy) → r.Yields (do
      setSingle x target .typedAs
      return target) fun _ r' => r'.Honest setting g₀ busy := fun target r h =>
    (h.yields_setSingle rfl rfl (fun hdecl => absurd hx hdecl) (fun hdecl => absurd hx hdecl)
      fun hdecl => absurd hx hdecl).bind fun _ r' hr' => .pure hr'.1
  have hsettled : r.Yields (settledTarget x) fun _ r' => r'.Honest setting g₀ busy :=
    .graph_bind (.pure h)
  unfold resolveAlias
  cases Limits.aliasDepth with
  | zero =>
      rw [resolveAliasWithin]
      exact h.yields_begin_else (fun r₁ h₁ _ => hset _ r₁ h₁) fun _ => hsettled
  | succ hops =>
      rw [resolveAliasWithin]
      refine h.yields_begin_else (fun r₁ h₁ _ => ?_) fun _ => hsettled
      have htarget : r₁.Yields (declaredTarget setting (resolveAliasWithin setting hops) x)
          fun _ r' => r'.Honest setting g₀ (x :: busy) := by
        unfold declaredTarget
        refine (yields_firstSite r₁ setting x).bind ?_
        rintro site? r₂ ⟨_, hsite, rfl⟩
        cases site? with
        | none => exact .pure h₁
        | some site =>
            have hfirst := hsite site rfl
            rw [Setting.firstSite?, h₁.tidy.declarations_eq, hx] at hfirst
            exact absurd hfirst (by simp)
      exact htarget.bind fun target r₂ h₂ => hset target r₂ h₂

/-- While no symbol is being resolved, every symbol can be, and what is left behind is explained. -/
theorem yields_resolveSymbol (h : r.Honest setting g₀ []) (x : SymbolId) :
    r.Yields (resolveSymbol setting x) fun _ r' => r'.Honest setting g₀ [] := by
  have hclear : NoAlias g₀ [] := fun _ hx => absurd hx List.not_mem_nil
  have hkind : ∀ {kind}, r.graph.kind? x = some kind → g₀.declarations x ≠ [] →
      g₀.kind? x = some kind := fun hk hdecl => by rwa [← h.tidy.kind?_eq hdecl]
  have hmodule : ∀ {kind}, r.graph.kind? x = some kind → kind.isInert →
      r.Yields (resolveModule setting x) fun _ r' => r'.Honest setting g₀ [] := fun hk hinert =>
    h.yields_begin_inert (fun hdecl => ⟨_, hkind hk hdecl, hinert⟩)
      fun r' h' => yields_checkCollisions h' x
  have hclass : ∀ {cls}, (g₀.declarations cls ≠ [] → g₀.kind? cls = some .classType) →
      r.Yields (resolveClass setting cls) fun _ r' => r'.Honest setting g₀ [] := fun hx =>
    yields_resolveClassWith ho hclear (pullsHonestly_pull ho hclear) h hx
  have hvalue : ∀ {kind}, r.graph.kind? x = some kind → kind ≠ .alias →
      kind.resolvesBy .typedAs → r.Yields (resolveValue setting x)
        fun _ r' => r'.Honest setting g₀ [] := fun hk hne hby =>
    yields_resolveValue ho hclear h fun hdecl => ⟨_, hkind hk hdecl, hne, hby⟩
  have hmark : ∀ {kind}, r.graph.kind? x = some kind → kind.isInert →
      r.Yields (markResolved x) fun _ r' => r'.Honest setting g₀ [] := fun hk hinert =>
    h.yields_markResolved fun hdecl => ⟨_, hkind hk hdecl, hinert⟩
  unfold resolveSymbol
  refine .graph_bind ?_
  split
  · exact .throw _
  · next hk => exact hmodule hk rfl
  · next hk => exact hmodule hk rfl
  · next hk => exact hclass (hkind hk)
  · split
    · next cls hcls => exact hclass fun _ => kind?_of_classOfInstance? ho h hcls
    · exact .pure h
  · next hk =>
    refine yields_resolveInterfaceWith ho hclear (pullsHonestly_pull ho hclear) h (hkind hk)
      fun ha => ?_
    exact absurd (hk.symm.trans (h.tidy.follows.kind? ha)) (by simp)
  · next hk => exact yields_resolveFunction ho hclear h fun hdecl => ⟨_, hkind hk hdecl, rfl⟩
  · next hk => exact yields_resolveFunction ho hclear h fun hdecl => ⟨_, hkind hk hdecl, rfl⟩
  · next hk => exact yields_resolveSignature ho hclear h (hkind hk)
  · next hk => exact hvalue hk (by simp) rfl
  · next hk => exact hvalue hk (by simp) rfl
  · next hk => exact hvalue hk (by simp) rfl
  · next hk =>
    by_cases hdecl : g₀.declarations x = []
    · exact (yields_resolveAlias_undeclared h hdecl).bind fun _ _ h' => .pure h'
    · exact (yields_resolveAlias ho hclear h (hkind hk hdecl) hdecl).bind fun _ _ hr' => .pure hr'.1
  all_goals next hk => exact hmark hk rfl

end ResolveM

end NameBinding
