import NameBinding.Proofs.Resolve.Answerable
import NameBinding.Proofs.Resolve.Bound
import NameBinding.Proofs.Resolve.Demand

/-! # Resolving is total

Mistakes in a program are reported and never fail. What a name does not denote is answered with the
error symbol, and what goes round in a circle ends at a symbol that is marked already. -/

namespace NameBinding

open SymbolGraph

namespace ResolveM

variable {setting : Setting} {g : SymbolGraph} {x : SymbolId}

/-- What is found, if something is found, is declared. -/
def IsFound (found : Option SymbolId) (g : SymbolGraph) : Prop :=
  ∀ x, found = some x → g.declarations x ≠ []

theorem isFound_none (g : SymbolGraph) : IsFound none g := fun _ h => absurd h (by simp)

theorem isFound_some (h : g.declarations x ≠ []) : IsFound (some x) g := by
  rintro _ ⟨⟩
  exact h

/-- Whatever symbol is asked for, the step succeeds and answers with one that stands. -/
abbrev AnswersAliases (setting : Setting) (resolve : SymbolId → ResolveM SymbolId) : Prop :=
  ∀ g, Answerable setting g → ∀ x < g.size,
    Succeeds setting g (resolve x) fun target g' => g'.Stands target

/-! ### Looking names up -/

section Search

variable {aliasTarget : SymbolId → ResolveM SymbolId} (halias : AnswersAliases setting aliasTarget)

include halias

/-- By induction on the segments that are left. -/
theorem succeeds_walkMembers (ha : Answerable setting g) (meaning : Meaning) {current : SymbolId}
    (hcurrent : g.declarations current ≠ []) (segments : List String) :
    Succeeds setting g (walkMembers aliasTarget meaning current segments) IsFound := by
  induction segments generalizing g current with
  | nil => exact .pure ha (isFound_some hcurrent)
  | cons segment rest ih =>
      have hgo : ∀ holder g', Answerable setting g' →
          Succeeds setting g' (walkOn aliasTarget meaning segment rest holder) IsFound := by
        refine fun holder g' ha' => .graph_bind ?_
        split
        · next next hnext => exact ih ha' (of_admits (List.find?_some hnext)).2
        · exact .pure ha' (isFound_none _)
      rw [walkMembers_cons]
      refine .graph_bind ?_
      split
      · exact (halias g ha current (Stands.of_declared hcurrent).1).bind fun holder g' ha' _ _ =>
          hgo holder g' ha'
      · exact hgo current g ha

theorem succeeds_lookupAmong (ha : Answerable setting g) (candidates : List SymbolId)
    (segments : List String) (meaning : Meaning) :
    Succeeds setting g (lookupAmong aliasTarget candidates segments meaning) IsFound := by
  unfold lookupAmong
  split
  · exact .pure ha (isFound_none g)
  · refine .graph_bind (.findSomeM? isFound_none ha _ fun x hx g' ha' hf => ?_)
    refine succeeds_walkMembers halias ha' meaning ?_ _
    rw [hf.declarations]
    exact (of_admits (List.mem_filter.mp hx).2).2

/-- Whatever the context and the place, also where these do not exist. -/
theorem succeeds_lookupPath (ha : Answerable setting g) (segments : List String)
    (context : List SymbolId) (enclosing : Option DeclId) (meaning : Meaning) :
    Succeeds setting g (lookupPath aliasTarget setting segments context enclosing meaning)
      IsFound := by
  unfold lookupPath
  split
  · exact .pure ha (isFound_none g)
  · refine Succeeds.bind (.findSomeM? isFound_none ha _ fun anchor _ g' ha' _ => ?_)
      fun found g' ha' _ hfound => ?_
    · exact .graph_bind (succeeds_lookupAmong halias ha' _ segments meaning)
    · cases found with
      | some found => exact .pure ha' hfound
      | none => exact succeeds_lookupAmong halias ha' _ segments meaning

end Search

/-! ### Aliases -/

theorem stands_error (ha : Answerable setting g) : g.Stands WellKnown.error :=
  ha.denotesType_error.stands

/-- What was not found is reported, and the error symbol stands in for it. -/
theorem succeeds_missing (ha : Answerable setting g) (d : Diagnostic)
    {Q : SymbolId → SymbolGraph → Prop}
    (hQ : ∀ g', Answerable setting g' → Q WellKnown.error g') :
    Succeeds setting g (do report d; return WellKnown.error) Q :=
  (succeeds_report ha d).bind fun _ g' ha' _ _ => .pure ha' (hQ g' ha')

theorem succeeds_settledTarget (ha : Answerable setting g) (x : SymbolId) :
    Succeeds setting g (settledTarget x) fun target g' => g'.Stands target := by
  refine .graph_bind (.pure ha ?_)
  cases ht : g.firstTarget x .typedAs with
  | none => exact stands_error ha
  | some target =>
      exact ha.targeted (ha.mirrored.mem_targets_iff.mp (List.mem_of_head? ht)) rfl

theorem succeeds_requiredModule (ha : Answerable setting g) (site : DeclSite)
    (reference : NodeRef) : Succeeds setting g (requiredModule setting site reference)
      fun target g' => g'.Stands target := by
  refine .graph_bind ?_
  split
  · next found hfound =>
    have hk := List.find?_some hfound
    exact .pure ha (.of_kind (beq_iff_eq.mp hk) (by decide))
  · exact succeeds_missing ha _ fun _ => stands_error

section Resolve

variable {resolve : SymbolId → ResolveM SymbolId} (hresolve : AnswersAliases setting resolve)

include hresolve

theorem answersAliases_settle : AnswersAliases setting (settle resolve) := by
  intro g ha x hx
  unfold settle
  refine .graph_bind ?_
  split
  · exact succeeds_settledTarget ha x
  · exact hresolve g ha x hx

theorem succeeds_namedTarget (ha : Answerable setting g) (site : DeclSite) (reference : NodeRef) :
    Succeeds setting g (namedTarget setting resolve x site reference)
      fun target g' => g'.Stands target := by
  unfold namedTarget
  refine (succeeds_lookupPath (answersAliases_settle hresolve) ha _ _ _ _).bind
    fun found g' ha' _ hfound => ?_
  cases found with
  | none => exact succeeds_missing ha' _ fun _ => stands_error
  | some found =>
      have hstands : g'.Stands found := .of_declared (hfound found rfl)
      dsimp only
      split
      · exact succeeds_missing ha' _ fun _ => stands_error
      · refine .graph_bind ?_
        split
        · exact hresolve g' ha' found hstands.1
        · exact .pure ha' hstands

theorem succeeds_declaredTarget (ha : Answerable setting g) (hx : x < g.size) :
    Succeeds setting g (declaredTarget setting resolve x) fun target g' => g'.Stands target := by
  unfold declaredTarget
  refine (succeeds_firstSite ha hx).bind fun site? g' ha' _ _ => ?_
  cases site? with
  | none => exact .pure ha' (stands_error ha')
  | some site =>
      dsimp only
      split
      · split
        · exact succeeds_requiredModule ha' site _
        · exact succeeds_namedTarget hresolve ha' site _
      · exact .pure ha' (stands_error ha')

end Resolve

/-- By induction on the aliases that may still be followed. -/
theorem answersAliases_resolveAliasWithin (hops : Nat) :
    AnswersAliases setting (resolveAliasWithin setting hops) := by
  induction hops with
  | zero =>
      intro g ha x hx
      rw [resolveAliasWithin]
      refine succeeds_begin_else ha hx (fun _ => ?_) fun _ => succeeds_settledTarget ha x
      have ha' := ha.mark x
      have herror := stands_error ha'
      refine (succeeds_setSingle ha' ((Follows.mark g x).lt_size hx) herror.1 rfl fun _ => herror).bind
        fun _ g'' ha'' _ _ => ?_
      exact .pure ha'' (stands_error ha'')
  | succ hops ih =>
      intro g ha x hx
      rw [resolveAliasWithin]
      refine succeeds_begin_else ha hx (fun _ => ?_) fun _ => succeeds_settledTarget ha x
      have hx' := (Follows.mark g x).lt_size hx
      refine (succeeds_declaredTarget ih (ha.mark x) hx').bind fun target g₁ ha₁ hf₁ ht => ?_
      refine (succeeds_setSingle ha₁ (hf₁.lt_size hx') ht.1 rfl fun _ => ht).bind
        fun _ g₂ ha₂ hf₂ _ => ?_
      exact .pure ha₂ (ht.follows hf₂)

theorem answersAliases_resolveAlias : AnswersAliases setting (resolveAlias setting) :=
  answersAliases_resolveAliasWithin Limits.aliasDepth

theorem answersAliases_aliasTarget : AnswersAliases setting (aliasTarget setting) :=
  answersAliases_settle answersAliases_resolveAlias

theorem succeeds_findPath (ha : Answerable setting g) (segments : List String)
    (context : List SymbolId) (enclosing : Option DeclId) (meaning : Meaning) :
    Succeeds setting g (findPath setting segments context enclosing meaning) IsFound :=
  succeeds_lookupPath answersAliases_aliasTarget ha segments context enclosing meaning

theorem succeeds_typeDenoted (ha : Answerable setting g) (hx : g.Stands x) :
    Succeeds setting g (typeDenoted x) fun type g' =>
      ∃ kind, g'.kind? type = some kind ∧ kind ≠ .classType ∧ kind ≠ .alias := by
  unfold typeDenoted
  refine .graph_bind ?_
  split
  · exact .pure ha ⟨.error, ha.kind?_error, by decide, by decide⟩
  · next hk =>
    obtain ⟨inst, hinst⟩ := ha.exists_instanceType? hx hk
    have hkind := (ha.sound.graph.isSide (hasEdge_of_instanceType? ha.mirrored hinst)).2.1
    rw [hinst]
    exact .pure ha ⟨.instanceType, hkind, by decide, by decide⟩
  · next kind halias hclass hk => exact .pure ha ⟨kind, hk, hclass, halias⟩
  · next hk =>
    obtain ⟨kind, hkind⟩ := exists_kind? hx.1
    exact absurd (hkind.symm.trans hk) (by simp)

/-- What stands denotes something that is neither an alias nor the static side of a class. -/
theorem succeeds_asType (ha : Answerable setting g) (hx : g.Stands x) :
    Succeeds setting g (asType setting x) fun type g' =>
      ∃ kind, g'.kind? type = some kind ∧ kind ≠ .classType ∧ kind ≠ .alias := by
  rw [asType_eq]
  refine .graph_bind ?_
  split
  · exact (answersAliases_aliasTarget g ha x hx.1).bind fun denoted g' ha' _ hd =>
      succeeds_typeDenoted ha' hd
  · exact succeeds_typeDenoted ha hx

/-! ### Types -/

/-- A step answers with what a type node can denote. -/
abbrev AnswersType (setting : Setting) (step : ResolveM SymbolId) : Prop :=
  ∀ g, Answerable setting g → Succeeds setting g step fun type g' => g'.DenotesType type

/-- A new array type of a type that has none. -/
theorem succeeds_linkArray (ha : Answerable setting g) {element : SymbolId} {name : String}
    (hnone : g.arrayTypes element = [])
    (hx : element < (g.alloc name .array (Flags.single .synthesized)).size) :
    Succeeds setting (g.alloc name .array (Flags.single .synthesized)) (do
      link g.size element .arrayOf
      markResolved g.size
      return g.size) fun type g' => g'.DenotesType type := by
  have ha' := ha.alloc name .array (Flags.single .synthesized)
  have hkind : (g.alloc name .array (Flags.single .synthesized)).kind? g.size = some .array := by
    rw [kind?_eq, label?_alloc, if_pos rfl]
    rfl
  have hfirst : (g.alloc name .array (Flags.single .synthesized)).sources element .arrayOf = [] := by
    rw [sources_eq, incoming_alloc, ← sources_eq]
    exact hnone
  have hs := lt_size_of_kind? hkind
  have hlinked : Succeeds setting (g.alloc name .array (Flags.single .synthesized))
      (link g.size element .arrayOf) :=
    (Succeeds.onGraph (GraphM.link_eq_ok .arrayOf hs hx) (ha'.addArray hs hx rfl hfirst hkind)
      (.addEdge _ _)).bind fun _ _ ha₁ _ _ => .pure ha₁ True.intro
  refine hlinked.bind fun _ g₁ ha₁ hf₁ _ => ?_
  refine (succeeds_markResolved ha₁ g.size).bind fun _ g₂ ha₂ hf₂ _ => .pure ha₂ ?_
  exact .of_kind ((hf₁.trans hf₂).kind? hkind) (by decide)

/-- An element type has no array type or one. The symbol that is made for an array type can be asked
for as its element type. -/
theorem succeeds_arrayOf (ha : Answerable setting g) {element : SymbolId} (hx : element ≤ g.size) :
    Succeeds setting g (arrayOf element) fun type g' => g'.DenotesType type := by
  unfold arrayOf
  refine .graph_bind ?_
  split
  · next hnone =>
    refine (succeeds_alloc ha _ _ _).bind fun array g' ha' hf ⟨harray, hg'⟩ => ?_
    subst harray hg'
    exact succeeds_linkArray ha hnone (by rw [size_alloc]; exact Nat.lt_succ_of_le hx)
  · next array hsole =>
    have hmem : array ∈ g.arrayTypes element := by rw [hsole]; exact List.mem_singleton_self array
    have he := ha.mirrored.mem_sources_iff.mp hmem
    exact .pure ha (.of_kind (ha.arrayKind he rfl) (by decide))
  · next many hnone hsole =>
    have hlength := ha.sound.graph.arrays.length_sources_le ha.mirrored element
    change (g.arrayTypes element).length ≤ 1 at hlength
    match hmany : g.arrayTypes element with
    | [] => exact absurd hmany hnone
    | [array] => exact absurd hmany (hsole array)
    | _ :: _ :: _ => simp [hmany] at hlength

variable {place : TypePlace}

/-- What a name denotes, or the error symbol. -/
theorem succeeds_namedType (ha : Answerable setting g) (name reported : NodeRef) :
    Succeeds setting g (namedType setting place name reported)
      fun type g' => g'.DenotesType type := by
  unfold namedType
  refine (succeeds_findPath ha _ _ _ _).bind fun found g₁ ha₁ _ hfound => ?_
  cases found with
  | none => exact succeeds_missing ha₁ _ fun _ ha' => ha'.denotesType_error
  | some found =>
      refine (succeeds_asType ha₁ (.of_declared (hfound found rfl))).bind
        fun type g₂ ha₂ _ ⟨kind, hk, hclass, halias⟩ => .graph_bind ?_
      rw [hk]
      split
      · next htype =>
        refine .pure ha₂ (.of_kind hk ?_)
        cases kind <;> simp_all [SymbolKind.isType]
      · exact succeeds_missing ha₂ _ fun _ ha' => ha'.denotesType_error

section Nested

variable {resolve : NodeRef → ResolveM SymbolId}

/-- A part of a symbol is made with its type. -/
theorem succeeds_typedPart (ha : Answerable setting g) {holder : SymbolId} (hx : holder < g.size)
    {r : NodeRef} (hresolve : AnswersType setting (resolve r)) (name : String)
    (symbolKind : SymbolKind) (flags : Flags SymbolFlag) {kind : EdgeKind} (hk : kind.isPart) :
    Succeeds setting g (do
      let part ← alloc name symbolKind flags
      link holder part kind
      let type ← resolve r
      setSingle part type .typedAs
      markResolved part) := by
  refine (succeeds_alloc ha name symbolKind flags).bind fun part g₁ ha₁ hf₁ ⟨hpart, hg₁⟩ => ?_
  have hlt : part < g₁.size := by
    rw [hpart, hg₁]
    exact lt_size_alloc g name symbolKind flags
  have hne : kind ≠ .arrayOf ∧ kind ≠ .instanceType ∧ kind ≠ .typedAs := by
    refine ⟨?_, ?_, ?_⟩ <;> (rintro rfl; simp [EdgeKind.isPart] at hk)
  refine (succeeds_link ha₁ (hf₁.lt_size hx) hlt hne.1 hne.2.1 fun h => absurd h hne.2.2).bind
    fun _ g₂ ha₂ hf₂ _ => ?_
  refine (hresolve g₂ ha₂).bind fun type g₃ ha₃ hf₃ htype => ?_
  refine (succeeds_setSingle ha₃ (hf₃.lt_size (hf₂.lt_size hlt)) htype.stands.1 rfl
    fun _ => htype.stands).bind fun _ g₄ ha₄ _ _ => ?_
  exact (succeeds_markResolved ha₄ part).weaken fun _ _ _ _ _ => True.intro

theorem succeeds_makeParameter (ha : Answerable setting g) {signature : SymbolId}
    (hx : signature < g.size) {r : NodeRef}
    (hresolve : ∀ part, place.tree.IsPart part r → AnswersType setting (resolve part)) :
    Succeeds setting g (makeParameter place resolve signature r) := by
  unfold makeParameter
  split
  · next node p _ hp =>
    exact succeeds_typedPart ha hx (hresolve _ (DocTree.isPart_typeNode_of_parameter hp)) _ _ _ rfl
  · exact .pure ha True.intro

theorem succeeds_makeSignature (ha : Answerable setting g) {r : NodeRef}
    (hresolve : ∀ part, place.tree.IsPart part r → AnswersType setting (resolve part)) :
    Succeeds setting g (makeSignature place resolve r) fun signature g' => signature < g'.size := by
  unfold makeSignature
  refine (succeeds_alloc ha _ _ _).bind fun signature g₁ ha₁ _ ⟨hsignature, hg₁⟩ => ?_
  have hlt : signature < g₁.size := by
    rw [hsignature, hg₁]
    exact lt_size_alloc g _ _ _
  have hparameters := Succeeds.forM (f := makeParameter place resolve signature) ha₁
    (((place.tree.function? r).map (·.parameters)).getD []) fun p hp g' ha' hf =>
      succeeds_makeParameter ha' (hf.lt_size hlt) fun part hpart =>
        hresolve part (hpart.trans (DocTree.below_of_mem_parameters hp))
  refine hparameters.bind fun _ g₂ ha₂ hf₂ _ => ?_
  refine (hresolve _ (DocTree.isPart_returnNode place.tree r) g₂ ha₂).bind
    fun type g₃ ha₃ hf₃ htype => ?_
  have hlt₃ := hf₃.lt_size (hf₂.lt_size hlt)
  refine (succeeds_setSingle ha₃ hlt₃ htype.stands.1 rfl fun _ => htype.stands).bind
    fun _ g₄ ha₄ hf₄ _ => ?_
  exact (succeeds_markResolved ha₄ signature).bind fun _ g₅ ha₅ hf₅ _ =>
    .pure ha₅ (hf₅.lt_size (hf₄.lt_size hlt₃))

/-- A signature is made and hung on a symbol. -/
theorem succeeds_makeSignature_link (ha : Answerable setting g) {owner : SymbolId}
    (hx : owner < g.size) {r : NodeRef}
    (hresolve : ∀ part, place.tree.IsPart part r → AnswersType setting (resolve part))
    {kind : EdgeKind} (hk : kind.isSignature) : Succeeds setting g (do
      let signature ← makeSignature place resolve r
      link owner signature kind) := by
  refine (succeeds_makeSignature ha hresolve).bind fun signature g' ha' hf hlt => ?_
  refine succeeds_link ha' (hf.lt_size hx) hlt ?_ ?_ ?_ <;> rintro rfl <;>
    simp [EdgeKind.isSignature] at hk

/-- A new symbol is a type if it is made for a node that denotes types. -/
theorem denotesType_alloc (g : SymbolGraph) {kind : SymbolKind}
    (hk : kind = .function ∨ kind = .typeLiteral) :
    (g.alloc "" kind (Flags.single .synthesized)).DenotesType g.size := by
  have hlabel : (g.alloc "" kind (Flags.single .synthesized)).label? g.size =
      some { name := "", kind, flags := Flags.single .synthesized } := by
    rw [label?_alloc, if_pos rfl]
  refine ⟨kind, by rw [kind?_eq, hlabel]; rfl, hk.symm.imp (fun h => by simp [h]) fun h => ⟨h, ?_⟩⟩
  rw [has_eq, hlabel]
  simpa [Symbol.has] using has_synthesized_single

theorem answersType_makeCallable {r : NodeRef}
    (hresolve : ∀ part, place.tree.IsPart part r → AnswersType setting (resolve part))
    {kind : SymbolKind} (hkind : kind = .function ∨ kind = .typeLiteral) {signatureKind : EdgeKind}
    (hk : signatureKind.isSignature) :
    AnswersType setting (makeCallable place resolve r kind signatureKind) := by
  intro g ha
  unfold makeCallable
  refine (succeeds_alloc ha _ _ _).bind fun callable g₁ ha₁ _ ⟨hcallable, hg₁⟩ => ?_
  have htype : g₁.DenotesType callable := hg₁ ▸ hcallable ▸ denotesType_alloc g hkind
  rw [← bind_assoc]
  refine (succeeds_makeSignature_link ha₁ htype.stands.1 hresolve hk).bind
    fun _ g₂ ha₂ hf₂ _ => ?_
  exact (succeeds_markResolved ha₂ callable).bind fun _ g₃ ha₃ hf₃ _ =>
    .pure ha₃ (htype.follows (hf₂.trans hf₃))

theorem succeeds_literalMethod (ha : Answerable setting g) {literal : SymbolId}
    (hx : literal < g.size) (name : String) :
    Succeeds setting g (literalMethod literal name) fun method g' => method < g'.size := by
  unfold literalMethod
  refine .graph_bind ?_
  split
  · next method hm =>
    exact .pure ha (lt_size_of_mem_members ha.mirrored (List.mem_of_find?_eq_some hm))
  · refine (succeeds_alloc ha _ _ _).bind fun method g₁ ha₁ hf₁ ⟨hmethod, hg₁⟩ => ?_
    have hlt : method < g₁.size := by
      rw [hmethod, hg₁]
      exact lt_size_alloc g _ _ _
    refine (succeeds_link ha₁ (hf₁.lt_size hx) hlt (by decide) (by decide) (by simp)).bind
      fun _ g₂ ha₂ hf₂ _ => ?_
    exact (succeeds_markResolved ha₂ method).bind fun _ g₃ ha₃ hf₃ _ =>
      .pure ha₃ (hf₃.lt_size (hf₂.lt_size hlt))

theorem succeeds_makeMember (ha : Answerable setting g) {literal : SymbolId}
    (hx : literal < g.size) {r : NodeRef}
    (hresolve : ∀ part, place.tree.IsPart part r → AnswersType setting (resolve part)) :
    Succeeds setting g (makeMember place resolve literal r) := by
  unfold makeMember
  split
  · exact .pure ha True.intro
  · split
    · split
      · next p hp =>
        exact succeeds_typedPart ha hx (hresolve _ (DocTree.isPart_typeNode_of_property hp)) _ _ _ rfl
      · exact .pure ha True.intro
    · exact (succeeds_literalMethod ha hx _).bind fun method g' ha' _ hm =>
        succeeds_makeSignature_link ha' hm hresolve rfl
    · exact succeeds_makeSignature_link ha hx hresolve rfl
    · exact succeeds_makeSignature_link ha hx hresolve rfl
    · exact succeeds_makeSignature_link ha hx hresolve rfl
    · exact .pure ha True.intro

theorem answersType_makeLiteral {r : NodeRef}
    (hresolve : ∀ part, place.tree.IsPart part r → AnswersType setting (resolve part)) :
    AnswersType setting (makeLiteral place resolve r) := by
  intro g ha
  unfold makeLiteral
  refine (succeeds_alloc ha _ _ _).bind fun literal g₁ ha₁ _ ⟨hliteral, hg₁⟩ => ?_
  have htype : g₁.DenotesType literal := hg₁ ▸ hliteral ▸ denotesType_alloc g (.inr rfl)
  refine (succeeds_markResolved ha₁ literal).bind fun _ g₂ ha₂ hf₂ _ => ?_
  refine Succeeds.bind (.forM ha₂ _ fun m hm g' ha' hf => ?_) fun _ g₃ ha₃ hf₃ _ =>
    .pure ha₃ (htype.follows (hf₂.trans hf₃))
  exact succeeds_makeMember ha' (hf.lt_size (hf₂.lt_size htype.stands.1)) fun part hpart =>
    hresolve part (hpart.trans (DocTree.below_of_mem_literalMembers hm))

/-- What a node denotes, given what the nodes below it denote. -/
theorem answersType_typeOfNode {r : NodeRef}
    (hresolve : ∀ part, place.tree.IsPart part r → AnswersType setting (resolve part)) :
    AnswersType setting (typeOfNode place resolve setting r) := by
  intro g ha
  unfold typeOfNode
  split
  · exact succeeds_namedType ha _ r
  · exact succeeds_namedType ha r r
  · exact succeeds_namedType ha r r
  · exact (hresolve _ (DocTree.isPart_elementNode place.tree r) g ha).bind
      fun element g' ha' _ htype => succeeds_arrayOf ha' (Nat.le_of_lt htype.stands.1)
  · exact answersType_makeCallable hresolve (.inl rfl) rfl g ha
  · exact answersType_makeCallable hresolve (.inr rfl) rfl g ha
  · exact answersType_makeLiteral hresolve g ha
  · exact .pure ha (ha.denotesType_keyword _)
  · exact .pure ha ha.denotesType_any

end Nested

/-- By induction on the levels of the node. -/
theorem answersType_typeWithin (levels : Nat) {r : NodeRef}
    (hr : place.tree.HasLevels levels r) :
    AnswersType setting (typeWithin setting place (levels + 1) r) := by
  induction levels generalizing r with
  | zero =>
      intro g ha
      have hany : typeWithin setting place 1 r = pure WellKnown.any := by
        rw [typeWithin, typeOfNode, DocTree.kind?, show place.tree.node? r = none from hr]
        rfl
      rw [hany]
      exact .pure ha ha.denotesType_any
  | succ levels ih =>
      rw [typeWithin]
      exact answersType_typeOfNode fun part hpart => ih (hr part hpart)

/-- Where the parts of nodes go round in a circle, by induction on the bound. -/
theorem answersType_typeWithin_of_endless (htrees : ¬setting.program.HasTrees) (levels : Nat)
    (r : NodeRef) : AnswersType setting (typeWithin setting place levels r) := by
  induction levels generalizing r with
  | zero => exact fun g ha => .throw_endless ha rfl htrees
  | succ levels ih =>
      rw [typeWithin]
      exact answersType_typeOfNode fun part _ => ih part

/-- Whatever the document of a unit is like. -/
theorem answersType_typeAt (htree : setting.program.IsUnitTree place.tree) (r : NodeRef) :
    AnswersType setting (typeAt setting place r) := by
  by_cases htrees : setting.program.HasTrees
  · obtain ⟨u, hu, hut⟩ := htree
    exact answersType_typeWithin _ ((hut ▸ htrees u hu).hasLevels r)
  · exact answersType_typeWithin_of_endless htrees _ r

/-- Whatever the node, the context and the place, also where these do not exist. -/
theorem succeeds_typeReference (ha : Answerable setting g) {u : CompilationUnit} {unit : UnitId}
    (hu : setting.program.unitById? unit = some u) (r : NodeRef) (context : List SymbolId)
    (enclosing : Option DeclId) : Succeeds setting g (typeReference setting unit r context enclosing)
      fun type g' => g'.DenotesType type := by
  unfold typeReference
  rw [hu]
  exact answersType_typeAt ⟨u, List.mem_of_find?_eq_some hu, rfl⟩ r g ha

/-! ### Collisions -/

theorem succeeds_reportCollision (ha : Answerable setting g) {earlier later : SymbolId}
    (hearlier : earlier < g.size) (hlater : later < g.size) :
    Succeeds setting g (reportCollision setting earlier later) := by
  unfold reportCollision
  refine .graph_bind ((succeeds_firstSite ha hlater).bind fun site? g' ha' hf _ => ?_)
  cases site? with
  | none => exact .pure ha' True.intro
  | some site =>
      refine (succeeds_firstSite ha' (hf.lt_size hearlier)).bind fun first? g'' ha'' _ _ => ?_
      cases first? with
      | none => exact succeeds_report ha'' _
      | some first => exact succeeds_report ha'' _

theorem succeeds_checkCollisions (ha : Answerable setting g) (container : SymbolId) :
    Succeeds setting g (checkCollisions setting container) := by
  unfold checkCollisions
  split
  · refine .graph_bind (.forM ha _ fun p hp g' ha' hf => ?_)
    obtain ⟨hfirst, hlast⟩ := mem_of_mem_pairsFrom (List.mem_of_mem_filter hp)
    exact succeeds_reportCollision ha' (hf.lt_size (lt_size_of_mem_members ha.mirrored hfirst))
      (hf.lt_size (lt_size_of_mem_members ha.mirrored hlast))
  · exact .pure ha True.intro

/-! ### Bases -/

/-- An entry denotes a symbol that exists, or nothing. -/
theorem succeeds_heritageTarget (ha : Answerable setting g) (site : DeclSite) (notObject : Nat)
    (entry : NodeRef) : Succeeds setting g (heritageTarget setting site notObject entry)
      fun target? g' => ∀ target, target? = some target → target < g'.size := by
  unfold heritageTarget
  have hfound : ∀ (found : SymbolId) (d : Diagnostic) (g' : SymbolGraph), Answerable setting g' →
      g'.declarations found ≠ [] → Succeeds setting g' (do
        let type ← asType setting found
        let kind? := (← graph).kind? type
        if (kind?.map (·.isObjectType)).getD false || kind? == some .error then return some type
        else
          report d
          return none : ResolveM (Option SymbolId))
        fun target? g' => ∀ target, target? = some target → target < g'.size := by
    intro found d g' ha' hfound
    refine (succeeds_asType ha' (.of_declared hfound)).bind
      fun type g₁ ha₁ _ ⟨kind, hk, _⟩ => .graph_bind ?_
    dsimp only
    split
    · refine .pure ha₁ ?_
      rintro _ ⟨⟩
      exact lt_size_of_kind? hk
    · refine (succeeds_report ha₁ d).bind fun _ g₂ ha₂ _ _ => .pure ha₂ ?_
      exact fun _ h => absurd h (by simp)
  refine (succeeds_findPath ha _ _ _ _).bind fun found g₁ ha₁ _ hdeclared => ?_
  cases found with
  | some found => exact hfound found _ g₁ ha₁ (hdeclared found rfl)
  | none =>
      refine (succeeds_findPath ha₁ _ _ _ _).bind fun found g₂ ha₂ _ hdeclared => ?_
      cases found with
      | some found => exact hfound found _ g₂ ha₂ (hdeclared found rfl)
      | none =>
          refine (succeeds_report ha₂ _).bind fun _ g₃ ha₃ _ _ => .pure ha₃ ?_
          rintro _ ⟨⟩
          exact (stands_error ha₃).1

section Pull

variable {pull : SymbolId → ResolveM Unit}

/-- From now on the bases of every type can be resolved. -/
abbrev AnswersPulls (setting : Setting) (g : SymbolGraph) (pull : SymbolId → ResolveM Unit) : Prop :=
  ∀ g', Answerable setting g' → g.Follows g' → ∀ type, Succeeds setting g' (pull type)

theorem succeeds_extendWith (ha : Answerable setting g) (hpull : AnswersPulls setting g pull)
    (site : DeclSite) (notObject : Nat) (hx : x < g.size) (entry : NodeRef) :
    Succeeds setting g (extendWith pull setting site notObject x entry) := by
  unfold extendWith
  refine (succeeds_heritageTarget ha site notObject entry).bind fun target? g₁ ha₁ hf₁ ht => ?_
  cases target? with
  | none => exact .pure ha₁ True.intro
  | some base =>
      unfold linkBase
      refine (hpull g₁ ha₁ hf₁ base).bind fun _ g₂ ha₂ hf₂ _ => .graph_bind ?_
      split
      · exact succeeds_report ha₂ _
      · exact succeeds_link ha₂ (hf₂.lt_size (hf₁.lt_size hx)) (hf₂.lt_size (ht base rfl)) (by decide)
          (by decide) (by simp)

theorem succeeds_implementWith (ha : Answerable setting g) (site : DeclSite) (hx : x < g.size)
    (entry : NodeRef) : Succeeds setting g (implementWith setting site x entry) := by
  unfold implementWith
  refine (succeeds_heritageTarget ha site _ entry).bind fun target? g' ha' hf ht => ?_
  cases target? with
  | none => exact .pure ha' True.intro
  | some target =>
      exact succeeds_link ha' (hf.lt_size hx) (ht target rfl) (by decide) (by decide) (by simp)

theorem succeeds_resolveClassDecl (ha : Answerable setting g) (hpull : AnswersPulls setting g pull)
    {inst cls : SymbolId} (hx : inst < g.size) {d : DeclId} (hd : d ∈ g.declarations cls) :
    Succeeds setting g (resolveClassDecl pull setting inst d) := by
  unfold resolveClassDecl
  refine (succeeds_site ha hd).bind fun site g' ha' hf _ => ?_
  cases site.tree.classDecl? site.decl.node with
  | none => exact .pure ha' True.intro
  | some c =>
      refine Succeeds.bind (.forM ha' _ fun entry _ g₁ ha₁ hf₁ => ?_) fun _ g₂ ha₂ hf₂ _ =>
        .forM ha₂ _ fun entry _ g₃ ha₃ hf₃ => ?_
      · have hfollows := hf.trans hf₁
        exact succeeds_extendWith ha₁ (fun g₂ ha₂ hf₂ => hpull g₂ ha₂ (hfollows.trans hf₂)) site _
          (hfollows.lt_size hx) entry
      · exact succeeds_implementWith ha₃ site (((hf.trans hf₂).trans hf₃).lt_size hx) entry

/-- Bases are only asked for if the class is declared and was not resolved. -/
theorem succeeds_resolveClassWith (ha : Answerable setting g) {inst : SymbolId}
    (hinst : g.instanceType? x = some inst)
    (hpull : g.declarations x ≠ [] → ¬g.isResolved x →
      AnswersPulls setting (g.setResolved x true) pull) :
    Succeeds setting g (resolveClassWith pull setting x) := by
  obtain ⟨hx, hlt⟩ := ha.mirrored.lt_size (hasEdge_of_instanceType? ha.mirrored hinst)
  unfold resolveClassWith
  refine succeeds_begin_then ha hx fun hnew => .graph_bind ?_
  rw [instanceType?_setResolved, hinst]
  have hf := Follows.mark g x
  refine (succeeds_markResolved (ha.mark x) inst).bind fun _ g₁ ha₁ hf₁ _ => ?_
  refine (succeeds_removeOutgoing ha₁ inst rfl).bind fun _ g₂ ha₂ hf₂ _ => ?_
  refine (succeeds_removeOutgoing ha₂ inst rfl).bind fun _ g₃ ha₃ hf₃ _ => ?_
  have hfresh := (hf₁.trans hf₂).trans hf₃
  refine (succeeds_declarations ha₃ ((hf.trans hfresh).lt_size hx)).bind
    fun ds g₄ ha₄ hf₄ ⟨hds, _⟩ => ?_
  have hdeclared : ∀ d ∈ ds, d ∈ g.declarations x := fun d hd => by
    rwa [hds, (hf.trans hfresh).declarations] at hd
  refine Succeeds.bind (.forM ha₄ ds fun d hd g₅ ha₅ hf₅ => ?_) fun _ g₅ ha₅ _ _ => ?_
  · have hlater := hfresh.trans (hf₄.trans hf₅)
    have hd₅ : d ∈ g₅.declarations x := by
      rw [(hf.trans hlater).declarations]
      exact hdeclared d hd
    refine succeeds_resolveClassDecl ha₅ (fun g' ha' hf' => ?_) ((hf.trans hlater).lt_size hlt) hd₅
    exact hpull (List.ne_nil_of_mem (hdeclared d hd)) hnew g' ha' (hlater.trans hf')
  · exact (succeeds_checkCollisions ha₅ inst).bind fun _ _ ha₆ _ _ => succeeds_checkCollisions ha₆ x

theorem succeeds_resolveInterfaceDecl (ha : Answerable setting g)
    (hpull : AnswersPulls setting g pull) (hx : x < g.size) {d : DeclId}
    (hd : d ∈ g.declarations x) : Succeeds setting g (resolveInterfaceDecl pull setting x d) := by
  unfold resolveInterfaceDecl
  refine (succeeds_site ha hd).bind fun site g' ha' hf _ => ?_
  cases site.tree.interfaceDecl? site.decl.node with
  | none => exact .pure ha' True.intro
  | some i =>
      refine .forM ha' _ fun entry _ g₁ ha₁ hf₁ => ?_
      have hfollows := hf.trans hf₁
      exact succeeds_extendWith ha₁ (fun g₂ ha₂ hf₂ => hpull g₂ ha₂ (hfollows.trans hf₂)) site _
        (hfollows.lt_size hx) entry

/-- Bases are only asked for if the interface is declared and was not resolved. -/
theorem succeeds_resolveInterfaceWith (ha : Answerable setting g) (hx : x < g.size)
    (hpull : g.declarations x ≠ [] → ¬g.isResolved x →
      AnswersPulls setting (g.setResolved x true) pull) :
    Succeeds setting g (resolveInterfaceWith pull setting x) := by
  unfold resolveInterfaceWith
  refine succeeds_begin_then ha hx fun hnew => ?_
  have hf := Follows.mark g x
  refine (succeeds_removeOutgoing (ha.mark x) x rfl).bind fun _ g₁ ha₁ hf₁ _ => ?_
  refine (succeeds_declarations ha₁ ((hf.trans hf₁).lt_size hx)).bind
    fun ds g₂ ha₂ hf₂ ⟨hds, _⟩ => ?_
  have hdeclared : ∀ d ∈ ds, d ∈ g.declarations x := fun d hd => by
    rwa [hds, (hf.trans hf₁).declarations] at hd
  refine Succeeds.bind (.forM ha₂ ds fun d hd g₃ ha₃ hf₃ => ?_) fun _ g₃ ha₃ _ _ =>
    succeeds_checkCollisions ha₃ x
  have hlater := hf₁.trans (hf₂.trans hf₃)
  have hd₃ : d ∈ g₃.declarations x := by
    rw [(hf.trans hlater).declarations]
    exact hdeclared d hd
  refine succeeds_resolveInterfaceDecl ha₃ (fun g' ha' hf' => ?_) ((hf.trans hlater).lt_size hx) hd₃
  exact hpull (List.ne_nil_of_mem (hdeclared d hd)) hnew g' ha' (hlater.trans hf')

end Pull

/-- By induction on the types that may still lie below. Each of them is declared and is marked
before its bases are resolved, so that the unresolved symbols before `n` get fewer. -/
theorem succeeds_pullWithin {n types : Nat} (ha : Answerable setting g)
    (hdeclared : ∀ x, g.declarations x ≠ [] → x < n) (htypes : (g.unresolvedBelow n).card < types)
    (type : SymbolId) : Succeeds setting g (pullWithin setting types type) := by
  induction types generalizing g type with
  | zero => exact absurd htypes (Nat.not_lt_zero _)
  | succ types ih =>
      have hpull : ∀ x < g.size, g.declarations x ≠ [] → ¬g.isResolved x →
          AnswersPulls setting (g.setResolved x true) (pullWithin setting types) := by
        intro x hx hdecl hnew g' ha' hf type
        refine ih ha' (fun y hy => hdeclared y ?_) ?_ type
        · rwa [((Follows.mark g x).trans hf).declarations] at hy
        · have hcard := card_unresolvedBelow_lt hx (hdeclared x hdecl) hnew hf
          exact Nat.lt_of_lt_of_le hcard (Nat.le_of_lt_succ htypes)
      rw [pullWithin]
      refine .graph_bind ?_
      split
      · split
        · next cls hcls =>
          have he := hasEdge_of_classOfInstance? ha.mirrored hcls
          obtain ⟨inst, hinst⟩ := exists_instanceType? ha.mirrored he
          exact succeeds_resolveClassWith ha hinst (hpull cls (ha.mirrored.lt_size he).1)
        · exact .pure ha True.intro
      · next hk =>
        have hx := lt_size_of_kind? hk
        exact succeeds_resolveInterfaceWith ha hx (hpull type hx)
      · exact .pure ha True.intro

/-- There are no more types than symbols. -/
theorem succeeds_pullWithin_size (ha : Answerable setting g) (type : SymbolId) :
    Succeeds setting g (pullWithin setting (g.size + 1) type) := by
  have hdeclared : ∀ x, g.declarations x ≠ [] → x < g.size := fun x hx => (Stands.of_declared hx).1
  have hcard : (g.unresolvedBelow g.size).card ≤ g.size :=
    Nat.le_trans (Finset.card_filter_le _ _) (Nat.le_of_eq (Finset.card_range _))
  exact succeeds_pullWithin ha hdeclared (Nat.lt_succ_of_le hcard) type

theorem succeeds_pull (ha : Answerable setting g) (type : SymbolId) :
    Succeeds setting g (pull setting type) := .graph_bind (succeeds_pullWithin_size ha type)

theorem succeeds_resolveClass (ha : Answerable setting g) {inst : SymbolId}
    (hinst : g.instanceType? x = some inst) : Succeeds setting g (resolveClass setting x) :=
  succeeds_resolveClassWith ha hinst fun _ _ _ ha' _ => succeeds_pull ha'

theorem succeeds_resolveInterface (ha : Answerable setting g) (hx : x < g.size) :
    Succeeds setting g (resolveInterface setting x) :=
  succeeds_resolveInterfaceWith ha hx fun _ _ _ ha' _ => succeeds_pull ha'

/-! ### Symbols -/

theorem succeeds_resolveModule (ha : Answerable setting g) (hx : x < g.size) :
    Succeeds setting g (resolveModule setting x) :=
  succeeds_begin_then ha hx fun _ => succeeds_checkCollisions (ha.mark x) x

theorem succeeds_chooseTypeNode (ha : Answerable setting g) {ds : List DeclId}
    (hds : ∀ d ∈ ds, d ∈ g.declarations x) {chosen : Option (DeclSite × NodeRef)}
    (hchosen : ∀ c, chosen = some c → setting.program.IsUnitTree c.1.tree) :
    Succeeds setting g (chooseTypeNode setting chosen ds)
      fun chosen _ => ∀ c, chosen = some c → setting.program.IsUnitTree c.1.tree := by
  induction ds generalizing g chosen with
  | nil => exact .pure ha hchosen
  | cons d ds ih =>
      rw [chooseTypeNode]
      refine (succeeds_site ha (hds d List.mem_cons_self)).bind ?_
      rintro site g' ha' - ⟨htree, rfl⟩
      have hrest : ∀ d ∈ ds, d ∈ g'.declarations x := fun d hd => hds d (List.mem_cons_of_mem _ hd)
      split
      · exact ih ha' hrest hchosen
      · refine .pure ha' ?_
        rintro _ ⟨⟩
        exact htree
      · refine ih ha' hrest fun c hc => ?_
        rcases Option.or_eq_some_iff.mp hc with hc | ⟨-, hc⟩
        · exact hchosen c hc
        · cases hc
          exact htree

theorem succeeds_resolveValue (ha : Answerable setting g) (hx : x < g.size) :
    Succeeds setting g (resolveValue setting x) := by
  unfold resolveValue
  refine succeeds_begin_then ha hx fun _ => ?_
  have hx' := (Follows.mark g x).lt_size hx
  refine (succeeds_declarations (ha.mark x) hx').bind fun ds g₁ ha₁ hf₁ ⟨hds, hg₁⟩ => ?_
  subst hds hg₁
  refine (succeeds_chooseTypeNode ha₁ (fun _ hd => hd) (fun _ h => absurd h (by simp))).bind
    fun chosen g₂ ha₂ hf₂ hchosen => ?_
  have htyped : ∀ {step : ResolveM SymbolId}, AnswersType setting step →
      Succeeds setting g₂ (do
        let type ← step
        setSingle x type .typedAs) := fun hstep =>
    (hstep g₂ ha₂).bind fun type g₃ ha₃ hf₃ htype =>
      succeeds_setSingle ha₃ (hf₃.lt_size (hf₂.lt_size hx')) htype.stands.1 rfl fun _ => htype.stands
  split
  · exact htyped (answersType_typeAt (hchosen _ rfl) _)
  · exact htyped fun _ ha => .pure ha ha.denotesType_any

/-- The return type exists. -/
theorem succeeds_declaredReturn (ha : Answerable setting g) {site : DeclSite}
    (htree : setting.program.IsUnitTree site.tree) :
    Succeeds setting g (declaredReturn setting x site) fun type g' => type < g'.size := by
  unfold declaredReturn
  refine .graph_bind ?_
  split
  · refine .pure ha ?_
    cases hinst : (g.container? x).bind g.instanceType? with
    | none => exact ha.denotesType_any.stands.1
    | some inst =>
        obtain ⟨cls, -, hinst⟩ := Option.bind_eq_some_iff.mp hinst
        exact (ha.mirrored.lt_size (hasEdge_of_instanceType? ha.mirrored hinst)).2
  · exact (answersType_typeAt htree _ g ha).weaken fun _ _ _ _ htype => htype.stands.1

theorem succeeds_resolveSignature (ha : Answerable setting g) (hx : x < g.size) :
    Succeeds setting g (resolveSignature setting x) := by
  unfold resolveSignature
  refine succeeds_begin_then ha hx fun _ => .graph_bind ?_
  have hx' := (Follows.mark g x).lt_size hx
  refine Succeeds.bind (.forM (ha.mark x) _ fun p hp g' ha' hf => ?_) fun _ g₁ ha₁ hf₁ _ => ?_
  · exact succeeds_resolveValue ha' (hf.lt_size (lt_size_of_mem_parameters (ha.mark x).mirrored hp))
  refine (succeeds_firstSite ha₁ (hf₁.lt_size hx')).bind fun site? g₂ ha₂ hf₂ ⟨htree, _⟩ => ?_
  cases site? with
  | none => exact .pure ha₂ True.intro
  | some site =>
      refine (succeeds_declaredReturn ha₂ (htree site rfl)).bind fun type g₃ ha₃ hf₃ htype => ?_
      have hlt := hf₃.lt_size (hf₂.lt_size (hf₁.lt_size hx'))
      exact succeeds_setSingle ha₃ hlt htype rfl (by simp)

theorem succeeds_reportImplementations (ha : Answerable setting g) {ds : List DeclId}
    (hds : ∀ d ∈ ds, d ∈ g.declarations x) (seen : Bool) :
    Succeeds setting g (reportImplementations setting seen ds) := by
  induction ds generalizing g seen with
  | nil => exact .pure ha True.intro
  | cons d ds ih =>
      have hrest : ∀ g', g.Follows g' → ∀ d ∈ ds, d ∈ g'.declarations x := fun g' hf d hd => by
        rw [hf.declarations]
        exact hds d (List.mem_cons_of_mem _ hd)
      rw [reportImplementations]
      refine (succeeds_site ha (hds d List.mem_cons_self)).bind fun site g₁ ha₁ hf₁ _ => ?_
      dsimp only
      split
      · exact (succeeds_report ha₁ _).bind fun _ g₂ ha₂ hf₂ _ =>
          ih ha₂ (hrest g₂ (hf₁.trans hf₂)) _
      · exact ih ha₁ (hrest g₁ hf₁) _

theorem succeeds_resolveFunction (ha : Answerable setting g) (hx : x < g.size) :
    Succeeds setting g (resolveFunction setting x) := by
  unfold resolveFunction
  refine succeeds_begin_then ha hx fun _ => .graph_bind ?_
  have hx' := (Follows.mark g x).lt_size hx
  refine Succeeds.bind (.forM (ha.mark x) _ fun s hs g' ha' hf => ?_) fun _ g₁ ha₁ hf₁ _ => ?_
  · have hlt := lt_size_of_mem_callSignatures (ha.mark x).mirrored hs
    exact succeeds_resolveSignature ha' (hf.lt_size hlt)
  refine (succeeds_declarations ha₁ (hf₁.lt_size hx')).bind fun ds g₂ ha₂ _ ⟨hds, hg₂⟩ => ?_
  subst hds hg₂
  exact succeeds_reportImplementations ha₂ (fun _ hd => hd) false

/-- A symbol is resolved if it exists and, in case it is a class, is declared. -/
theorem succeeds_resolveSymbol (ha : Answerable setting g) (hx : g.Stands x) :
    Succeeds setting g (resolveSymbol setting x) := by
  unfold resolveSymbol
  refine .graph_bind ?_
  split
  · next hk =>
    obtain ⟨kind, hkind⟩ := exists_kind? hx.1
    exact absurd (hkind.symm.trans hk) (by simp)
  · exact succeeds_resolveModule ha hx.1
  · exact succeeds_resolveModule ha hx.1
  · next hk =>
    obtain ⟨inst, hinst⟩ := ha.exists_instanceType? hx hk
    exact succeeds_resolveClass ha hinst
  · split
    · next cls hcls =>
      have he := hasEdge_of_classOfInstance? ha.mirrored hcls
      obtain ⟨inst, hinst⟩ := exists_instanceType? ha.mirrored he
      exact succeeds_resolveClass ha hinst
    · exact .pure ha True.intro
  · exact succeeds_resolveInterface ha hx.1
  · exact succeeds_resolveFunction ha hx.1
  · exact succeeds_resolveFunction ha hx.1
  · exact succeeds_resolveSignature ha hx.1
  · exact succeeds_resolveValue ha hx.1
  · exact succeeds_resolveValue ha hx.1
  · exact succeeds_resolveValue ha hx.1
  · exact (answersAliases_resolveAlias g ha x hx.1).bind fun _ _ ha' _ _ => .pure ha' True.intro
  all_goals exact (succeeds_markResolved ha x).weaken fun _ _ _ _ _ => True.intro

end ResolveM

end NameBinding
