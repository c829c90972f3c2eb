import NameBinding.Proofs.Program.Nesting
import NameBinding.Proofs.Workspace.Adding
import NameBinding.Proofs.Workspace.Admission
import NameBinding.Proofs.Workspace.Merging

/-! # Binding is complete

Whether a declaration is bound can be read off what stands around it. Binding goes into everything
that has declarations inside, apart from signatures among the members, of which it takes the
arguments only.

Main statement: after a document is set, a declaration of it is listed by a symbol exactly if it is no
script and has no signature around it, or is an argument of a signature that has none around it. In
trees that are built, that is every declaration but the script. -/

namespace NameBinding

/-! ### What is around a declaration -/

namespace CompilationUnit

/-- A call, construct or index signature has the number. -/
def IsSignature (u : CompilationUnit) (i : Nat) : Prop :=
  ∃ e, u.entryAt i = some e ∧ e.kind.isSignature

/-- No signature is around the declaration. -/
def IsExposed (u : CompilationUnit) (i : Nat) : Prop := ∀ p, u.Below p i → ¬u.IsSignature p

/-- The declaration is bound, by itself or as an argument of a signature. -/
def IsBindable (u : CompilationUnit) (i : Nat) (d : Decl) : Prop :=
  d.kind ≠ .script ∧
    (u.IsExposed i ∨ (d.kind = .argument ∧ ∃ p, u.Parent p i ∧ u.IsSignature p ∧ u.IsExposed p))

variable {u v : CompilationUnit} {i p : Nat} {d e : Decl}

theorem entryAt_eq (h : u.decls[i]? = some d) : u.entryAt i = some d.entry := by
  rw [entryAt, h, Option.map_some]

theorem isSignature_iff (h : u.decls[i]? = some d) : u.IsSignature i ↔ d.kind.isSignature := by
  rw [IsSignature, entryAt_eq h]
  simp [Decl.entry]

/-- A declaration has one parent. -/
theorem parent_eq_of_parent {q : Nat} (hp : u.Parent p i) (hq : u.Parent q i) : p = q := by
  obtain ⟨d, hd, hp⟩ := hp
  obtain ⟨d', hd', hq⟩ := hq
  obtain rfl := Option.some.inj (hd.symm.trans hd')
  simpa using hp.symm.trans hq

theorem below_iff_of_parent (hp : u.Parent p i) {q : Nat} :
    u.Below q i ↔ q = p ∨ u.Below q p := by
  constructor
  · intro h
    cases h with
    | single h => exact .inl (parent_eq_of_parent h hp)
    | tail h h' => exact .inr (parent_eq_of_parent h' hp ▸ h)
  · rintro (rfl | h)
    · exact .single hp
    · exact .tail h hp

/-- With its parent a declaration is exposed too, unless the parent is a signature. -/
theorem isExposed_iff_of_parent (hp : u.Parent p i) :
    u.IsExposed i ↔ u.IsExposed p ∧ ¬u.IsSignature p := by
  simp only [IsExposed, below_iff_of_parent hp]
  constructor
  · exact fun h => ⟨fun q hq => h q (.inr hq), h p (.inl rfl)⟩
  · rintro ⟨h, hs⟩ q (rfl | hq)
    · exact hs
    · exact h q hq

/-- Whether an argument is bound depends on what has it inside. -/
theorem isBindable_iff_of_parent (hk : d.kind = .argument) (hp : u.Parent p i) :
    u.IsBindable i d ↔ u.IsExposed p := by
  constructor
  · rintro ⟨-, hexposed | ⟨-, q, hq, -, hexposed⟩⟩
    · exact ((isExposed_iff_of_parent hp).mp hexposed).1
    · rwa [parent_eq_of_parent hp hq]
  · intro hexposed
    refine ⟨by simp [hk], ?_⟩
    by_cases hs : u.IsSignature p
    · exact .inr ⟨hk, p, hp, hs, hexposed⟩
    · exact .inl ((isExposed_iff_of_parent hp).mpr ⟨hexposed, hs⟩)

theorem isExposed_of_parent_eq_none (hd : u.decls[i]? = some d) (hp : d.parent = none) :
    u.IsExposed i := by
  intro q hq
  obtain ⟨p, -, d', hd', hp'⟩ := Relation.TransGen.tail'_iff.mp hq
  obtain rfl := Option.some.inj (hd.symm.trans hd')
  exact absurd (hp.symm.trans hp') (by simp)

end CompilationUnit

/-! ### What binding goes into -/

namespace Decl

variable {d : Decl} {file : String} {q : Place} {args : List Decl}

/-- Of what has declarations inside, only signatures are closed. -/
theorem outcome_eq_closed_iff (h : d.entry.Opens) :
    (d.outcome file q args).2 = .closed ↔ d.kind.isSignature := by
  unfold Entry.Opens at h
  dsimp only [Decl.entry] at h
  unfold outcome
  cases hk : d.kind with
  | function | method | staticMethod =>
      dsimp only
      split <;> simp [constructorOutcome, functionOutcome, DeclKind.isSignature]
  | field | staticField =>
      have hacc : d.has .accessor = true := by simpa [hk, DeclKind.isScope, has] using h
      simp [hacc, mergedOutcome, DeclKind.isSignature]
  | _ =>
      -- Variables, arguments and imports have nothing inside.
      simp [hk, DeclKind.isScope] at h <;>
        simp [mergedOutcome, classOutcome, memberSignatureOutcome, DeclKind.isSignature]

theorem mem_signaturePlaces_self {fieldsOf : Option Place} :
    (d.id.index, q) ∈ d.signaturePlaces file args fieldsOf q := List.mem_cons_self

/-- A declaration contributes for itself, unless it is a script or an argument. -/
theorem exists_mem_outcome (hscript : d.kind ≠ .script) (harg : d.kind ≠ .argument) :
    ∃ r, (d.id.index, r) ∈ (d.outcome file q args).1 := by
  unfold outcome
  cases hk : d.kind with
  | script => exact absurd hk hscript
  | argument => exact absurd hk harg
  | function | method | staticMethod =>
      dsimp only
      split
      · exact ⟨_, mem_signaturePlaces_self⟩
      · exact ⟨_, List.mem_cons_self⟩
  | field | staticField =>
      dsimp only
      split
      · exact ⟨_, List.mem_singleton_self _⟩
      · exact ⟨_, List.mem_singleton_self _⟩
  | classDecl => exact ⟨_, List.mem_cons_self⟩
  | callSignature | constructSignature | indexSignature => exact ⟨_, mem_signaturePlaces_self⟩
  | _ => exact ⟨_, List.mem_singleton_self _⟩

theorem mem_signaturePlaces_argument {fieldsOf : Option Place} {arg : Decl} (h : arg ∈ args) :
    (arg.id.index, arg.parameterAt file q) ∈ d.signaturePlaces file args fieldsOf q :=
  List.mem_cons_of_mem _ (List.mem_flatMap.mpr ⟨arg, h, List.mem_cons_self⟩)

/-- What has parameters contributes for them. -/
theorem exists_mem_outcome_argument (h : d.kind.isSignatureBearing) {arg : Decl}
    (harg : arg ∈ args) :
    ∃ r, (arg.id.index, r) ∈ (d.outcome file q args).1 := by
  unfold outcome
  cases hk : d.kind with
  | function | method | staticMethod =>
      dsimp only
      split
      · exact ⟨_, mem_signaturePlaces_argument harg⟩
      · exact ⟨_, List.mem_cons_of_mem _ (mem_signaturePlaces_argument harg)⟩
  | callSignature | constructSignature | indexSignature =>
      exact ⟨_, mem_signaturePlaces_argument harg⟩
  | _ => simp [hk, DeclKind.isSignatureBearing] at h

end Decl

namespace CompilationUnit

variable {u : CompilationUnit} {i p : Nat} {d e : Decl}

/-- A declaration is put in what its parent has inside. -/
theorem Preordered.scopeAt_of_parent (h : u.Preordered) (hd : u.decls[i]? = some d)
    (he : u.decls[p]? = some e) (hp : u.Parent p i) : u.scopeAt d = (u.outcomeAt e).2 := by
  have hlt := h.parent_lt hp
  obtain ⟨d', hd', hparent⟩ := hp
  obtain rfl := Option.some.inj (hd'.symm.trans hd)
  rw [scopeAt, openedAround, hparent, h.numbered i d' hd]
  dsimp only
  rw [getElem?_openedBefore he hlt, Option.getD_some, outcomeAt, h.numbered p e he]

section Places

variable (h : u.Preordered) (hframes : u.Linked Entry.Frames)

include h hframes

omit h in
theorem opens_of_parent (hp : u.Parent p i) (he : u.decls[p]? = some e) : e.entry.Opens := by
  obtain ⟨a, _, ha, -, hframe⟩ := hframes p i hp
  rw [entryAt_eq he] at ha
  exact Option.some.inj ha ▸ hframe.1

/-- By induction on the number. What is around a declaration comes before it. -/
theorem scopeAt_eq_closed_iff (hd : u.decls[i]? = some d) :
    u.scopeAt d = .closed ↔ ¬u.IsExposed i := by
  induction i using Nat.strongRecOn generalizing d with
  | ind i ih =>
      cases hparent : d.parent with
      | none =>
          refine iff_of_false ?_ (not_not.mpr (isExposed_of_parent_eq_none hd hparent))
          simp [scopeAt, openedAround, hparent]
      | some x =>
          obtain ⟨p, hp⟩ := h.exists_parent_of_some hd hparent
          obtain ⟨e, he, -⟩ := h.exists_parent hp
          rw [h.scopeAt_of_parent hd he hp, isExposed_iff_of_parent hp, not_and_or, not_not,
            ← ih p (h.parent_lt hp) he, isSignature_iff he]
          cases hscope : u.scopeAt e with
          | closed =>
              have hclosed : (u.outcomeAt e).2 = .closed := by
                rw [outcomeAt, outcomeOf, ← scopeAt, hscope]
              exact iff_of_true hclosed (.inl rfl)
          | scope q =>
              rw [outcomeAt_eq hscope, Decl.outcome_eq_closed_iff (opens_of_parent hframes hp he)]
              simp

theorem exists_scopeAt_iff (hd : u.decls[i]? = some d) :
    (∃ q, u.scopeAt d = .scope q) ↔ u.IsExposed i := by
  rw [← not_iff_not, ← scopeAt_eq_closed_iff h hframes hd]
  cases u.scopeAt d <;> simp

omit hframes in
theorem mem_arguments_of_parent (hd : u.decls[i]? = some d) (hk : d.kind = .argument)
    (he : u.decls[p]? = some e) (hp : u.Parent p i) : d ∈ u.arguments e := by
  have hmem : (⟨u.id, i⟩ : DeclId) ∈ e.children := (h.mem_children_iff he).mpr ⟨rfl, hp⟩
  refine List.mem_filter.mpr ⟨List.mem_filterMap.mpr ⟨_, hmem, ?_⟩, by simpa using hk⟩
  rw [decl?, if_pos rfl, hd]

/-- An argument has the places that it gets from what has it inside. -/
theorem exists_mem_places_argument (hd : u.decls[i]? = some d) (hk : d.kind = .argument)
    (hp : u.Parent p i) (hexposed : u.IsExposed p) : ∃ q, (i, q) ∈ u.places := by
  obtain ⟨e, he, heid⟩ := h.exists_parent hp
  obtain ⟨q, hq⟩ := (exists_scopeAt_iff h hframes he).mpr hexposed
  have hbearing : e.kind.isSignatureBearing := by
    obtain ⟨a, b, ha, hb, hframe⟩ := hframes p i hp
    rw [entryAt_eq he] at ha
    rw [entryAt_eq hd] at hb
    obtain rfl := Option.some.inj ha
    obtain rfl := Option.some.inj hb
    exact hframe.2 hk
  obtain ⟨r, hr⟩ : ∃ r, (d.id.index, r) ∈ (e.outcome u.path q (u.arguments e)).1 :=
    Decl.exists_mem_outcome_argument hbearing (mem_arguments_of_parent h hd hk he hp)
  rw [h.numbered i d hd] at hr
  refine ⟨r, (mem_places_iff h.numbered).mpr ⟨e, by rw [heid, decl?, if_pos rfl, he], ?_⟩⟩
  rwa [outcomeAt_eq hq]

omit hframes in
theorem parent_of_mem_arguments (hnested : u.Nested) (he : u.decls[p]? = some e)
    (hd : d ∈ u.arguments e) :
    d.kind = .argument ∧ u.decls[d.id.index]? = some d ∧ u.Parent p d.id.index := by
  obtain ⟨hmem, hk⟩ := List.mem_filter.mp hd
  obtain ⟨y, hy, hyd⟩ := List.mem_filterMap.mp hmem
  obtain ⟨child, hchild, hparent⟩ := hnested.child he hy
  obtain rfl := Option.some.inj (hyd.symm.trans hchild)
  have hget := (decl?_eq_some hyd).2
  have hindex : d.id.index = y.index := by rw [h.numbered _ _ hget]
  rw [← hindex] at hget
  refine ⟨by simpa using hk, hget, d, hget, ?_⟩
  rw [hparent, h.numbered p e he]

/-- The text tells whether a declaration has a place. -/
theorem exists_mem_places_iff (hnested : u.Nested)
    (hfirst : ∀ d, u.decls[0]? = some d → d.kind = .script) (hd : u.decls[i]? = some d) :
    (∃ q, (i, q) ∈ u.places) ↔ u.IsBindable i d := by
  have hid : d.id = ⟨u.id, i⟩ := h.numbered i d hd
  have hdecl : u.decl? d.id = some d := by rw [hid, decl?, if_pos rfl, hd]
  constructor
  · rintro ⟨q, hq⟩
    obtain ⟨e, he, hq⟩ := (mem_places_iff h.numbered).mp hq
    have hget := (decl?_eq_some he).2
    obtain ⟨scope, hscope⟩ := exists_scopeAt (List.ne_nil_of_mem hq)
    have hexposed := (exists_scopeAt_iff h hframes hget).mp ⟨scope, hscope⟩
    rw [outcomeAt_eq hscope] at hq
    rcases Decl.index_of_mem_outcome hq with ⟨hi, harg⟩ | ⟨arg, harg, hi⟩
    · rw [← hi] at hget hexposed
      obtain rfl := Option.some.inj (hd.symm.trans hget)
      refine ⟨fun hk => ?_, .inl hexposed⟩
      simp [Decl.outcome, hk] at hq
    · obtain ⟨hk, harg, hp⟩ := parent_of_mem_arguments h hnested hget harg
      rw [← hi] at harg hp
      obtain rfl := Option.some.inj (hd.symm.trans harg)
      exact (isBindable_iff_of_parent hk hp).mpr hexposed
  · intro hbindable
    by_cases hk : d.kind = .argument
    · have hi : i ≠ 0 := by
        rintro rfl
        exact hbindable.1 (hfirst d hd)
      obtain ⟨p, -, hparent⟩ := h.parent i d hd hi
      have hp : u.Parent p i := ⟨d, hd, hparent⟩
      exact exists_mem_places_argument h hframes hd hk hp
        ((isBindable_iff_of_parent hk hp).mp hbindable)
    · have hexposed := hbindable.2.resolve_right fun harg => hk harg.1
      obtain ⟨q, hq⟩ := (exists_scopeAt_iff h hframes hd).mpr hexposed
      obtain ⟨r, hr⟩ : ∃ r, (d.id.index, r) ∈ (d.outcome u.path q (u.arguments d)).1 :=
        Decl.exists_mem_outcome hbindable.1 hk
      rw [hid] at hr
      exact ⟨r, (mem_places_iff h.numbered).mpr ⟨d, hdecl, by rwa [outcomeAt_eq hq]⟩⟩

end Places

/-! ### Built trees -/

section Sealed

variable (h : u.Preordered) (hframes : u.Linked Entry.Frames) (hseals : u.Linked Entry.Seals)

include h hframes hseals

/-- By induction on the number, since only arguments stand in signatures, and have nothing inside. -/
theorem isExposed_of_kind_ne_argument (hd : u.decls[i]? = some d) (hk : d.kind ≠ .argument) :
    u.IsExposed i := by
  induction i using Nat.strongRecOn generalizing d with
  | ind i ih =>
      cases hparent : d.parent with
      | none => exact isExposed_of_parent_eq_none hd hparent
      | some x =>
          obtain ⟨p, hp⟩ := h.exists_parent_of_some hd hparent
          obtain ⟨e, he, -⟩ := h.exists_parent hp
          refine (isExposed_iff_of_parent hp).mpr
            ⟨ih p (h.parent_lt hp) he (opens_of_parent hframes hp he).kind_ne_argument, fun hs => ?_⟩
          obtain ⟨a, b, ha, hb, hseal⟩ := hseals p i hp
          rw [entryAt_eq he] at ha
          rw [entryAt_eq hd] at hb
          obtain rfl := Option.some.inj ha
          obtain rfl := Option.some.inj hb
          exact hk (hseal ((isSignature_iff he).mp hs))

/-- If signatures are sealed, every declaration but the script is bound. -/
theorem isBindable_of_kind_ne_script (hd : u.decls[i]? = some d) (hk : d.kind ≠ .script) :
    u.IsBindable i d := by
  refine ⟨hk, ?_⟩
  by_cases harg : d.kind = .argument
  · cases hparent : d.parent with
    | none => exact .inl (isExposed_of_parent_eq_none hd hparent)
    | some x =>
        obtain ⟨p, hp⟩ := h.exists_parent_of_some hd hparent
        obtain ⟨e, he, -⟩ := h.exists_parent hp
        have hexposed := isExposed_of_kind_ne_argument h hframes hseals he
          (opens_of_parent hframes hp he).kind_ne_argument
        exact ((isBindable_iff_of_parent harg hp).mpr hexposed).2
  · exact .inl (isExposed_of_kind_ne_argument h hframes hseals hd harg)

end Sealed

/-! ### Collected units -/

/-- The first declaration of a document is the script. -/
theorem kind_of_first_collect (id : UnitId) (path : String) (tree : DocTree) (root : NodeRef)
    (limit : Nat) (hd : ((ofTree id path tree root).collect limit).decls[0]? = some d) :
    d.kind = .script := by
  let v := (ofTree id path tree root).collect limit
  obtain ⟨hid, -⟩ := preordered_collect id path tree root limit
  by_cases hscript : v.HasScript
  · obtain ⟨d', hd', hk⟩ := hscript
    rw [rootDecl_collect] at hd'
    obtain rfl := Option.some.inj (hd.symm.trans (decl?_eq_some hd').2)
    exact hk
  · obtain ⟨rfl, hroot⟩ := not_not.mp (mt (hasScript_collect_iff limit id path tree root).mpr hscript)
    have hempty : ((ofTree id path tree root).collect 0).decls = #[] := by
      rw [collect_ofTree, DocTree.rootOutline, if_pos hroot]
      rfl
    rw [hempty] at hd
    simp at hd

end CompilationUnit

namespace Workspace

/-- The declaration has a symbol, which lists it. -/
def HasSymbol (w : Workspace) (d : DeclId) : Prop :=
  ∃ x, w.program.symbol? d = some x ∧ d ∈ w.graph.declarations x

variable {c : Chart} {w w' : Workspace} {id : UnitId} {path : String} {tree : DocTree}
  {root : NodeRef}

/-- What is listed anywhere has a symbol. -/
theorem Sound.hasSymbol_of_listed (h : w.Sound) (hc : Surveyed c w) {d : DeclId} {x : SymbolId}
    (hd : d ∈ w.graph.declarations x) : w.HasSymbol d := by
  obtain ⟨z, hz⟩ := Option.isSome_iff_exists.mp
    ((hc.answered.listed hd).resolve_left List.not_mem_nil)
  obtain ⟨e, he, hez⟩ := Option.bind_eq_some_iff.mp hz
  have hid : e.id = d := hc.charted.program.id_eq he
  exact ⟨z, hz, hid ▸ h.listed (hid.symm ▸ he) hez⟩

/-- A declaration of a unit is bound if it has a place. -/
theorem Surveyed.hasSymbol_iff (hc : Surveyed c w) (h : w.Sound) {u : CompilationUnit}
    (hu : u ∈ w.program.units) (i : Nat) :
    w.HasSymbol ⟨u.id, i⟩ ↔ ∃ q, (i, q) ∈ u.places := by
  constructor
  · rintro ⟨x, -, hx⟩
    obtain ⟨q, hq⟩ := hc.exists_place (List.ne_nil_of_mem hx)
    obtain ⟨v, hv, hid, hplace⟩ := hc.contributes.mp ((hc.charted.declarations hq _).mp hx)
    obtain rfl : v = u := hc.charted.program.eq_of_id hv hu hid
    exact ⟨q, hplace⟩
  · rintro ⟨q, hq⟩
    have hlisted : c.contributes ⟨u.id, i⟩ q := hc.contributes.mpr ⟨u, hu, rfl, hq⟩
    obtain ⟨y, hy⟩ := hc.charted.filled hlisted
    exact h.hasSymbol_of_listed hc ((hc.charted.declarations hy _).mpr hlisted)

/-- The unit of a document that was set. -/
theorem Reachable.exists_unit_of_run (h : w.Reachable)
    (hrun : (Request.setUnit path tree root).run w = .ok (.unit id) w') :
    ∃ u ∈ w'.program.units, u.id = id ∧
      u.text = ((CompilationUnit.ofTree id path tree root).collect w.options.maxCollectDepth).text := by
  obtain ⟨hs₀, hpath⟩ := h.sound.detachPath path
  obtain ⟨hdocuments, hoptions⟩ := documents_apply h (.setUnit path tree root)
  have hreach := h.apply (.setUnit path tree root)
  rw [Request.apply, hrun] at hdocuments hoptions hreach
  obtain ⟨c, hc⟩ := hreach.exists_surveyed
  -- The document is there, and the unit at its path has the number that the request answers with.
  obtain ⟨u, hu, heq⟩ := List.mem_map.mp (show (path, tree, root) ∈ w'.program.documents from
    hdocuments ▸ List.mem_append_right _ (List.mem_singleton_self _))
  obtain ⟨hupath, hutree, huroot⟩ : u.path = path ∧ u.tree = tree ∧ u.root = root := by
    simpa using heq
  have hid : u.id = id := by
    rw [run_setUnit] at hrun
    split at hrun
    · next b hb =>
      obtain ⟨hanswer, rfl⟩ := EStateM.Result.ok.inj hrun
      obtain ⟨v, hv, hvpath, hvid, -⟩ := hs₀.exists_unit_bound hpath hb
      obtain rfl : u = v := hc.charted.program.eq_of_path hu hv (hupath.trans hvpath.symm)
      exact hvid.trans (Request.Answer.unit.inj hanswer)
    · exact absurd hrun (by simp)
  have hcollected := hc.collected u hu
  rw [IsCollected, hoptions, hid, hupath, hutree, huroot] at hcollected
  exact ⟨u, hu, hid, hcollected⟩

/-- Binding loses no declaration. After a document is set, a declaration of it has a symbol that lists
it exactly if it is no script and has no signature around it, or is an argument of a signature that
has none around it. Nothing else is listed. In a tree that is built, every declaration but the script
has a symbol. -/
theorem Reachable.hasSymbol_iff_isBindable (h : w.Reachable)
    (hrun : (Request.setUnit path tree root).run w = .ok (.unit id) w') :
    let u := (CompilationUnit.ofTree id path tree root).collect w.options.maxCollectDepth
    (∃ v ∈ w'.program.units, v.id = id ∧ v.text = u.text) ∧
      (∀ (i : Nat) (d : Decl), u.decls[i]? = some d → (w'.HasSymbol d.id ↔ u.IsBindable i d)) ∧
      (∀ (d : DeclId) (x : SymbolId), d ∈ w'.graph.declarations x → w'.HasSymbol d) ∧
      ∀ file calls r, tree = (TreeBuilder.ofCalls file calls).finish r →
        ∀ (i : Nat) (d : Decl), u.decls[i]? = some d → d.kind ≠ .script → w'.HasSymbol d.id := by
  intro u
  obtain ⟨v, hv, hvid, htext⟩ := h.exists_unit_of_run hrun
  have hreach : w'.Reachable := by
    have happly := h.apply (.setUnit path tree root)
    rwa [Request.apply, hrun] at happly
  obtain ⟨c, hc⟩ := hreach.exists_surveyed
  let limit := w.options.maxCollectDepth
  obtain ⟨hid, hpre⟩ := CompilationUnit.preordered_collect id path tree root limit
  have hframes := CompilationUnit.frames_collect id path tree root limit
  have hnested := (CompilationUnit.sound_collect limit id path tree root).nested
  have hplaces : v.places = u.places := by
    rw [v.alike_text.places_eq, htext, ← u.alike_text.places_eq]
  have hiff : ∀ (i : Nat) (d : Decl), u.decls[i]? = some d →
      (w'.HasSymbol d.id ↔ u.IsBindable i d) := by
    intro i d hd
    rw [hpre.numbered i d hd, hid, ← hvid, hc.hasSymbol_iff hreach.sound hv, hplaces]
    exact CompilationUnit.exists_mem_places_iff hpre hframes hnested
      (fun _ => CompilationUnit.kind_of_first_collect id path tree root limit) hd
  refine ⟨⟨v, hv, hvid, htext⟩, hiff, fun d x hx => hreach.sound.hasSymbol_of_listed hc hx, ?_⟩
  rintro file calls r rfl i d hd hk
  have hseals := CompilationUnit.seals_collect (TreeBuilder.plain_ofCalls file calls r) id path root
    limit
  exact (hiff i d hd).mpr (CompilationUnit.isBindable_of_kind_ne_script hpre hframes hseals hd hk)

/-- The declaration of a callable interface, from the inside out. -/
def callableCalls : List Call :=
  [.parameter "key" ∅ none, .callSignature [some 1] none, .interfaceDecl "Callable" ∅ [] [some 2],
    .sourceFile [some 4]]

def callable : DocTree := (TreeBuilder.ofCalls "a.ts" callableCalls).finish (some 5)

/-- The interface has a signature, and the signature has an argument. -/
theorem hasSymbol_callable : (ofOptions {}).Reachable ∧
    ∃ w', (Request.setUnit "a.ts" callable (some 5)).run (ofOptions {}) = .ok (.unit 0) w' ∧
      ∀ (i : Nat) (d : Decl), ((CompilationUnit.ofTree 0 "a.ts" callable (some 5)).collect
          (ofOptions {}).options.maxCollectDepth).decls[i]? = some d →
        d.kind ≠ .script → w'.HasSymbol d.id := by
  have hreach := reachable_ofOptions {}
  have hsucceeds : (Request.setUnit "a.ts" callable (some 5)).succeeds (ofOptions {}) := by
    decide +kernel
  obtain ⟨w', hrun⟩ := exists_run_setUnit_of_succeeds hsucceeds
  obtain ⟨-, -, -, hbuilt⟩ := hreach.hasSymbol_iff_isBindable hrun
  exact ⟨hreach, w', hrun, hbuilt "a.ts" callableCalls (some 5) rfl⟩

example : ((CompilationUnit.ofTree 0 "a.ts" callable (some 5)).collect 8).decls.map (·.kind) =
    #[.script, .interface, .callSignature, .argument] := by
  decide +kernel

end Workspace

end NameBinding
