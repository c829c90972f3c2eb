import NameBinding.Proofs.Place.Unit

/-! # Each contribution has its declaration

The places of a unit are those of its declarations, each bound in what the declarations before it
have inside. A declaration is bound to the symbol at one of its places, which its kind tells. -/

namespace NameBinding

namespace CompilationUnit

variable {u : CompilationUnit} {i n m : Nat} {q : Place} {d : Decl}

/-! ### What is inside the declarations before one -/

/-- What is inside the declarations after some more of them. -/
def openedAfter (u : CompilationUnit) : List Opened → List Decl → List Opened
  | opened, [] => opened
  | opened, d :: ds => u.openedAfter (opened ++ [(u.outcomeOf opened d).2]) ds

/-- What is inside the first declarations of the unit. -/
def openedBefore (u : CompilationUnit) (n : Nat) : List Opened :=
  u.openedAfter [] (u.decls.toList.take n)

theorem openedAfter_append (u : CompilationUnit) (opened : List Opened) (ds ds' : List Decl) :
    u.openedAfter opened (ds ++ ds') = u.openedAfter (u.openedAfter opened ds) ds' := by
  induction ds generalizing opened with
  | nil => rfl
  | cons d ds ih => exact ih _

theorem length_openedAfter (u : CompilationUnit) (opened : List Opened) (ds : List Decl) :
    (u.openedAfter opened ds).length = opened.length + ds.length := by
  induction ds generalizing opened with
  | nil => rfl
  | cons d ds ih =>
      rw [openedAfter, ih, List.length_append, List.length_cons, List.length_cons, List.length_nil]
      omega

/-- What is inside a declaration stays. -/
theorem getElem?_openedAfter {opened : List Opened} (h : i < opened.length) (ds : List Decl) :
    (u.openedAfter opened ds)[i]? = opened[i]? := by
  induction ds generalizing opened with
  | nil => rfl
  | cons d ds ih =>
      rw [openedAfter, ih (by rw [List.length_append]; omega), List.getElem?_append_left h]

theorem length_openedBefore (h : n ≤ u.decls.size) : (u.openedBefore n).length = n := by
  have hlength : (u.decls.toList.take n).length = n :=
    List.length_take.trans (Nat.min_eq_left (by simpa using h))
  rw [openedBefore, length_openedAfter, hlength, List.length_nil, Nat.zero_add]

theorem openedBefore_succ (hd : u.decls[n]? = some d) :
    u.openedBefore (n + 1) = u.openedBefore n ++ [(u.outcomeOf (u.openedBefore n) d).2] := by
  rw [openedBefore, List.take_add_one, openedAfter_append, Array.getElem?_toList, hd]
  rfl

/-- What a declaration has inside, seen from a later one. -/
theorem getElem?_openedBefore (hd : u.decls[n]? = some d) (hlt : n < m) :
    (u.openedBefore m)[n]? = some (u.outcomeOf (u.openedBefore n) d).2 := by
  have hn : n < u.decls.size := by
    by_contra hge
    simp [Array.getElem?_eq_none (Nat.not_lt.mp hge)] at hd
  have hsplit : u.decls.toList.take m =
      u.decls.toList.take (n + 1) ++ (u.decls.toList.take m).drop (n + 1) := by
    have htake := List.take_append_drop (n + 1) (u.decls.toList.take m)
    rwa [List.take_take, Nat.min_eq_left hlt, eq_comm] at htake
  have hlength : n < (u.openedBefore (n + 1)).length := by
    rw [length_openedBefore hn]
    exact Nat.lt_succ_self n
  rw [openedBefore, hsplit, openedAfter_append, ← openedBefore, getElem?_openedAfter hlength,
    openedBefore_succ hd, List.getElem?_append_right (Nat.le_of_eq (length_openedBefore (Nat.le_of_lt hn))),
    length_openedBefore (Nat.le_of_lt hn), Nat.sub_self]
  rfl

/-- What a declaration is put in. -/
def scopeAt (u : CompilationUnit) (d : Decl) : Opened := openedAround (u.openedBefore d.id.index) d

/-- What a declaration contributes, and what is inside it. -/
def outcomeAt (u : CompilationUnit) (d : Decl) : Decl.Outcome :=
  u.outcomeOf (u.openedBefore d.id.index) d

theorem outcomeAt_eq {scope : Place} (h : u.scopeAt d = .scope scope) :
    u.outcomeAt d = d.outcome u.path scope (u.arguments d) := by
  rw [outcomeAt, outcomeOf, ← scopeAt, h]

theorem exists_scopeAt (h : (u.outcomeAt d).1 ≠ []) : ∃ scope, u.scopeAt d = .scope scope := by
  rw [outcomeAt, outcomeOf, ← scopeAt] at h
  split at h
  · exact absurd rfl h
  · next scope hscope => exact ⟨scope, hscope⟩

theorem mem_placesAfter_iff {opened : List Opened} {ds : List Decl} :
    (i, q) ∈ u.placesAfter opened ds ↔ ∃ n d, ds[n]? = some d ∧
      (i, q) ∈ (u.outcomeOf (u.openedAfter opened (ds.take n)) d).1 := by
  induction ds generalizing opened with
  | nil => simp [placesAfter]
  | cons d ds ih =>
      rw [placesAfter, List.mem_append, ih]
      constructor
      · rintro (h | ⟨n, d', hd', h⟩)
        · exact ⟨0, d, rfl, h⟩
        · exact ⟨n + 1, d', hd', h⟩
      · rintro ⟨n, d', hd', h⟩
        cases n with
        | zero =>
            obtain rfl := Option.some.inj hd'
            exact .inl h
        | succ n => exact .inr ⟨n, d', hd', h⟩

/-- The places are those of the declarations. -/
theorem mem_places_iff (hn : u.Numbered) : (i, q) ∈ u.places ↔
    ∃ d, u.decl? d.id = some d ∧ (i, q) ∈ (u.outcomeAt d).1 := by
  rw [places, mem_placesAfter_iff]
  constructor
  · rintro ⟨n, d, hd, h⟩
    rw [Array.getElem?_toList] at hd
    have hid := hn n d hd
    refine ⟨d, by rw [hid, decl?, if_pos rfl, hd], ?_⟩
    rw [outcomeAt, hid]
    exact h
  · rintro ⟨d, hd, h⟩
    refine ⟨d.id.index, d, ?_, h⟩
    rw [Array.getElem?_toList]
    exact (decl?_eq_some hd).2

/-- A declaration stands at the top or in what is inside the declaration around it, which comes
before it. -/
theorem scopeAt_cases {scope : Place} (hn : u.Numbered) (hnested : u.Nested)
    (hd : u.decl? d.id = some d) (h : u.scopeAt d = .scope scope) :
    (d.parent = none ∧ scope = .top) ∨ ∃ e, d.parent = some e.id ∧ u.decl? e.id = some e ∧
      e.id.index < d.id.index ∧ (u.outcomeAt e).2 = .scope scope := by
  obtain ⟨-, hget⟩ := decl?_eq_some hd
  have hle : d.id.index ≤ u.decls.size := by
    by_contra hge
    simp [Array.getElem?_eq_none (Nat.le_of_lt (Nat.not_le.mp hge))] at hget
  unfold scopeAt openedAround at h
  cases hparent : d.parent with
  | none =>
      rw [hparent] at h
      exact .inl ⟨rfl, (Opened.scope.inj h).symm⟩
  | some parent =>
      rw [hparent] at h
      dsimp only at h
      cases hopened : (u.openedBefore d.id.index)[parent.index]? with
      | none => simp [hopened] at h
      | some opened =>
          have hlt : parent.index < d.id.index := by
            have hlt := (List.getElem?_eq_some_iff.mp hopened).1
            rwa [length_openedBefore hle] at hlt
          obtain ⟨e, he⟩ : ∃ e, u.decls[parent.index]? = some e :=
            ⟨_, Array.getElem?_eq_getElem (Nat.lt_of_lt_of_le hlt hle)⟩
          have hid : e.id = parent := by
            rw [hn _ e he]
            have hunit := hnested.parent hget hparent
            cases parent
            simp_all
          rw [getElem?_openedBefore he hlt] at hopened h
          refine .inr ⟨e, congrArg some hid.symm, ?_, hid ▸ hlt, ?_⟩
          · rw [hid, decl?, if_pos (hnested.parent hget hparent), he]
          · rw [outcomeAt, hid]
            exact h

end CompilationUnit

/-! ### The place of the symbol of a declaration -/

namespace Decl

variable {d : Decl} {file : String} {scope r : Place} {args : List Decl} {i : Nat}

/-- The kind of the other symbol that lists a declaration: the instance side of a class, or the
signature of a function. -/
def secondKind? (d : Decl) : Option SymbolKind :=
  match d.kind with
  | .classDecl => some .instanceType
  | .function | .method | .staticMethod => if d.has .constructor then none else some .signature
  | _ => none

theorem kind_of_symbolKind?_alias (h : d.symbolKind? = some .alias) : d.kind = .import := by
  have hfunction : ¬(if d.has .constructor then SymbolKind.signature else d.functionKind) =
      .alias := by
    split
    · simp
    · intro hk
      have hmerged := Binding.isMerged_functionKind d
      rw [hk] at hmerged
      simp [SymbolKind.isMerged] at hmerged
  unfold symbolKind? at h
  cases hd : d.kind <;> simp only [hd, hfunction, reduceCtorEq, Option.some.injEq] at h ⊢

theorem secondKind?_ne_alias (d : Decl) : d.secondKind? ≠ some .alias := by
  unfold secondKind?
  cases d.kind <;> simp

theorem symbolKind?_ne_of_secondKind? {kind : SymbolKind} (h : d.secondKind? = some kind) :
    d.symbolKind? ≠ some kind := by
  intro hk
  unfold secondKind? at h
  unfold symbolKind? at hk
  cases hd : d.kind <;> simp only [hd, reduceCtorEq, Option.some.injEq] at h hk
  case classDecl => exact absurd (h.trans hk.symm) (by simp)
  case function | method | staticMethod =>
    split at h
    · exact absurd h (by simp)
    · next hcon =>
      rw [if_neg hcon] at hk
      have hmerged := Binding.isMerged_functionKind d
      rw [hk, ← Option.some.inj h] at hmerged
      exact absurd hmerged (by simp [SymbolKind.isMerged])

/-- The place of the symbol that a declaration in a scope is bound to. Parameters are bound with
their signature. -/
def symbolAt? (d : Decl) (file : String) (scope : Place) : Option Place :=
  match d.kind with
  | .script | .argument => none
  | .module => some (d.mergedAt file (d.ownerAt scope) .module)
  | .dynamicModule => some (d.mergedAt file (d.ownerAt scope) .dynamicModule)
  | .interface => some (d.mergedAt file (d.ownerAt scope) .interface)
  | .classDecl => some (d.singleAt file (d.ownerAt scope) .classType)
  | .function | .method | .staticMethod =>
    some <| if d.has .constructor then
        d.signatureAt file scope .constructSignature (some d.constructorFlags)
      else d.mergedAt file (d.ownerAt scope) d.functionKind
  | .field | .staticField =>
    some <| if d.has .accessor then d.mergedAt file (d.ownerAt scope) .field
      else d.singleAt file (d.ownerAt scope) .field
  | .variable => some (d.singleAt file (d.ownerAt scope) .variable)
  | .import => some (d.singleAt file (d.ownerAt scope) .alias)
  | .callSignature | .constructSignature | .indexSignature =>
    some <| d.signatureAt file (if d.kind = .constructSignature then scope else d.ownerAt scope)
      d.signatureEdge
      (some (if d.kind = .constructSignature then Flags.single .constructor else ∅))

theorem kind?_symbolAt (h : d.symbolAt? file scope = some r) : r.kind? = d.symbolKind? := by
  have hmerged : ∀ {o kind}, (d.mergedAt file o kind).kind? = some kind := by
    intro o kind
    unfold mergedAt
    split <;> rfl
  unfold symbolAt? at h
  unfold symbolKind?
  cases hk : d.kind <;> simp only [hk, Option.some.injEq, reduceCtorEq] at h ⊢
  case function | method | staticMethod =>
    subst h
    split
    · rfl
    · exact hmerged
  case field | staticField =>
    subst h
    split
    · exact hmerged
    · rfl
  all_goals
    subst h
    first | exact hmerged | rfl

/-- What a declaration contributes itself are the places of its symbol and of the other one. All else
comes from its parameters. -/
theorem symbolAt_of_mem_outcome (h : (i, r) ∈ (d.outcome file scope args).1) :
    (i = d.id.index ∧ (d.symbolAt? file scope = some r ∨
      ∃ kind, d.secondKind? = some kind ∧ r.kind? = some kind)) ∨
      ∃ arg ∈ args, i = arg.id.index ∧ (r.kind? = some .parameter ∨ r.kind? = some .field) := by
  have hmerged : ∀ {kind}, (i, r) ∈ (d.mergedOutcome file scope kind).1 →
      i = d.id.index ∧ d.mergedAt file (d.ownerAt scope) kind = r := fun h =>
    ⟨congrArg Prod.fst (List.mem_singleton.mp h), (congrArg Prod.snd (List.mem_singleton.mp h)).symm⟩
  have hsignature : ∀ {fieldsOf s}, (i, r) ∈ d.signaturePlaces file args fieldsOf s →
      (i = d.id.index ∧ s = r) ∨
        ∃ arg ∈ args, i = arg.id.index ∧ (r.kind? = some .parameter ∨ r.kind? = some .field) := by
    intro fieldsOf s h
    rcases List.mem_cons.mp h with h | h
    · exact .inl ⟨congrArg Prod.fst h, (congrArg Prod.snd h).symm⟩
    · obtain ⟨arg, harg, hr⟩ := List.mem_flatMap.mp h
      exact .inr ⟨arg, harg, Binding.index_of_mem_argumentPlaces hr,
        Binding.kind?_of_mem_argumentPlaces hr⟩
  unfold outcome at h
  unfold symbolAt? secondKind?
  cases hk : d.kind <;> simp only [hk, reduceCtorEq, if_false, if_true] at h ⊢
  case script | argument => exact absurd h List.not_mem_nil
  case module | dynamicModule | interface =>
    exact .inl ⟨(hmerged h).1, .inl (congrArg some (hmerged h).2)⟩
  case classDecl =>
    simp only [classOutcome, List.mem_cons, List.not_mem_nil, or_false, Prod.mk.injEq] at h
    rcases h with ⟨hi, rfl⟩ | ⟨hi, rfl⟩
    · exact .inl ⟨hi, .inr ⟨.instanceType, rfl, rfl⟩⟩
    · exact .inl ⟨hi, .inl rfl⟩
  case function | method | staticMethod =>
    split at h
    · next hcon =>
      rw [if_pos hcon]
      exact (hsignature h).imp_left fun h => ⟨h.1, .inl (congrArg some h.2)⟩
    · next hcon =>
      rw [if_neg hcon, if_neg hcon]
      rcases List.mem_cons.mp h with h | h
      · exact .inl ⟨congrArg Prod.fst h, .inl (congrArg some (congrArg Prod.snd h).symm)⟩
      · rcases hsignature h with ⟨hi, rfl⟩ | harg
        · exact .inl ⟨hi, .inr ⟨.signature, rfl, rfl⟩⟩
        · exact .inr harg
  case field | staticField =>
    split at h
    · next hacc =>
      rw [if_pos hacc]
      exact .inl ⟨(hmerged h).1, .inl (congrArg some (hmerged h).2)⟩
    · next hacc =>
      rw [if_neg hacc]
      have h := List.mem_singleton.mp h
      exact .inl ⟨congrArg Prod.fst h, .inl (congrArg some (congrArg Prod.snd h).symm)⟩
  case «variable» | «import» =>
    have h := List.mem_singleton.mp h
    exact .inl ⟨congrArg Prod.fst h, .inl (congrArg some (congrArg Prod.snd h).symm)⟩
  case callSignature | constructSignature | indexSignature =>
    simp only [memberSignatureOutcome, hk, reduceCtorEq, if_false, if_true] at h
    exact (hsignature h).imp_left fun h => ⟨h.1, .inl (congrArg some h.2)⟩

/-- What is inside a declaration is its symbol. A script has none, and what is around it. -/
theorem symbolAt_of_inside (h : (d.outcome file scope args).2 = .scope r) :
    (d.kind = .script ∧ r = scope) ∨
      (d.symbolAt? file scope = some r ∧ (d.id.index, r) ∈ (d.outcome file scope args).1) := by
  unfold outcome at h ⊢
  unfold symbolAt?
  cases hk : d.kind <;> simp only [hk, reduceCtorEq] at h ⊢
  case script => exact .inl ⟨True.intro, (Opened.scope.inj h).symm⟩
  case module | dynamicModule | interface =>
    obtain rfl := Opened.scope.inj h
    exact .inr ⟨rfl, List.mem_singleton_self _⟩
  case classDecl =>
    obtain rfl := Opened.scope.inj h
    exact .inr ⟨rfl, List.mem_cons_of_mem _ (List.mem_singleton_self _)⟩
  case function | method | staticMethod =>
    split at h
    · next hcon =>
      obtain rfl := Opened.scope.inj h
      rw [if_pos hcon, if_pos hcon]
      exact .inr ⟨rfl, List.mem_cons_self⟩
    · next hcon =>
      obtain rfl := Opened.scope.inj h
      rw [if_neg hcon, if_neg hcon]
      exact .inr ⟨rfl, List.mem_cons_self⟩
  case field | staticField =>
    split at h
    · next hacc =>
      obtain rfl := Opened.scope.inj h
      rw [if_pos hacc, if_pos hacc]
      exact .inr ⟨rfl, List.mem_singleton_self _⟩
    · exact absurd h (by simp [valueOutcome])
  all_goals exact absurd h (by simp [valueOutcome, memberSignatureOutcome])

end Decl

namespace CompilationUnit

variable {u : CompilationUnit} {q : Place} {d e : Decl}

/-- A declaration is known by its place in the unit. -/
theorem decl_eq_of_index (hd : u.decl? d.id = some d)
    (he : u.decl? e.id = some e) (hi : d.id.index = e.id.index) : d = e := by
  obtain ⟨-, hd⟩ := decl?_eq_some hd
  rw [hi, (decl?_eq_some he).2] at hd
  exact (Option.some.inj hd).symm

theorem decl?_of_mem_arguments (h : u.Numbered) {arg : Decl} (harg : arg ∈ u.arguments d) :
    u.decl? arg.id = some arg ∧ arg.kind = .argument := by
  obtain ⟨hmem, hk⟩ := List.mem_filter.mp harg
  obtain ⟨x, -, hx⟩ := List.mem_filterMap.mp hmem
  rw [h.id_eq hx]
  exact ⟨hx, by simpa using hk⟩

/-- A declaration that is no parameter contributes to the places of its symbol and of the other
one. -/
theorem symbolAt_of_mem_places (h : u.Numbered) (hd : u.decl? d.id = some d)
    (hk : d.kind ≠ .argument) (hq : (d.id.index, q) ∈ u.places) :
    ∃ scope, u.scopeAt d = .scope scope ∧ (d.symbolAt? u.path scope = some q ∨
      ∃ kind, d.secondKind? = some kind ∧ q.kind? = some kind) := by
  obtain ⟨e, he, hmem⟩ := (mem_places_iff h).mp hq
  obtain ⟨scope, hscope⟩ := exists_scopeAt (List.ne_nil_of_mem hmem)
  rw [outcomeAt_eq hscope] at hmem
  rcases Decl.symbolAt_of_mem_outcome hmem with ⟨hi, hplace⟩ | ⟨arg, harg, hi, -⟩
  · obtain rfl := decl_eq_of_index hd he hi
    exact ⟨scope, hscope, hplace⟩
  · obtain ⟨harg, hkind⟩ := decl?_of_mem_arguments h harg
    obtain rfl := decl_eq_of_index hd harg hi
    exact absurd hkind hk

/-- Only imports contribute to aliases. -/
theorem kind_of_alias (h : u.Numbered) (hd : u.decl? d.id = some d)
    (hq : (d.id.index, q) ∈ u.places) (ha : q.kind? = some .alias) : d.kind = .import := by
  obtain ⟨e, he, hmem⟩ := (mem_places_iff h).mp hq
  obtain ⟨scope, hscope⟩ := exists_scopeAt (List.ne_nil_of_mem hmem)
  rw [outcomeAt_eq hscope] at hmem
  rcases Decl.symbolAt_of_mem_outcome hmem with ⟨hi, hat | ⟨kind, hsecond, hkind⟩⟩ | ⟨_, _, _, hkind⟩
  · obtain rfl := decl_eq_of_index hd he hi
    exact Decl.kind_of_symbolKind?_alias ((Decl.kind?_symbolAt hat).symm.trans ha)
  · exact absurd (hsecond.trans (hkind.symm.trans ha)) (Decl.secondKind?_ne_alias e)
  · rcases hkind with hkind | hkind <;> simp [ha] at hkind

end CompilationUnit

end NameBinding
