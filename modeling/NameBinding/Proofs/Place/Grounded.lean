import NameBinding.Proofs.Place.Basic

/-! # Places stand on places

The owner of a place that a document contributes to is one as well, or it is the top, and a class has
its instance side in the same document. So what a document contributes to stands without the other
documents. -/

namespace NameBinding

/-- Contributions that leave no place without its owner, and no class without its instance side. -/
structure Grounded (known : List (Nat × Place)) : Prop where
  owner : ∀ {i q}, (i, q) ∈ known → q.owner = .top ∨ ∃ j, (j, q.owner) ∈ known
  side : ∀ {i q}, (i, q) ∈ known → q.kind? = some .classType → ∃ j, (j, q.instanceSide) ∈ known

/-- The top, or a place with contributions. -/
def Stands (known : List (Nat × Place)) (q : Place) : Prop := q = .top ∨ ∃ i, (i, q) ∈ known

variable {known new : List (Nat × Place)} {q r : Place} {d : Decl} {file : String} {args : List Decl}

theorem Stands.append (h : Stands known q) (new : List (Nat × Place)) : Stands (known ++ new) q :=
  h.imp_right fun ⟨i, hi⟩ => ⟨i, List.mem_append_left new hi⟩

theorem stands_of_mem {i : Nat} (h : (i, q) ∈ new) : Stands (known ++ new) q :=
  .inr ⟨i, List.mem_append_right known h⟩

theorem Grounded.nil : Grounded [] :=
  ⟨fun h => absurd h List.not_mem_nil, fun h => absurd h List.not_mem_nil⟩

theorem Grounded.append (h : Grounded known)
    (howner : ∀ i q, (i, q) ∈ new → Stands (known ++ new) q.owner)
    (hside : ∀ i q, (i, q) ∈ new → q.kind? = some .classType → ∃ j, (j, q.instanceSide) ∈ new) :
    Grounded (known ++ new) where
  owner {i q} hq := by
    rcases List.mem_append.mp hq with hq | hq
    · exact Stands.append (h.owner hq) new
    · exact howner i q hq
  side {i q} hq hk := by
    rcases List.mem_append.mp hq with hq | hq
    · obtain ⟨j, hj⟩ := h.side hq hk
      exact ⟨j, List.mem_append_left new hj⟩
    · obtain ⟨j, hj⟩ := hside i q hq hk
      exact ⟨j, List.mem_append_right known hj⟩

namespace Decl

/-- The instance side of a class stands where the class does. -/
theorem stands_instances (h : Grounded known) (hq : Stands known q) (hr : q.instances? = some r) :
    Stands known r := by
  unfold Place.instances? at hr
  split at hr
  · next hk =>
    obtain rfl := Option.some.inj hr
    have hk : q.kind? = some .classType := by simpa using hk
    rcases hq with rfl | ⟨i, hi⟩
    · simp [Place.kind?] at hk
    · exact .inr (h.side hi hk)
  · exact absurd hr (by simp)

theorem stands_ownerAt (h : Grounded known) (hq : Stands known q) (d : Decl) :
    Stands known (d.ownerAt q) := by
  unfold ownerAt
  split
  · cases hr : q.instances? with
    | none => exact hq
    | some r => exact stands_instances h hq hr
  · exact hq

theorem owner_of_mem_argumentPlaces {fieldsOf : Option Place} {arg : Decl} {i : Nat}
    (h : (i, r) ∈ argumentPlaces file q fieldsOf arg) :
    (r.owner = q ∨ some r.owner = fieldsOf) ∧ r.kind? ≠ some .classType := by
  unfold argumentPlaces at h
  rcases List.mem_cons.mp h with heq | h
  · obtain ⟨-, rfl⟩ := Prod.mk.inj heq
    exact ⟨.inl rfl, by simp [Place.kind?, parameterAt]⟩
  · split at h
    · split at h
      · obtain ⟨-, rfl⟩ := Prod.mk.inj (List.mem_singleton.mp h)
        exact ⟨.inr rfl, by simp [Place.kind?, parameterFieldAt]⟩
      · exact absurd h List.not_mem_nil
    · exact absurd h List.not_mem_nil

/-- The places of a signature hang on it, on its owner and on the instances of a class. -/
theorem grounded_signaturePlaces (h : Grounded known) {fieldsOf : Option Place}
    (hkind : q.kind? = some .signature) (hq : Stands known q.owner)
    (hfields : ∀ r, fieldsOf = some r → Stands known r) :
    Grounded (known ++ d.signaturePlaces file args fieldsOf q) := by
  have hmem : (d.id.index, q) ∈ d.signaturePlaces file args fieldsOf q := List.mem_cons_self
  refine h.append (fun i r hr => ?_) fun i r hr hk => ?_
  · rcases List.mem_cons.mp hr with heq | hr
    · obtain ⟨-, rfl⟩ := Prod.mk.inj heq
      exact hq.append _
    · obtain ⟨arg, -, hr⟩ := List.mem_flatMap.mp hr
      rcases (owner_of_mem_argumentPlaces hr).1 with ho | ho
      · rw [ho]
        exact stands_of_mem hmem
      · exact (hfields _ ho.symm).append _
  · rcases List.mem_cons.mp hr with heq | hr
    · obtain ⟨-, rfl⟩ := Prod.mk.inj heq
      exact absurd (hkind.symm.trans hk) (by simp)
    · obtain ⟨arg, -, hr⟩ := List.mem_flatMap.mp hr
      exact absurd hk (owner_of_mem_argumentPlaces hr).2

theorem grounded_singleton (h : Grounded known) (i : Nat) (hk : r.kind? ≠ some .classType)
    (hr : Stands known r.owner) : Grounded (known ++ [(i, r)]) := by
  refine h.append (fun j s hs => ?_) fun j s hs hk' => ?_
  · obtain ⟨-, rfl⟩ := Prod.mk.inj (List.mem_singleton.mp hs)
    exact hr.append _
  · obtain ⟨-, rfl⟩ := Prod.mk.inj (List.mem_singleton.mp hs)
    exact absurd hk' hk

theorem grounded_mergedOutcome (h : Grounded known) (hq : Stands known q) {kind : SymbolKind}
    (hk : kind ≠ .classType) : Grounded (known ++ (d.mergedOutcome file q kind).1) := by
  have hat : ∀ o, (d.mergedAt file o kind).owner = o ∧ (d.mergedAt file o kind).kind? = some kind := by
    intro o
    unfold mergedAt
    split <;> exact ⟨rfl, rfl⟩
  refine grounded_singleton h _ ?_ ?_
  · rw [(hat _).2]
    simpa using hk
  · rw [(hat _).1]
    exact stands_ownerAt h hq d

theorem grounded_classOutcome (h : Grounded known) (hq : Stands known q) :
    Grounded (known ++ (d.classOutcome file q).1) := by
  have hmem : ∀ {i r}, (i, r) ∈ (d.classOutcome file q).1 →
      r = (d.singleAt file (d.ownerAt q) .classType).instanceSide ∨
        r = d.singleAt file (d.ownerAt q) .classType := by
    intro i r hr
    simp only [classOutcome, List.mem_cons, List.not_mem_nil, or_false, Prod.mk.injEq] at hr
    exact hr.imp (·.2) (·.2)
  refine h.append (fun i r hr => ?_) fun i r hr hk => ?_
  · rcases hmem hr with rfl | rfl
    · exact stands_of_mem (List.mem_cons_of_mem _ (List.mem_singleton_self _))
    · exact (stands_ownerAt h hq d).append _
  · rcases hmem hr with rfl | rfl
    · simp [Place.kind?, Place.instanceSide, singleAt] at hk
    · exact ⟨_, List.mem_cons_self⟩

/-- What a declaration contributes stands on what there is. -/
theorem grounded_outcome (h : Grounded known) (hq : Stands known q) :
    Grounded (known ++ (d.outcome file q args).1) := by
  have hvalue : ∀ {kind}, kind ≠ .classType →
      Grounded (known ++ (d.valueOutcome file q kind).1) := fun hk =>
    grounded_singleton h _ (by simpa [Place.kind?, singleAt] using hk) (stands_ownerAt h hq d)
  have hmember : Grounded (known ++ (d.memberSignatureOutcome file q args).1) := by
    refine grounded_signaturePlaces h rfl ?_ (by simp)
    change Stands known (if d.kind = .constructSignature then q else d.ownerAt q)
    split
    · exact hq
    · exact stands_ownerAt h hq d
  have hconstructor : Grounded (known ++ (d.constructorOutcome file q args).1) :=
    grounded_signaturePlaces h rfl hq fun r hr => stands_instances h hq hr
  have hfunction : Grounded (known ++ (d.functionOutcome file q args).1) := by
    have hfirst : Grounded (known ++ (d.mergedOutcome file q d.functionKind).1) := by
      refine grounded_mergedOutcome h hq ?_
      unfold functionKind
      split <;> simp
    have hrest : Grounded ((known ++ (d.mergedOutcome file q d.functionKind).1) ++
        d.signaturePlaces file args none (d.signatureAt file
          (d.mergedAt file (d.ownerAt q) d.functionKind) .callSignature none)) :=
      grounded_signaturePlaces hfirst rfl (stands_of_mem List.mem_cons_self) (by simp)
    rwa [List.append_assoc] at hrest
  unfold outcome
  split
  · simpa using h
  iterate 3 exact grounded_mergedOutcome h hq (by simp)
  · exact grounded_classOutcome h hq
  iterate 3
    split
    · exact hconstructor
    · exact hfunction
  iterate 2
    split
    · exact grounded_mergedOutcome h hq (by simp)
    · exact hvalue (by simp)
  iterate 2 exact hvalue (by simp)
  iterate 3 exact hmember
  · simpa using h

/-- What is inside a declaration is put at a place that stands. -/
theorem stands_outcome (hq : Stands known q) (hr : (d.outcome file q args).2 = .scope r) :
    Stands (known ++ (d.outcome file q args).1) r := by
  have hmerged : ∀ {kind}, (d.mergedOutcome file q kind).2 = .scope r →
      Stands (known ++ (d.mergedOutcome file q kind).1) r := by
    intro kind hr
    obtain rfl := Opened.scope.inj hr
    exact stands_of_mem List.mem_cons_self
  have hclosed : ∀ {P : Prop}, Opened.closed = .scope r → P := fun h => absurd h (by simp)
  unfold outcome at hr ⊢
  cases hk : d.kind <;> simp only [hk] at hr ⊢
  case script =>
    obtain rfl := Opened.scope.inj hr
    exact hq.append _
  case module | dynamicModule | interface => exact hmerged hr
  case classDecl =>
    obtain rfl := Opened.scope.inj hr
    exact stands_of_mem (List.mem_cons_of_mem _ (List.mem_singleton_self _))
  case function | method | staticMethod =>
    split at hr
    · next hcon =>
      rw [if_pos hcon]
      obtain rfl := Opened.scope.inj hr
      exact stands_of_mem List.mem_cons_self
    · next hcon =>
      rw [if_neg hcon]
      obtain rfl := Opened.scope.inj hr
      exact stands_of_mem List.mem_cons_self
  case field | staticField =>
    split at hr
    · next hacc =>
      rw [if_pos hacc]
      exact hmerged hr
    · exact hclosed hr
  all_goals exact hclosed hr

end Decl

namespace CompilationUnit

/-- By induction on the declarations that are left. -/
theorem grounded_placesAfter (u : CompilationUnit) {opened : List Opened} (ds : List Decl)
    (h : Grounded known) (hopened : ∀ q, Opened.scope q ∈ opened → Stands known q) :
    Grounded (known ++ u.placesAfter opened ds) := by
  induction ds generalizing known opened with
  | nil => simpa [placesAfter] using h
  | cons d ds ih =>
      have haround : ∀ q, openedAround opened d = .scope q → Stands known q := by
        intro q hq
        unfold openedAround at hq
        split at hq
        · next parent _ =>
          cases hget : opened[parent.index]? with
          | none => simp [hget] at hq
          | some o =>
              rw [hget] at hq
              obtain rfl : o = .scope q := hq
              exact hopened q (List.mem_of_getElem? hget)
        · obtain rfl := Opened.scope.inj hq
          exact .inl rfl
      have hstep : Grounded (known ++ (u.outcomeOf opened d).1) ∧
          ∀ q, (u.outcomeOf opened d).2 = .scope q →
            Stands (known ++ (u.outcomeOf opened d).1) q := by
        unfold outcomeOf
        split
        · exact ⟨by simpa using h, fun q hq => absurd hq (by simp)⟩
        · next scope hscope =>
          exact ⟨Decl.grounded_outcome h (haround scope hscope),
            fun q hq => Decl.stands_outcome (haround scope hscope) hq⟩
      rw [placesAfter, ← List.append_assoc]
      refine ih hstep.1 fun q hq => ?_
      rcases List.mem_append.mp hq with hq | hq
      · exact (hopened q hq).append _
      · exact hstep.2 q (List.mem_singleton.mp hq).symm

theorem grounded_places (u : CompilationUnit) : Grounded u.places := by
  have h := u.grounded_placesAfter u.decls.toList .nil
    fun q hq => absurd hq List.not_mem_nil
  rwa [List.nil_append] at h

end CompilationUnit

end NameBinding
