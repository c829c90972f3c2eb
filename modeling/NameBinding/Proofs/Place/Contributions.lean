import NameBinding.Proofs.Place.Alike
import NameBinding.Proofs.Place.Grounded

/-! # What a program contributes

The contributions of a program are those of its units, each unit by itself. -/

namespace NameBinding

/-! ### Places of declarations -/

namespace Place

/-- The signature of a function. Its flags depend on the signatures before it. -/
def IsOverload : Place → Prop
  | single owner spot => spot.attachment = .signature .callSignature ∧
      ∃ kind : SymbolKind, owner.kind? = some kind ∧ kind.isFunctionLike
  | _ => False

/-- The place of a single declaration says the flags, apart from the signatures of functions. -/
def Marked (q : Place) : Prop :=
  ∀ owner spot, q = single owner spot → spot.flags = none → q.IsOverload

theorem Marked.of_flags {owner : Place} {spot : Spot} {flags : Flags SymbolFlag}
    (h : spot.flags = some flags) : (single owner spot).Marked := by
  intro owner' spot' heq hnone
  obtain ⟨-, rfl⟩ := single.inj heq
  exact absurd (h.symm.trans hnone) (by simp)

/-- A symbol that hangs as a signature or as a parameter is one, and signatures hang as such. -/
def Kinded (q : Place) : Prop :=
  ∀ owner spot, q = single owner spot →
    (∀ edge, spot.attachment = .signature edge → spot.kind = .signature) ∧
      (spot.attachment = .parameter → spot.kind = .parameter) ∧
      (spot.kind = .signature → ∃ edge, spot.attachment = .signature edge)

/-- The property holds at all places that declarations contribute to. -/
structure IsUniversal (P : Place → Prop) : Prop where
  shared : ∀ owner name kind, P (shared owner name kind)
  single : ∀ (d : Decl) file owner (kind : SymbolKind), kind ≠ .signature →
    P (d.singleAt file owner kind)
  side : ∀ (d : Decl) file owner, P (d.singleAt file owner .classType).instanceSide
  signature : ∀ (d : Decl) file owner edge flags, P (d.signatureAt file owner edge (some flags))
  overload : ∀ (d : Decl) file owner (kind : SymbolKind), owner.kind? = some kind →
    kind.isFunctionLike → P (d.signatureAt file owner .callSignature none)
  parameter : ∀ (d : Decl) file signature, P (d.parameterAt file signature)
  parameterField : ∀ (d : Decl) file inst, P (d.parameterFieldAt file inst)

theorem isUniversal_marked : IsUniversal Marked where
  shared _ _ _ _ _ h := absurd h (by simp)
  single _ _ _ _ _ := .of_flags rfl
  side _ _ _ := .of_flags rfl
  signature _ _ _ _ _ := .of_flags rfl
  overload d file owner kind hk hf := by
    intro owner' spot heq _
    obtain ⟨rfl, rfl⟩ := single.inj heq
    exact ⟨rfl, kind, hk, hf⟩
  parameter _ _ _ := .of_flags rfl
  parameterField _ _ _ := .of_flags rfl

theorem isUniversal_kinded : IsUniversal Kinded where
  shared _ _ _ _ _ h := absurd h (by simp)
  single d file owner kind hk := by
    rintro _ _ ⟨⟩
    exact ⟨fun _ h => absurd h (by simp [Decl.attachmentAt]),
      fun h => absurd h (by simp [Decl.attachmentAt]), fun h => absurd h hk⟩
  side d file owner := by
    rintro _ _ ⟨⟩
    exact ⟨fun _ h => absurd h (by simp), fun h => absurd h (by simp), fun h => absurd h (by simp)⟩
  signature _ _ _ _ _ := by
    rintro _ _ ⟨⟩
    exact ⟨fun _ _ => rfl, fun h => absurd h (by simp), fun _ => ⟨_, rfl⟩⟩
  overload _ _ _ _ _ _ := by
    rintro _ _ ⟨⟩
    exact ⟨fun _ _ => rfl, fun h => absurd h (by simp), fun _ => ⟨_, rfl⟩⟩
  parameter _ _ _ := by
    rintro _ _ ⟨⟩
    exact ⟨fun _ h => absurd h (by simp), fun _ => rfl, fun h => absurd h (by simp)⟩
  parameterField _ _ _ := by
    rintro _ _ ⟨⟩
    exact ⟨fun _ h => absurd h (by simp), fun h => absurd h (by simp), fun h => absurd h (by simp)⟩

end Place

namespace Decl

variable {d : Decl} {file : String} {q r : Place} {args : List Decl} {i : Nat} {P : Place → Prop}
  (hP : Place.IsUniversal P)

include hP

theorem holds_mergedAt {kind : SymbolKind} (hk : kind ≠ .signature) :
    P (d.mergedAt file q kind) := by
  unfold mergedAt
  split
  · exact hP.single d file q kind hk
  · exact hP.shared q d.name kind

theorem holds_of_mem_signaturePlaces {fieldsOf : Option Place} (hq : P q)
    (h : (i, r) ∈ d.signaturePlaces file args fieldsOf q) : P r := by
  rcases List.mem_cons.mp h with heq | h
  · obtain ⟨-, rfl⟩ := Prod.mk.inj heq
    exact hq
  · obtain ⟨arg, -, h⟩ := List.mem_flatMap.mp h
    unfold argumentPlaces at h
    rcases List.mem_cons.mp h with heq | h
    · obtain ⟨-, rfl⟩ := Prod.mk.inj heq
      exact hP.parameter arg file q
    · split at h
      · split at h
        · obtain ⟨-, rfl⟩ := Prod.mk.inj (List.mem_singleton.mp h)
          exact hP.parameterField arg file _
        · exact absurd h List.not_mem_nil
      · exact absurd h List.not_mem_nil

theorem holds_of_mem_functionOutcome (h : (i, r) ∈ (d.functionOutcome file q args).1) : P r := by
  rcases List.mem_cons.mp h with heq | h
  · obtain ⟨-, rfl⟩ := Prod.mk.inj heq
    refine holds_mergedAt hP ?_
    unfold functionKind
    split <;> simp
  · refine holds_of_mem_signaturePlaces hP (hP.overload d file _ d.functionKind ?_ ?_) h
    · unfold mergedAt
      split <;> rfl
    · unfold functionKind
      split <;> rfl

theorem holds_of_mem_outcome (h : (i, r) ∈ (d.outcome file q args).1) : P r := by
  have hmerged : ∀ {kind}, kind ≠ .signature → (i, r) ∈ (d.mergedOutcome file q kind).1 → P r := by
    intro kind hk h
    obtain ⟨-, rfl⟩ := Prod.mk.inj (List.mem_singleton.mp h)
    exact holds_mergedAt hP hk
  have hvalue : ∀ {kind}, kind ≠ .signature → (i, r) ∈ (d.valueOutcome file q kind).1 → P r := by
    intro kind hk h
    obtain ⟨-, rfl⟩ := Prod.mk.inj (List.mem_singleton.mp h)
    exact hP.single d file _ kind hk
  unfold outcome at h
  cases hk : d.kind <;> simp only [hk] at h
  case script | argument => exact absurd h List.not_mem_nil
  case module | dynamicModule | interface => exact hmerged (by simp) h
  case classDecl =>
    simp only [classOutcome, List.mem_cons, List.not_mem_nil, or_false, Prod.mk.injEq] at h
    rcases h with ⟨-, rfl⟩ | ⟨-, rfl⟩
    · exact hP.side d file _
    · exact hP.single d file _ _ (by simp)
  case function | method | staticMethod =>
    split at h
    · exact holds_of_mem_signaturePlaces hP (hP.signature d file _ _ _) h
    · exact holds_of_mem_functionOutcome hP h
  case field | staticField =>
    split at h
    · exact hmerged (by simp) h
    · exact hvalue (by simp) h
  case «variable» | «import» => exact hvalue (by simp) h
  case callSignature | constructSignature | indexSignature =>
    exact holds_of_mem_signaturePlaces hP (hP.signature d file _ _ _) h

end Decl

/-- What holds at all places of declarations holds at those of a unit. -/
theorem CompilationUnit.holds_of_mem_places {P : Place → Prop} (hP : Place.IsUniversal P)
    {u : CompilationUnit} {i : Nat} {q : Place} (h : (i, q) ∈ u.places) : P q := by
  have hafter : ∀ opened ds, (i, q) ∈ u.placesAfter opened ds → P q := by
    intro opened ds
    induction ds generalizing opened with
    | nil => exact fun h => absurd h List.not_mem_nil
    | cons d ds ih =>
        intro h
        rcases List.mem_append.mp h with h | h
        · unfold outcomeOf at h
          split at h
          · exact absurd h List.not_mem_nil
          · exact Decl.holds_of_mem_outcome hP h
        · exact ih _ h
  exact hafter [] u.decls.toList h

/-! ### The units of a program -/

namespace Program

variable {p p' : Program} {u : CompilationUnit} {d : DeclId} {q : Place}

/-- Only the text counts. -/
theorem Contributes.of_text (h : p.Contributes d q) (ht : p'.text = p.text) :
    p'.Contributes d q := by
  obtain ⟨u, hu, hid, hq⟩ := h
  obtain ⟨v, hv, hvu⟩ := exists_of_text_eq ht hu
  refine ⟨v, hv, ?_, ?_⟩
  · have hid' : v.text.id = u.text.id := congrArg CompilationUnit.id hvu
    exact Eq.trans hid' hid
  · rwa [v.alike_text.places_eq, hvu, ← u.alike_text.places_eq]

theorem contributes_congr (ht : p'.text = p.text) : p'.Contributes d q ↔ p.Contributes d q :=
  ⟨fun h => h.of_text ht.symm, fun h => h.of_text ht⟩

theorem contributes_add : (p.add u).Contributes d q ↔
    p.Contributes d q ∨ (d.unit = u.id ∧ (d.index, q) ∈ u.places) := by
  constructor
  · rintro ⟨v, hv, hid, hq⟩
    rcases List.mem_append.mp hv with hv | hv
    · exact .inl ⟨v, hv, hid, hq⟩
    · obtain rfl := List.mem_singleton.mp hv
      exact .inr ⟨hid.symm, hq⟩
  · rintro (⟨v, hv, hid, hq⟩ | ⟨hid, hq⟩)
    · exact ⟨v, List.mem_append_left _ hv, hid, hq⟩
    · exact ⟨u, List.mem_append_right _ (List.mem_singleton_self u), hid.symm, hq⟩

theorem contributes_remove (h : p.WellFormed) (hu : u ∈ p.units) :
    (p.remove u.path).Contributes d q ↔ p.Contributes d q ∧ d.unit ≠ u.id := by
  constructor
  · rintro ⟨v, hv, hid, hq⟩
    obtain ⟨hv, hne⟩ := mem_remove.mp hv
    refine ⟨⟨v, hv, hid, hq⟩, fun hd => hne ?_⟩
    rw [h.eq_of_id hv hu (hid.trans hd)]
  · rintro ⟨⟨v, hv, hid, hq⟩, hd⟩
    refine ⟨v, mem_remove.mpr ⟨hv, fun hpath => hd ?_⟩, hid, hq⟩
    rw [← hid, h.eq_of_path hv hu hpath]

/-- The unit of a declaration also contributes to the owner of its place. -/
theorem Contributes.owner (h : p.Contributes d q) :
    q.owner = .top ∨ ∃ i, p.Contributes ⟨d.unit, i⟩ q.owner := by
  obtain ⟨u, hu, hid, hq⟩ := h
  exact (u.grounded_places.owner hq).imp_right fun ⟨i, hi⟩ => ⟨i, u, hu, hid, hi⟩

theorem Contributes.side (h : p.Contributes d q) (hk : q.kind? = some .classType) :
    ∃ i, p.Contributes ⟨d.unit, i⟩ q.instanceSide := by
  obtain ⟨u, hu, hid, hq⟩ := h
  obtain ⟨i, hi⟩ := u.grounded_places.side hq hk
  exact ⟨i, u, hu, hid, hi⟩

theorem Contributes.of_isUniversal {P : Place → Prop} (h : p.Contributes d q)
    (hP : Place.IsUniversal P) : P q := by
  obtain ⟨u, -, -, hq⟩ := h
  exact CompilationUnit.holds_of_mem_places hP hq

theorem Contributes.marked (h : p.Contributes d q) : q.Marked :=
  h.of_isUniversal Place.isUniversal_marked

theorem Contributes.kinded (h : p.Contributes d q) : q.Kinded :=
  h.of_isUniversal Place.isUniversal_kinded

end Program

end NameBinding
