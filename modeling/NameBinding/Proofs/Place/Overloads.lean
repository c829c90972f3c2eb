import NameBinding.Proofs.Place.Stages

/-! # Where signatures and parameters come from

A function and its signature are put at their places by one declaration. What is put below a
signature as a parameter comes from an argument of its declaration. -/

namespace NameBinding

namespace Attachment

/-- How a symbol hangs that is listed as a signature or as a parameter. -/
def listed : EdgeKind → Attachment
  | .parameter => parameter
  | kind => signature kind

variable {a : Attachment} {kind : EdgeKind} {owner symbol x y : SymbolId}

theorem edges_listed (hk : kind.isSignature ∨ kind = .parameter) :
    (listed kind).edges owner symbol = [⟨owner, symbol, kind⟩] := by
  rcases hk with hk | rfl
  · cases kind <;> simp_all [EdgeKind.isSignature, listed, edges]
  · rfl

/-- Nothing else hangs by such an edge. -/
theorem Proper.eq_listed (h : a.Proper) (hk : kind.isSignature ∨ kind = .parameter)
    (he : ⟨x, y, kind⟩ ∈ a.edges owner symbol) : a = listed kind ∧ x = owner ∧ y = symbol := by
  have hmember : ¬kind.isMembership ∧ kind ≠ .containedBy ∧ kind ≠ .instanceType := by
    rcases hk with hk | rfl
    · cases kind <;> simp_all [EdgeKind.isSignature, EdgeKind.isMembership]
    · decide
  unfold edges at he
  split at he
  · exact absurd he (by simp [hmember.2.1])
  · next edge =>
    have hm : edge.isMembership := h
    have hne : kind ≠ edge := by
      rintro rfl
      exact hmember.1 hm
    exact absurd he (by simp [hmember.2.1, hne])
  · exact absurd he (by simp [hmember.2.2])
  · next edge =>
    obtain ⟨rfl, rfl, rfl⟩ := Edge.mk.inj (List.mem_singleton.mp he)
    have hs : kind.isSignature := h
    cases kind <;> simp_all [EdgeKind.isSignature, listed]
  · obtain ⟨rfl, rfl, rfl⟩ := Edge.mk.inj (List.mem_singleton.mp he)
    exact ⟨rfl, rfl, rfl⟩

end Attachment

namespace Decl

variable {d : Decl} {file : String} {scope owner r : Place} {args : List Decl} {i : Nat}
  {spot : Spot}

/-- Only declarations of functions contribute to functions. -/
theorem outcome_eq_functionOutcome {kind : SymbolKind}
    (h : (i, r) ∈ (d.outcome file scope args).1) (hk : r.kind? = some kind)
    (hf : kind.isFunctionLike) : i = d.id.index ∧
      r = d.mergedAt file (d.ownerAt scope) d.functionKind ∧
      d.outcome file scope args = d.functionOutcome file scope args := by
  rcases symbolAt_of_mem_outcome h with ⟨hi, hat | ⟨other, hsecond, hother⟩⟩ | ⟨_, _, _, hkind⟩
  · refine ⟨hi, ?_⟩
    have hsymbol := (kind?_symbolAt hat).symm.trans hk
    unfold symbolKind? at hsymbol
    unfold symbolAt? at hat
    unfold outcome
    cases hd : d.kind <;> simp only [hd, Option.some.injEq, reduceCtorEq] at hsymbol hat ⊢
    case function | method | staticMethod =>
      split at hsymbol
      · subst hsymbol
        exact absurd hf (by decide)
      · next hcon =>
        rw [if_neg hcon] at hat ⊢
        exact ⟨hat.symm, rfl⟩
    all_goals
      subst hsymbol
      exact absurd hf (by decide)
  · have hnot : ¬other.isFunctionLike := by
      unfold secondKind? at hsecond
      cases hd : d.kind <;> simp only [hd, Option.some.injEq, reduceCtorEq] at hsecond
      case classDecl => simp [← hsecond, SymbolKind.isFunctionLike]
      case function | method | staticMethod =>
        split at hsecond
        · exact absurd hsecond (by simp)
        · simp [← Option.some.inj hsecond, SymbolKind.isFunctionLike]
    obtain rfl := Option.some.inj (hk.symm.trans hother)
    exact absurd hf hnot
  · rcases hkind with hkind | hkind
    · obtain rfl := Option.some.inj (hk.symm.trans hkind)
      exact absurd hf (by decide)
    · obtain rfl := Option.some.inj (hk.symm.trans hkind)
      exact absurd hf (by decide)

/-- A symbol that hangs on another one comes from the declaration itself, or from an argument. Only
arguments make parameters, and they make no signatures. -/
inductive Hangs (d : Decl) (file : String) (args : List Decl) (i : Nat) (owner : Place) :
    Attachment → Prop
  | self {a : Attachment} (hi : i = d.id.index) (ha : a ≠ .parameter) : Hangs d file args i owner a
  | parameter {arg : Decl} (harg : arg ∈ args) (hi : i = arg.id.index) {o : Place} {spot : Spot}
      (ho : owner = .single o spot) (hfile : spot.file = file) (hindex : spot.index = d.id.index) :
      Hangs d file args i owner .parameter
  | field {arg : Decl} (harg : arg ∈ args) (hi : i = arg.id.index) (edge : Option EdgeKind) :
      Hangs d file args i owner (.member edge)

theorem hangs_of_mem_signaturePlaces {edge : EdgeKind} {flags : Option (Flags SymbolFlag)}
    {fieldsOf : Option Place} {o : Place}
    (h : (i, .single owner spot) ∈
      d.signaturePlaces file args fieldsOf (d.signatureAt file o edge flags)) :
    d.Hangs file args i owner spot.attachment := by
  rcases List.mem_cons.mp h with h | h
  · obtain ⟨hi, hplace⟩ := Prod.mk.inj h
    obtain ⟨rfl, rfl⟩ := Place.single.inj hplace
    exact .self hi (by simp)
  · obtain ⟨arg, harg, h⟩ := List.mem_flatMap.mp h
    unfold argumentPlaces at h
    rcases List.mem_cons.mp h with h | h
    · obtain ⟨hi, hplace⟩ := Prod.mk.inj h
      obtain ⟨rfl, rfl⟩ := Place.single.inj hplace
      exact .parameter harg hi rfl rfl rfl
    · split at h
      · split at h
        · obtain ⟨hi, hplace⟩ := Prod.mk.inj (List.mem_singleton.mp h)
          obtain ⟨rfl, rfl⟩ := Place.single.inj hplace
          exact .field harg hi _
        · exact absurd h List.not_mem_nil
      · exact absurd h List.not_mem_nil

theorem hangs_mergedAt {o : Place} {kind : SymbolKind} (hi : i = d.id.index)
    (h : .single owner spot = d.mergedAt file o kind) : d.Hangs file args i owner spot.attachment := by
  unfold mergedAt at h
  split at h
  · obtain ⟨-, rfl⟩ := Place.single.inj h
    exact .self hi (by simp [attachmentAt])
  · exact absurd h (by simp)

theorem hangs_of_mem_outcome (h : (i, .single owner spot) ∈ (d.outcome file scope args).1) :
    d.Hangs file args i owner spot.attachment := by
  have hmerged : ∀ {kind}, (i, .single owner spot) ∈ (d.mergedOutcome file scope kind).1 →
      d.Hangs file args i owner spot.attachment := by
    intro kind h
    obtain ⟨hi, hplace⟩ := Prod.mk.inj (List.mem_singleton.mp h)
    exact hangs_mergedAt hi hplace
  have hsingle : ∀ {o kind}, i = d.id.index → .single owner spot = d.singleAt file o kind →
      d.Hangs file args i owner spot.attachment := by
    intro o kind hi h
    obtain ⟨-, rfl⟩ := Place.single.inj h
    exact .self hi (by simp [attachmentAt])
  have hvalue : ∀ {kind}, (i, .single owner spot) ∈ (d.valueOutcome file scope kind).1 →
      d.Hangs file args i owner spot.attachment := by
    intro kind h
    obtain ⟨hi, hplace⟩ := Prod.mk.inj (List.mem_singleton.mp h)
    exact hsingle hi hplace
  unfold outcome at h
  cases hk : d.kind <;> simp only [hk] at h
  case script | argument => exact absurd h List.not_mem_nil
  case module | dynamicModule | interface => exact hmerged h
  case classDecl =>
    simp only [classOutcome, List.mem_cons, List.not_mem_nil, or_false, Prod.mk.injEq] at h
    rcases h with ⟨hi, hplace⟩ | ⟨hi, hplace⟩
    · obtain ⟨-, rfl⟩ := Place.single.inj hplace
      exact .self hi (by simp)
    · exact hsingle hi hplace
  case function | method | staticMethod =>
    split at h
    · exact hangs_of_mem_signaturePlaces h
    · rcases List.mem_cons.mp h with h | h
      · obtain ⟨hi, hplace⟩ := Prod.mk.inj h
        exact hangs_mergedAt hi hplace
      · exact hangs_of_mem_signaturePlaces h
  case field | staticField =>
    split at h
    · exact hmerged h
    · exact hvalue h
  case «variable» | «import» => exact hvalue h
  case callSignature | constructSignature | indexSignature =>
    exact hangs_of_mem_signaturePlaces h

/-- Where the signature of a function stands below the function. -/
def overloadSpot (d : Decl) (file : String) : Spot :=
  ⟨.signature .callSignature, file, d.id.index, d.name, .signature, none⟩

/-- The only signature that the declaration of a function makes. -/
theorem eq_overloadSpot_of_mem_functionOutcome {edge : EdgeKind}
    (h : (i, .single owner spot) ∈ (d.functionOutcome file scope args).1)
    (ha : spot.attachment = .signature edge) :
    spot = d.overloadSpot file := by
  rcases List.mem_cons.mp h with h | h
  · have hplace := (Prod.mk.inj h).2
    unfold mergedAt at hplace
    split at hplace
    · obtain ⟨-, rfl⟩ := Place.single.inj hplace
      exact absurd ha (by simp [attachmentAt])
    · exact absurd hplace (by simp)
  · rcases List.mem_cons.mp h with h | h
    · exact (Place.single.inj (Prod.mk.inj h).2).2
    · obtain ⟨arg, -, h⟩ := List.mem_flatMap.mp h
      obtain ⟨-, hplace⟩ := Prod.mk.inj (List.mem_singleton.mp h)
      obtain ⟨-, rfl⟩ := Place.single.inj hplace
      exact absurd ha (by simp)

end Decl

end NameBinding
