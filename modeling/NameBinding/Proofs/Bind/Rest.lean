import NameBinding.Proofs.Place.Basic

/-! # What steps of binding go on with

A signature is hung on its owner in one way, whatever declares it. -/

namespace NameBinding.BindM

/-- A signature is linked to its owner, if it has one, and recorded. -/
def hangSignature (kind : EdgeKind) (decl : DeclId) (inside : Inside) (owner : Option SymbolId)
    (signature : SymbolId) : BindM Inside := do
  match owner with
  | some owner => link owner signature kind
  | none => pure ()
  record decl signature
  return inside

theorem bindConstructor_eq (scope : Option SymbolId) (d : Decl) : bindConstructor scope d =
    constructedType scope >>= fun fieldsOf => bindSignature d d.constructorFlags fieldsOf >>=
      fun signature =>
        hangSignature .constructSignature d.id (.scope (some signature)) scope signature := rfl

/-- What follows once the owner of a signature among the members is known. -/
def bindSignatureIn (d : Decl) (owner : Option SymbolId) : BindM Inside :=
  bindSignature d
    (if d.kind = .constructSignature then Flags.single .constructor else ∅) none >>=
      hangSignature d.signatureEdge d.id .closed owner

theorem bindMemberSignature_eq (scope : Option SymbolId) (d : Decl) : bindMemberSignature scope d =
    if d.kind = .constructSignature then bindSignatureIn d scope
    else owner scope d >>= bindSignatureIn d := rfl

theorem bindFunction_eq (unit : UnitId) (scope : Option SymbolId) (d : Decl) :
    bindFunction unit scope d =
      mergeOrCreate unit scope d d.functionKind (fun k _ => k == d.functionKind) >>= fun function =>
        record d.id function >>= fun _ => graph >>= fun g =>
          bindSignature d (if d.has .implementation && (g.definition? function).isNone then
            Flags.single .definition else ∅) none >>= fun signature =>
              link function signature .callSignature >>= fun _ =>
                pure (.scope (some function)) := rfl

end NameBinding.BindM

namespace NameBinding.Decl

theorem isSignature_signatureEdge (d : Decl) : d.signatureEdge.isSignature := by
  unfold signatureEdge
  split <;> rfl

theorem functionKind_ne_classType (d : Decl) : d.functionKind ≠ .classType := by
  unfold functionKind
  split <;> decide

end NameBinding.Decl
