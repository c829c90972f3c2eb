import NameBinding.Resolve.Heritage

/-! # What steps go on with

Some steps find something out in one of two ways and go on with it in one way. What they go on with
has a name here, so that it is looked at once. -/

namespace NameBinding.ResolveM

/-- From the symbol that holds the members, on with the next segment. -/
def walkOn (aliasTarget : SymbolId → ResolveM SymbolId) (meaning : Meaning) (segment : String)
    (rest : List String) (holder : SymbolId) : ResolveM (Option SymbolId) := do
  let g ← graph
  match (g.publicMembers holder).find? (g.admits segment (meaning.atSegment rest)) with
  | some next => walkMembers aliasTarget meaning next rest
  | none => return none

theorem walkMembers_cons (aliasTarget : SymbolId → ResolveM SymbolId) (meaning : Meaning)
    (current : SymbolId) (segment : String) (rest : List String) :
    walkMembers aliasTarget meaning current (segment :: rest) = graph >>= fun g =>
      if g.kind? current == some .alias then
        aliasTarget current >>= walkOn aliasTarget meaning segment rest
      else walkOn aliasTarget meaning segment rest current := rfl

/-- The type that a symbol denotes, if it is no alias that stands for something else. -/
def typeDenoted (denoted : SymbolId) : ResolveM SymbolId := do
  let g ← graph
  match g.kind? denoted with
  | some .alias => return WellKnown.error
  | some .classType => match g.instanceType? denoted with
    | some inst => return inst
    | none => throw (.missingInstanceType denoted)
  | some _ => return denoted
  | none => throw (.unknownSymbol denoted)

theorem asType_eq (setting : Setting) (symbol : SymbolId) : asType setting symbol =
    graph >>= fun g =>
      if g.kind? symbol == some .alias then aliasTarget setting symbol >>= typeDenoted
      else typeDenoted symbol := rfl

/-- The name of an entry among the bases. -/
def entryName (site : DeclSite) (entry : NodeRef) : List String :=
  site.tree.entityName (match site.tree.record? entry with
    | some (.typeReference name) => name
    | _ => entry)

/-- The base for what the name of an entry leads to. -/
def baseFound (setting : Setting) (site : DeclSite) (notObject : Nat) (entry : NodeRef) :
    Option SymbolId → ResolveM (Option SymbolId)
  | none => do
    report (.ofCode site.file (site.tree.span entry) Message.cannotFindName
      [Dotted.join (entryName site entry)])
    return some WellKnown.error
  | some found => do
    let type ← asType setting found
    let kind? := (← graph).kind? type
    if (kind?.map (·.isObjectType)).getD false || kind? == some .error then return some type
    else
      report (.ofCode site.file (site.tree.span entry) notObject [])
      return none

theorem heritageTarget_eq (setting : Setting) (site : DeclSite) (notObject : Nat)
    (entry : NodeRef) : heritageTarget setting site notObject entry =
      findPath setting (entryName site entry) [] site.decl.parent .type >>= fun found =>
        match found with
        | some found => baseFound setting site notObject entry (some found)
        | none => findPath setting (entryName site entry) [] site.decl.parent .any >>=
            baseFound setting site notObject entry := by
  unfold heritageTarget
  refine congrArg (bind _) (funext fun found => ?_)
  cases found with
  | none => exact congrArg (bind _) (funext fun found => by cases found <;> rfl)
  | some found => rfl

end NameBinding.ResolveM
