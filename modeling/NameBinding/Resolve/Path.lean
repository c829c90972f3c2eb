import NameBinding.Resolve.Basic
import NameBinding.Tree.EntityName

/-! Names in scope, and the aliases on the way. A name is searched in a given context first, then
in the declarations around it from the inside out, and last among the global names. -/

namespace NameBinding

namespace SymbolGraph

/-- A living symbol with the name, and a kind that the meaning admits. -/
def admits (g : SymbolGraph) (name : String) (meaning : Meaning) (id : SymbolId) : Bool :=
  match g.get? id with
  | some s => s.name == name && s.isDeclared && meaning.admits s.kind
  | none => false

/-- What can be named directly inside a symbol. In a class this includes what its instances have. -/
def scopeChildren (g : SymbolGraph) (id : SymbolId) : List SymbolId :=
  g.children id ++ ((g.instanceType? id).map g.children).getD []

end SymbolGraph

namespace Program

/-- The symbols of a declaration and of the ones around it, from the inside out, for at most
`depth` declarations. -/
def enclosingSymbols (p : Program) : Nat → Option DeclId → List SymbolId
  | 0, _ | _, none => []
  | depth + 1, some d =>
    match p.decl? d with
    | none => []
    | some decl => decl.symbol.toList ++ p.enclosingSymbols depth decl.parent

/-- The symbols around a place, each once. -/
def lexicalScopes (p : Program) (depth : Nat) (enclosing : Option DeclId) : List SymbolId :=
  (p.enclosingSymbols depth enclosing).eraseDups

end Program

namespace ResolveM

section Search

variable (aliasTarget : SymbolId → ResolveM SymbolId)

/-- Follows segments from a symbol through public members, and through aliases to what they stand
for. -/
def walkMembers (meaning : Meaning) : SymbolId → List String → ResolveM (Option SymbolId)
  | current, [] => return some current
  | current, segment :: rest => do
    let holder ← if (← graph).kind? current == some .alias then aliasTarget current
      else pure current
    let g ← graph
    match (g.publicMembers holder).find? (g.admits segment (meaning.atSegment rest)) with
    | some next => walkMembers meaning next rest
    | none => return none

/-- The first of some symbols with the first segment's name from which the other segments lead
on. -/
def lookupAmong (candidates : List SymbolId) (segments : List String) (meaning : Meaning) :
    ResolveM (Option SymbolId) := do
  match segments with
  | [] => return none
  | first :: rest =>
    let g ← graph
    (candidates.filter (g.admits first (meaning.atSegment rest))).findSomeM?
      (walkMembers aliasTarget meaning · rest)

def lookupFrom (segments : List String) (meaning : Meaning) (anchor : SymbolId) :
    ResolveM (Option SymbolId) := do
  lookupAmong aliasTarget ((← graph).scopeChildren anchor) segments meaning

def lookupGlobal (setting : Setting) (segments : List String) (meaning : Meaning) :
    ResolveM (Option SymbolId) :=
  lookupAmong aliasTarget (setting.program.globalSymbols (segments.head?.getD "")) segments meaning

/-- The symbol that a dotted name denotes at a place. -/
def lookupPath (setting : Setting) (segments : List String) (context : List SymbolId)
    (enclosing : Option DeclId) (meaning : Meaning) : ResolveM (Option SymbolId) := do
  if segments.isEmpty then return none
  let scopes := setting.program.lexicalScopes setting.options.maxScopePathDepth enclosing
  match ← (context ++ scopes).findSomeM? (lookupFrom aliasTarget segments meaning) with
  | some found => return some found
  | none => lookupGlobal aliasTarget setting segments meaning

end Search

/-! ### Aliases -/

/-- What a resolved alias stands for. -/
def settledTarget (id : SymbolId) : ResolveM SymbolId :=
  return ((← graph).firstTarget id .typedAs).getD WellKnown.error

/-- What an alias stands for, with a way to resolve it if that was not done. -/
def settle (resolve : SymbolId → ResolveM SymbolId) (id : SymbolId) : ResolveM SymbolId := do
  if (← graph).isResolved id then settledTarget id else resolve id

/-- The module that an alias names by its text. -/
def requiredModule (setting : Setting) (site : DeclSite) (reference : NodeRef) :
    ResolveM SymbolId := do
  let text := site.tree.nameText reference
  let g ← graph
  match (setting.program.globalSymbols text).find? fun id => g.kind? id == some .dynamicModule with
  | some found => return found
  | none =>
    report (.ofCode site.file (site.tree.span reference) Message.cannotFindName
      ["\"" ++ text ++ "\""])
    return WellKnown.error

/-- What an alias names by a dotted name. An alias of an alias stands for what that one stands for,
and no alias stands for itself. -/
def namedTarget (setting : Setting) (resolve : SymbolId → ResolveM SymbolId) (id : SymbolId)
    (site : DeclSite) (reference : NodeRef) : ResolveM SymbolId := do
  let segments := site.tree.entityName reference
  let missing : ResolveM SymbolId := do
    let code := if segments.length > 1 then Message.cannotFindNamespace else Message.cannotFindName
    report (.ofCode site.file (site.tree.span reference) code [Dotted.join segments])
    return WellKnown.error
  match ← lookupPath (settle resolve) setting segments [] site.decl.parent .any with
  | none => missing
  | some found =>
    if found = id then missing
    else if (← graph).kind? found == some .alias then resolve found
    else return found

/-- What an alias stands for by its first declaration. -/
def declaredTarget (setting : Setting) (resolve : SymbolId → ResolveM SymbolId)
    (id : SymbolId) : ResolveM SymbolId := do
  match ← firstSite setting id with
  | none => return WellKnown.error
  | some site => match site.tree.record? site.decl.node with
    | some (.importEquals i) =>
      if site.tree.kind? i.reference == some .externalModuleReference then
        requiredModule setting site i.reference
      else namedTarget setting resolve id site i.reference
    | _ => return WellKnown.error

/-- Resolves an alias, and follows at most `hops` aliases from it. One that is being resolved and
comes up again stands for nothing yet. -/
def resolveAliasWithin (setting : Setting) : Nat → SymbolId → ResolveM SymbolId
  | 0, id => do
    if ← begin id then
      setSingle id WellKnown.error .typedAs
      return WellKnown.error
    else settledTarget id
  | hops + 1, id => do
    if ← begin id then
      let target ← declaredTarget setting (resolveAliasWithin setting hops) id
      setSingle id target .typedAs
      return target
    else settledTarget id

def resolveAlias (setting : Setting) (id : SymbolId) : ResolveM SymbolId :=
  resolveAliasWithin setting Limits.aliasDepth id

/-- What an alias stands for, which resolves it first if needed. -/
def aliasTarget (setting : Setting) (id : SymbolId) : ResolveM SymbolId :=
  settle (resolveAlias setting) id

/-- The symbol that a dotted name denotes at a place, as far as needed with the aliases in it
resolved. -/
def findPath (setting : Setting) (segments : List String) (context : List SymbolId)
    (enclosing : Option DeclId) (meaning : Meaning) : ResolveM (Option SymbolId) :=
  lookupPath (aliasTarget setting) setting segments context enclosing meaning

/-- The type that a symbol denotes: the instance side of a class, what an alias stands for, or the
symbol itself. -/
def asType (setting : Setting) (symbol : SymbolId) : ResolveM SymbolId := do
  let denoted ← if (← graph).kind? symbol == some .alias then aliasTarget setting symbol
    else pure symbol
  let g ← graph
  match g.kind? denoted with
  | some .alias => return WellKnown.error
  | some .classType => match g.instanceType? denoted with
    | some inst => return inst
    | none => throw (.missingInstanceType denoted)
  | some _ => return denoted
  | none => throw (.unknownSymbol denoted)

end ResolveM

end NameBinding
