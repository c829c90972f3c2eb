import NameBinding.Resolve.Basic

/-! Fields and methods that share a name in one container. -/

namespace NameBinding

namespace SymbolGraph

/-- A field and a method have the same name. -/
def collide (g : SymbolGraph) (earlier later : SymbolId) : Bool :=
  match g.get? earlier, g.get? later with
  | some a, some b => a.name == b.name && a.kind.collides b.kind
  | _, _ => false

/-- Each later symbol of a list with each earlier one, by the later symbol. -/
def pairsFrom (earlier : List SymbolId) : List SymbolId → List (SymbolId × SymbolId)
  | [] => []
  | later :: rest => earlier.map (·, later) ++ pairsFrom (earlier ++ [later]) rest

end SymbolGraph

namespace ResolveM

/-- The note on where a name was declared first. -/
def earlierNote (first : DeclSite) (name : String) : RelatedNote where
  file := first.file
  start := if first.decl.span.isValid then first.decl.span.start else 0
  length := first.decl.span.length
  text := "'" ++ name ++ "' was also declared here."

/-- Reports two members that collide, at the later one. -/
def reportCollision (setting : Setting) (earlier later : SymbolId) : ResolveM Unit := do
  let name := (← graph).name later
  match ← firstSite setting later with
  | none => pure ()
  | some site =>
    let d := Diagnostic.ofCode site.file site.decl.span Message.duplicateIdentifier [name]
    match ← firstSite setting earlier with
    | some first => report (d.withRelated (earlierNote first name))
    | none => report d

/-- Reports all members of a container that collide. -/
def checkCollisions (setting : Setting) (container : SymbolId) : ResolveM Unit := do
  if setting.options.reportMemberCollisions then
    let g ← graph
    ((SymbolGraph.pairsFrom [] (g.members container)).filter fun (a, b) => g.collide a b).forM
      fun (a, b) => reportCollision setting a b

end ResolveM

end NameBinding
