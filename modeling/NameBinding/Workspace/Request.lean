import NameBinding.Tree.Builder
import NameBinding.Workspace.Basic

/-! What can be asked of a workspace: edits of its documents, and demands that resolve names. -/

namespace NameBinding

/-- Something to resolve. -/
inductive Demand where
  | symbol (id : SymbolId)
  | module (id : SymbolId)
  | classType (id : SymbolId)
  | interface (id : SymbolId)
  | function (id : SymbolId)
  | signature (id : SymbolId)
  | value (id : SymbolId)
  | alias (id : SymbolId)
  /-- What an alias stands for. -/
  | aliasTarget (id : SymbolId)
  /-- The array type of an element type. -/
  | arrayOf (element : SymbolId)
  /-- The symbol of a dotted name. -/
  | path (segments : List String) (context : List SymbolId) (enclosing : Option DeclId)
      (meaning : Meaning)
  /-- The type of a node. -/
  | typeNode (unit : UnitId) (node : NodeRef) (context : List SymbolId)
      (enclosing : Option DeclId)
  deriving DecidableEq, Repr

namespace Demand

/-- Does a step for a symbol and answers with the symbol. -/
def thenItself (id : SymbolId) (step : ResolveM Unit) : ResolveM (Option SymbolId) := do
  step
  return some id

/-- Meets a demand. Only a dotted name can have no answer. -/
def run (s : Setting) : Demand → ResolveM (Option SymbolId)
  | .symbol id => thenItself id (ResolveM.resolveSymbol s id)
  | .module id => thenItself id (ResolveM.resolveModule s id)
  | .classType id => thenItself id (ResolveM.resolveClass s id)
  | .interface id => thenItself id (ResolveM.resolveInterface s id)
  | .function id => thenItself id (ResolveM.resolveFunction s id)
  | .signature id => thenItself id (ResolveM.resolveSignature s id)
  | .value id => thenItself id (ResolveM.resolveValue s id)
  | .alias id => some <$> ResolveM.resolveAlias s id
  | .aliasTarget id => some <$> ResolveM.aliasTarget s id
  | .arrayOf element => some <$> ResolveM.arrayOf element
  | .path segments context enclosing meaning =>
    ResolveM.findPath s segments context enclosing meaning
  | .typeNode unit node context enclosing =>
    some <$> ResolveM.typeReference s unit node context enclosing

end Demand

/-- An edit or a demand. -/
inductive Request where
  | setUnit (path : String) (tree : DocTree) (root : NodeRef)
  | removeUnit (path : String)
  | reset
  | takeDiagnostics
  | demand (d : Demand)
  deriving DecidableEq, Repr

namespace Request

inductive Answer where
  | done
  | unit (id : UnitId)
  | diagnostics (ds : List Diagnostic)
  | symbol (id : Option SymbolId)
  deriving DecidableEq, Repr

def run : Request → WorkspaceM Answer
  | .setUnit path tree root => return .unit (← WorkspaceM.setUnit path tree root)
  | .removeUnit path => do
    WorkspaceM.removeUnit path
    return .done
  | .reset => do
    modify (·.reset)
    return .done
  | .takeDiagnostics => modifyGet fun w =>
      (.diagnostics w.diagnostics, { w with diagnostics := [] })
  | .demand d => return .symbol (← WorkspaceM.ofResolve d.run)

/-- The request to set a document to some statements. -/
def setStatements (path : String) (statements : Build (List NodeRef)) : Request :=
  let (root, b) := StateT.run (m := Id) (statements >>= Build.sourceFile) { path }
  .setUnit path (b.finish root) root

/-- The workspace after a request, also after one that fails. -/
def apply (request : Request) (w : Workspace) : Workspace :=
  match request.run w with
  | .ok _ w => w
  | .error _ w => w

end Request

namespace Workspace

/-- The workspace after some requests. -/
def after (w : Workspace) (requests : List Request) : Workspace :=
  requests.foldl (fun w r => r.apply w) w

/-- The workspaces that some requests lead to from an empty one. -/
def Reachable (w : Workspace) : Prop :=
  ∃ options requests, w = (ofOptions options).after requests

theorem after_append (w : Workspace) (first second : List Request) :
    w.after (first ++ second) = (w.after first).after second := by
  simp [after]

theorem reachable_ofOptions (options : Options) : Reachable (ofOptions options) :=
  ⟨options, [], rfl⟩

theorem Reachable.apply {w : Workspace} (h : Reachable w) (request : Request) :
    Reachable (request.apply w) := by
  obtain ⟨options, requests, rfl⟩ := h
  exact ⟨options, requests ++ [request], by simp [after]⟩

end Workspace

end NameBinding
