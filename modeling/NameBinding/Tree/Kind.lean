import NameBinding.Flags

/-! The kinds of tree nodes, the records they keep, and the modifiers written on them. -/

namespace NameBinding

/-- Declarations, the statements around them and type nodes are told apart. Any other expression is
an `expression` whose parts are still searched. -/
inductive NodeKind where
  | unknown
  | identifier
  | stringLiteral
  | qualifiedName
  | sourceFile
  | moduleDeclaration
  | classDeclaration
  | interfaceDeclaration
  | functionDeclaration
  | variableStatement
  | variableDeclaration
  | importEqualsDeclaration
  | externalModuleReference
  | parameter
  | propertyDeclaration
  | propertySignature
  | methodDeclaration
  | methodSignature
  | constructor
  | getAccessor
  | setAccessor
  | callSignature
  | constructSignature
  | indexSignature
  | functionExpression
  | arrowFunction
  | block
  | ifStatement
  | whileStatement
  | forStatement
  | expressionStatement
  | returnStatement
  | expression
  | typeReference
  | arrayType
  | functionType
  | constructorType
  | typeLiteral
  | anyKeyword
  | numberKeyword
  | stringKeyword
  | booleanKeyword
  | voidKeyword
  | nullKeyword
  | undefinedKeyword
  deriving DecidableEq, Repr, Inhabited

/-- The sorts of record that a node can keep its contents in. -/
inductive RecordSort where
  | identifier
  | literal
  | qualifiedName
  | sourceFile
  | moduleDecl
  | classDecl
  | interfaceDecl
  | function
  | property
  | variableStatement
  | parameter
  | importEquals
  | statement
  | typeReference
  | arrayType
  | typeLiteral
  deriving DecidableEq, Repr

namespace NodeKind

instance : Enumerated NodeKind where
  all := [.unknown, .identifier, .stringLiteral, .qualifiedName, .sourceFile,
    .moduleDeclaration, .classDeclaration, .interfaceDeclaration, .functionDeclaration,
    .variableStatement, .variableDeclaration, .importEqualsDeclaration,
    .externalModuleReference, .parameter, .propertyDeclaration, .propertySignature,
    .methodDeclaration, .methodSignature, .constructor, .getAccessor, .setAccessor,
    .callSignature, .constructSignature, .indexSignature, .functionExpression,
    .arrowFunction, .block, .ifStatement, .whileStatement, .forStatement,
    .expressionStatement, .returnStatement, .expression, .typeReference, .arrayType,
    .functionType, .constructorType, .typeLiteral, .anyKeyword, .numberKeyword,
    .stringKeyword, .booleanKeyword, .voidKeyword, .nullKeyword, .undefinedKeyword]
  name
    | .unknown => "Unknown"
    | .identifier => "Identifier"
    | .stringLiteral => "StringLiteral"
    | .qualifiedName => "QualifiedName"
    | .sourceFile => "SourceFile"
    | .moduleDeclaration => "ModuleDeclaration"
    | .classDeclaration => "ClassDeclaration"
    | .interfaceDeclaration => "InterfaceDeclaration"
    | .functionDeclaration => "FunctionDeclaration"
    | .variableStatement => "VariableStatement"
    | .variableDeclaration => "VariableDeclaration"
    | .importEqualsDeclaration => "ImportEqualsDeclaration"
    | .externalModuleReference => "ExternalModuleReference"
    | .parameter => "Parameter"
    | .propertyDeclaration => "PropertyDeclaration"
    | .propertySignature => "PropertySignature"
    | .methodDeclaration => "MethodDeclaration"
    | .methodSignature => "MethodSignature"
    | .constructor => "Constructor"
    | .getAccessor => "GetAccessor"
    | .setAccessor => "SetAccessor"
    | .callSignature => "CallSignature"
    | .constructSignature => "ConstructSignature"
    | .indexSignature => "IndexSignature"
    | .functionExpression => "FunctionExpression"
    | .arrowFunction => "ArrowFunction"
    | .block => "Block"
    | .ifStatement => "IfStatement"
    | .whileStatement => "WhileStatement"
    | .forStatement => "ForStatement"
    | .expressionStatement => "ExpressionStatement"
    | .returnStatement => "ReturnStatement"
    | .expression => "Expression"
    | .typeReference => "TypeReference"
    | .arrayType => "ArrayType"
    | .functionType => "FunctionType"
    | .constructorType => "ConstructorType"
    | .typeLiteral => "TypeLiteral"
    | .anyKeyword => "AnyKeyword"
    | .numberKeyword => "NumberKeyword"
    | .stringKeyword => "StringKeyword"
    | .booleanKeyword => "BooleanKeyword"
    | .voidKeyword => "VoidKeyword"
    | .nullKeyword => "NullKeyword"
    | .undefinedKeyword => "UndefinedKeyword"

/-- The place of a kind in the fixed order. -/
def number (kind : NodeKind) : Nat := (Enumerated.all : List NodeKind).idxOf kind

/-- The spelling of a built-in type. -/
def keywordText : NodeKind → Option String
  | .anyKeyword => some "any"
  | .numberKeyword => some "number"
  | .stringKeyword => some "string"
  | .booleanKeyword => some "boolean"
  | .voidKeyword => some "void"
  | .nullKeyword => some "null"
  | .undefinedKeyword => some "undefined"
  | _ => none

/-- The kind is the name of a built-in type. -/
def isKeywordType (kind : NodeKind) : Bool := kind.keywordText.isSome

/-- The sort of record that nodes of a kind keep, for the kinds that have contents. -/
def sort? : NodeKind → Option RecordSort
  | .identifier => some .identifier
  | .stringLiteral | .externalModuleReference => some .literal
  | .qualifiedName => some .qualifiedName
  | .sourceFile => some .sourceFile
  | .moduleDeclaration => some .moduleDecl
  | .classDeclaration => some .classDecl
  | .interfaceDeclaration => some .interfaceDecl
  | .functionDeclaration | .functionExpression | .arrowFunction | .methodDeclaration
  | .methodSignature | .constructor | .getAccessor | .setAccessor | .callSignature
  | .constructSignature | .indexSignature | .functionType | .constructorType => some .function
  | .propertyDeclaration | .propertySignature | .variableDeclaration => some .property
  | .variableStatement => some .variableStatement
  | .parameter => some .parameter
  | .importEqualsDeclaration => some .importEquals
  | .block | .ifStatement | .whileStatement | .forStatement | .expressionStatement
  | .returnStatement | .expression => some .statement
  | .typeReference => some .typeReference
  | .arrayType => some .arrayType
  | .typeLiteral => some .typeLiteral
  | .unknown | .anyKeyword | .numberKeyword | .stringKeyword | .booleanKeyword | .voidKeyword
  | .nullKeyword | .undefinedKeyword => none

/-- Declarations, expressions, members and type nodes with parameters. -/
def isFunctionLike (kind : NodeKind) : Bool := kind.sort? == some .function

/-- Statements and expressions that introduce no name of their own. -/
def isTransparent (kind : NodeKind) : Bool := kind.sort? == some .statement

end NodeKind

/-- What can be written in front of a declaration, or beside the name of a parameter. -/
inductive Modifier where
  | exported
  | ambient
  | static
  | privateAccess
  | publicAccess
  | optional
  | rest
  deriving DecidableEq, Repr

instance : Flag Modifier where
  all := [.exported, .ambient, .static, .privateAccess, .publicAccess, .optional, .rest]
  name
    | .exported => "EXPORT"
    | .ambient => "AMBIENT"
    | .static => "STATIC"
    | .privateAccess => "PRIVATE"
    | .publicAccess => "PUBLIC"
    | .optional => "OPTIONAL"
    | .rest => "REST"
  bit
    | .exported => 0
    | .ambient => 1
    | .static => 2
    | .privateAccess => 3
    | .publicAccess => 4
    | .optional => 5
    | .rest => 6

end NameBinding
