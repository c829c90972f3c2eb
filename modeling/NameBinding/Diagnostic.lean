import NameBinding.Enumerated
import NameBinding.Span
import NameBinding.Text.Template

/-! Messages about a program, and the catalogue of their codes. -/

namespace NameBinding

inductive Severity where
  | warning
  | error
  | suggestion
  | message
  deriving DecidableEq, Repr

namespace Severity

instance : Enumerated Severity where
  all := [.warning, .error, .suggestion, .message]
  name
    | .warning => "Warning"
    | .error => "Error"
    | .suggestion => "Suggestion"
    | .message => "Message"

/-- The number of a severity. -/
def code : Severity → Nat
  | .warning => 0
  | .error => 1
  | .suggestion => 2
  | .message => 3

end Severity

/-- An entry of the catalogue. -/
structure MessageEntry where
  code : Nat
  severity : Severity
  template : String
  deriving DecidableEq, Repr

namespace Message

def duplicateIdentifier : Nat := 2300

def cannotFindName : Nat := 2304

def recursiveBase : Nat := 2310

def interfaceBaseNotObject : Nat := 2312

def duplicateImplementation : Nat := 2393

def classBaseNotObject : Nat := 2422

def cannotFindNamespace : Nat := 2503

def nestedTooDeeply : Nat := 9100

/-- Every message, by ascending code. -/
def catalogue : List MessageEntry :=
  [⟨duplicateIdentifier, .error, "Duplicate identifier '\x7b0\x7d'."⟩,
   ⟨cannotFindName, .error, "Cannot find name '\x7b0\x7d'."⟩,
   ⟨recursiveBase, .error, "Type '\x7b0\x7d' recursively references itself as a base type."⟩,
   ⟨interfaceBaseNotObject, .error, "An interface can only extend an object type or " ++
     "intersection of object types with statically known members."⟩,
   ⟨duplicateImplementation, .error, "Duplicate function implementation."⟩,
   ⟨classBaseNotObject, .error, "A class can only implement an object type or " ++
     "intersection of object types with statically known members."⟩,
   ⟨cannotFindNamespace, .error, "Cannot find namespace '\x7b0\x7d'."⟩,
   ⟨nestedTooDeeply, .warning,
     "Declarations nested more than \x7b0\x7d levels deep were not collected."⟩]

def find? (code : Nat) : Option MessageEntry := catalogue.find? fun m => m.code == code

end Message

/-- A place that helps to understand a diagnostic. -/
structure RelatedNote where
  file : String
  start : Nat
  length : Nat
  text : String
  deriving DecidableEq, Repr

namespace RelatedNote

/-- Notes are plain messages. -/
def severity (_ : RelatedNote) : Severity := .message

/-- Notes have no code of their own. -/
def code (_ : RelatedNote) : Nat := 0

end RelatedNote

structure Diagnostic where
  file : String
  start : Nat
  length : Nat
  text : String
  severity : Severity
  code : Nat
  related : List RelatedNote
  deriving DecidableEq, Repr

namespace Diagnostic

def error (file : String) (start length : Nat) (text : String) (code : Nat) : Diagnostic :=
  ⟨file, start, length, text, .error, code, []⟩

/-- The diagnostic with a code of the catalogue. One without a usable span is put at the start of
the document, and a code outside the catalogue is an error with a text that says so. -/
def ofCode (file : String) (span : Span) (code : Nat) (args : List String) : Diagnostic where
  file := file
  start := if span.isValid then span.start else 0
  length := span.length
  text := Template.fill (((Message.find? code).map (·.template)).getD "Unknown diagnostic.") args
  severity := ((Message.find? code).map (·.severity)).getD .error
  code := code
  related := []

/-- Adds a note after the ones that are there. -/
def withRelated (d : Diagnostic) (note : RelatedNote) : Diagnostic :=
  { d with related := d.related ++ [note] }

@[simp] theorem ofCode_file (file : String) (span : Span) (code : Nat) (args : List String) :
    (ofCode file span code args).file = file := rfl

@[simp] theorem ofCode_code (file : String) (span : Span) (code : Nat) (args : List String) :
    (ofCode file span code args).code = code := rfl

end Diagnostic

end NameBinding
