import Nasm64.Call.Signature

/-! The callables of a program by name, with overloads. -/
namespace Nasm64

structure SymbolTable where
  signatures : List Signature := []
deriving Repr, Inhabited

namespace SymbolTable

inductive DeclareError where
  | overloadedExternal (name : String)
  | twice (signature : Signature)
deriving Repr

def DeclareError.message : DeclareError → String
  | overloadedExternal name => "extern '" ++ name ++ "' cannot be overloaded"
  | twice signature => "method " ++ signature.text ++ " declared twice"

inductive LookupError where
  | unresolved (name : String)
  | noMatch (name : String) (candidates : List Signature) (provided : List Ty)
  | ambiguous (name : String) (candidates : List Signature) (provided : List Ty)
deriving Repr

def typeList (types : List Ty) : String := ", ".intercalate (types.map Ty.text)

def signatureList (signatures : List Signature) : String :=
  "; ".intercalate (signatures.map Signature.text)

def LookupError.message : LookupError → String
  | unresolved name => "unresolved method '" ++ name ++ "'"
  | noMatch name candidates provided =>
    "no overload of '" ++ name ++ "' accepts (" ++ typeList provided ++ "); candidates: " ++
      signatureList candidates
  | ambiguous name candidates provided =>
    "call to '" ++ name ++ "' with (" ++ typeList provided ++ ") is ambiguous between " ++
      signatureList candidates

def candidates (table : SymbolTable) (name : String) : List Signature :=
  table.signatures.filter fun signature => signature.name == name

/-- Adds a signature. A method defined elsewhere has no overloads, and no two methods of a name
share a label. -/
def declare (table : SymbolTable) (signature : Signature) : Except DeclareError SymbolTable :=
  let existing := table.candidates signature.name
  let external := existing.head?.any Signature.isExternal
  if !existing.isEmpty && (signature.isExternal || external) then
    .error (.overloadedExternal signature.name)
  else if existing.any fun other => other.label == signature.label then .error (.twice signature)
  else .ok ⟨table.signatures ++ [signature]⟩

def externals (table : SymbolTable) : List Signature :=
  table.signatures.filter Signature.isExternal

/-- The signature that a call means by name and argument types. -/
def lookup (table : SymbolTable) (name : String) (arguments : List Ty) :
    Except LookupError Signature :=
  let candidates := table.candidates name
  if candidates.isEmpty then .error (.unresolved name)
  else match candidates.filter fun signature => signature.accepts arguments with
    | [] => .error (.noMatch name candidates arguments)
    | [signature] => .ok signature
    | found => .error (.ambiguous name found arguments)

end SymbolTable
end Nasm64
