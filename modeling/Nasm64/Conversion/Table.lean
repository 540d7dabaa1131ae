/-! Tables of conversions between keys, each ordered pair of different keys at most once. -/
namespace Nasm64.Conversion

structure Entry (κ ρ : Type) where
  source : κ
  target : κ
  rule : ρ
deriving DecidableEq, Repr

def Entry.mapKey {κ μ ρ : Type} (f : κ → μ) (entry : Entry κ ρ) : Entry μ ρ :=
  ⟨f entry.source, f entry.target, entry.rule⟩

inductive Reason where
  | identityContributed
  | identity
  | missing
deriving DecidableEq, Repr

structure Unsupported where
  source : String
  target : String
  reason : Reason
deriving DecidableEq, Repr

def Reason.message : Reason → String
  | identityContributed => "identity cast contributed"
  | identity => "identity cast"
  | missing => "no conversion between these types"

def Unsupported.message (error : Unsupported) : String :=
  "unsupported cast from " ++ error.source ++ " to " ++ error.target ++ ": " ++ error.reason.message

inductive BuildError where
  | unsupported (error : Unsupported)
  | twice (source target : String)
deriving DecidableEq, Repr

def BuildError.message : BuildError → String
  | unsupported error => error.message
  | twice source target => "cast " ++ source ++ " -> " ++ target ++ " contributed twice"

section

variable {κ ρ : Type} [DecidableEq κ]

def find? (entries : List (Entry κ ρ)) (source target : κ) : Option (Entry κ ρ) :=
  entries.find? fun entry => entry.source == source && entry.target == target

def lookup (name : κ → String) (entries : List (Entry κ ρ)) (source target : κ) :
    Except Unsupported (Entry κ ρ) :=
  if source = target then .error ⟨name source, name target, .identity⟩
  else match find? entries source target with
    | some entry => .ok entry
    | none => .error ⟨name source, name target, .missing⟩

/-- Adds one entry to a table, kept in the order of contribution. -/
def contribute (name : κ → String) (table : List (Entry κ ρ)) (entry : Entry κ ρ) :
    Except BuildError (List (Entry κ ρ)) :=
  if entry.source = entry.target then
    .error (.unsupported ⟨name entry.source, name entry.target, .identityContributed⟩)
  else match find? table entry.source entry.target with
    | some _ => .error (.twice (name entry.source) (name entry.target))
    | none => .ok (table ++ [entry])

/-- Adds every entry in turn and stops at the first one that may not stand in a table. -/
def build (name : κ → String) (entries : List (Entry κ ρ)) :
    Except BuildError (List (Entry κ ρ)) :=
  entries.foldlM (contribute name) []

end

end Nasm64.Conversion
