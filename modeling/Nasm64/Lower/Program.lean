import Nasm64.Data.Layout
import Nasm64.Lower.Method

/-! Whole programs. Methods are lowered independently of each other. -/
namespace Nasm64

open Lower

structure Method.Output where
  code : Code
  data : DataSection
  warnings : List Warning
deriving Repr, Inhabited

def Method.generate (table : SymbolTable) (settings : Settings) (method : Method) (index : Nat) :
    Except Halt Method.Output := do
  let env : Env := ⟨index, method.signature, table, some settings⟩
  let (code, frame) ← (method.lower.run env).run {}
  return ⟨code, frame.data, frame.warnings⟩

/-- A generated unit: its code, one part for each method, and its data. -/
structure Assembly where
  externals : List String
  methods : List Code
  structs : List Ty
  data : DataSection
  warnings : List Warning
deriving Repr, Inhabited

def Assembly.text (assembly : Assembly) : String :=
  let data :=
    if assembly.structs.isEmpty && assembly.data.entries.isEmpty then ""
    else
      "\nsection .data\n" ++ String.join (assembly.structs.map Data.layoutText) ++
        assembly.data.text
  "bits 64\ndefault rel\n\nglobal main\n" ++
    String.join (assembly.externals.map fun name => "extern " ++ name ++ "\n") ++
    "\nsection .text\n" ++ String.join (assembly.methods.map fun code => "\n" ++ code.text) ++ data

namespace Program

def declareAll (table : SymbolTable) : List Method → Except Halt SymbolTable
  | [] => .ok table
  | method :: rest =>
    match table.declare method.signature with
    | .ok table => declareAll table rest
    | .error error => .error (.failure ⟨method.position, .causedBy (.declare error)⟩)

def symbolTable (program : Program) : Except Halt SymbolTable :=
  declareAll {} (program.externals ++ program.methods)

variable {α β : Type}

def sequentially (jobs : List α) (run : α → Except Halt β) : Except Halt (List β) :=
  jobs.mapM run

def fault? (result : Except Halt β) : Option Fault :=
  match result with
  | .error (.fault fault) => some fault
  | _ => none

/-- Every job, whatever becomes of the others. A fault of any of them prevents an answer, and among
failures the first in the order of the jobs is reported. -/
def concurrently (jobs : List α) (run : α → Except Halt β) : Except Halt (List β) :=
  let results := jobs.map run
  match results.findSome? fault? with
  | some fault => .error (.fault fault)
  | none => results.mapM id

/-- Lowers a method that has its index beside it. -/
def lowerIndexed (table : SymbolTable) (settings : Settings) (job : Method × Nat) :
    Except Halt Method.Output :=
  Method.generate table settings job.1 job.2

def lowerMethods (program : Program) (table : SymbolTable) (settings : Settings) :
    Except Halt (List Method.Output) :=
  let run := lowerIndexed table settings
  if settings.hasFeature .parallel && 1 < settings.jobs then
    concurrently program.methods.zipIdx run
  else sequentially program.methods.zipIdx run

def promote (index : Nat) (outputs : List α) : List α :=
  (outputs[index]?).toList ++ outputs.eraseIdx index

/-- The assembly of a program whose methods are lowered in some way. The entry method comes first, the
others in the order of their declaration, and so do the warnings of all. -/
def generateBy (program : Program) (lowerAll : SymbolTable → Except Halt (List Method.Output)) :
    Except Halt Assembly := do
  let table ← program.symbolTable
  match program.methods.findIdx? fun method => method.name == "main" with
  | none => .error (.failure ⟨{}, .noMain⟩)
  | some entry =>
    let outputs ← lowerAll table
    let ordered := promote entry outputs
    return {
      externals := table.externals.map Signature.name
      methods := ordered.map Method.Output.code
      structs := program.structs
      data := ordered.foldl (fun data output => data.merge output.data) {}
      warnings := outputs.flatMap Method.Output.warnings }

def generate (program : Program) (settings : Settings) : Except Halt Assembly :=
  program.generateBy (program.lowerMethods · settings)

end Program
end Nasm64
