import Nasm64.Proofs.Document.Decoded
import Nasm64.Proofs.Passing.Agreement
import Nasm64.Proofs.Soundness.Program

/-! Programs from documents. They have types throughout, and generation comes to an answer for them. -/
namespace Nasm64

open Attempt

def Program.nodes (program : Program) : List Expr :=
  program.methods.flatMap fun method => Stmt.nodesOf (method.body.getD [])

namespace Document

variable {structs : List Ty} {known : Ty.Structs} {program : Program}

theorem readDefined_valid (closed : Ty.Closed structs)
    (given : ∀ entry ∈ known, entry.2.Declared structs)
    (read : readDefined known raw = .ok method) :
    ∀ node ∈ Stmt.nodesOf (method.body.getD []), node.Valid structs := by
  obtain ⟨external, _, read⟩ := bind_eq_ok.mp read
  obtain ⟨body, inner, ⟨⟩⟩ := bind_eq_ok.mp read
  exact readStmts_valid closed given raw.body.items inner

theorem decode_valid (decoded : decode raw = .ok program) :
    ∀ node ∈ program.nodes, node.Valid program.structs := by
  obtain ⟨known, structs, decoded⟩ := bind_eq_ok.mp decoded
  obtain ⟨externals, _, decoded⟩ := bind_eq_ok.mp decoded
  obtain ⟨methods, defined, ⟨⟩⟩ := bind_eq_ok.mp decoded
  obtain ⟨closed, given⟩ := readStructs_closed structs
  intro node mem
  obtain ⟨method, listed, inside⟩ := List.mem_flatMap.mp mem
  obtain ⟨raw, _, read⟩ := exists_partner (mapM_eq_ok defined).flip listed
  exact readDefined_valid closed given read node inside

theorem read_valid (decoded : read text = .ok program) :
    ∀ node ∈ program.nodes, node.Valid program.structs := by
  unfold read ofJson at decoded
  split at decoded
  · cases decoded
  · split at decoded
    · cases decoded
    · split at decoded
      · cases decoded
      · next inner =>
        cases decoded
        exact decode_valid inner

end Document

/-- What lowering a node takes by position or by key is there: an argument for every parameter, a type
and a slot for every argument, and keys for the types of a conversion. -/
def Expr.Supplied (table : SymbolTable) : Expr → Prop
  | call _ name arguments _ =>
    let types := arguments.map type
    ∀ signature, table.lookup name types = .ok signature →
      signature.parameters.length ≤ arguments.length ∧
      (signature.argumentTypes types).length = arguments.length ∧
      ∀ slots, Call.resolve (signature.argumentTypes types) signature.isExternal = .ok slots →
        slots.map Call.Slot.index = List.range arguments.length
  | cast _ operand target =>
    ∀ rule, Conversion.between operand.type target = .ok rule →
      Conversion.typeKeyName operand.type.scalar? ≠ "" ∧ Conversion.typeKeyName target.scalar? ≠ ""
  | _ => True

theorem Scalar.name_ne_empty (scalar : Scalar) : scalar.name ≠ "" := by
  cases scalar with
  | prim primitive => cases primitive <;> decide
  | ptr => decide

theorem Expr.supplied (table : SymbolTable) (expr : Expr) : expr.Supplied table := by
  cases expr with
  | call pos name args ty =>
    intro sig found
    have each : (sig.argumentTypes (args.map type)).length = args.length := by
      simp [Signature.argumentTypes]
    have enough := Signature.length_le_of_accepts (SymbolTable.accepts_of_lookup found)
    refine ⟨by simpa using enough, each, fun slots resolved => ?_⟩
    rw [Call.resolve_indices resolved, each]
  | cast pos opnd dst =>
    intro rule found
    obtain ⟨src, goal, first, second, _⟩ := Conversion.between_listed found
    rw [first, second]
    exact ⟨src.name_ne_empty, goal.name_ne_empty⟩
  | _ => trivial

/-- In a program from a document, every node has a type, and those of operands are as the node needs
them: what is dereferenced is a pointer, what is indexed an array or a pointer, and a member is a field
of a struct that the document declares. With the usual alignment and home area, generation gives code or
a reason why there is none, unless a frame exceeds `2 ^ 62` bytes. It takes nothing by position or key
that is not there. -/
theorem decoded_program_answered {text : String} {program : Program}
    (decoded : Document.read text = .ok program) :
    (∀ node ∈ program.nodes, node.type? = some node.type ∧ node.Formed program.structs) ∧
    ∀ settings : Settings, settings.stackAlignment = 16 → settings.shadowSpace = 32 →
      ((∃ assembly, program.generate settings = .ok assembly) ∨
        (∃ failure, program.generate settings = .error (.failure failure)) ∨
        program.generate settings = .error (.fault .endlessFrame) ∧
          ∃ method ∈ program.methods, 2 ^ 62 < method.reach + 32) ∧
      ∀ table, program.symbolTable = .ok table →
        (∀ node ∈ program.nodes, node.Supplied table) ∧
        ∀ outputs entry, program.lowerMethods table settings = .ok outputs →
          (program.methods.findIdx? fun method => method.name == "main") = some entry →
          entry < outputs.length := by
  refine ⟨fun node member => ?_, fun settings aligned shadowed => ⟨?_, fun table _ => ⟨?_, ?_⟩⟩⟩
  · have valid := Document.read_valid decoded node member
    exact ⟨valid.typed, valid.formed⟩
  · have ran := Program.generate_outcome (show False → program.Typed from False.elim) settings
    cases outcome : program.generate settings with
    | ok assembly => exact .inl ⟨assembly, rfl⟩
    | error halt =>
      rw [outcome] at ran
      cases halt with
      | failure failure => exact .inr (.inl ⟨failure, rfl⟩)
      | fault reason =>
        obtain ⟨method, member, hinders⟩ := ran
        cases reason with
        | prependToInline => exact hinders.elim
        | zeroAlignment =>
          rw [Method.Hinders, aligned] at hinders
          cases hinders
        | endlessFrame =>
          rw [Method.Hinders, shadowed] at hinders
          exact .inr (.inr ⟨rfl, method, member, hinders⟩)
  · exact fun node _ => node.supplied table
  · intro outputs entry lowered located
    have same := (Program.lowerMethods_eq_ok lowered).length_eq
    have inside := (List.findIdx?_eq_some_iff_getElem.mp located).1
    rw [List.length_zipIdx] at same
    exact same ▸ inside

namespace Document

def quoted (text : String) : List Char := '"' :: text.toList ++ ['"']

/-- The letters of an object with these fields. -/
def object (fields : List (String × List Char)) : List Char :=
  '\x7b' :: [','].intercalate (fields.map fun field => quoted field.1 ++ ':' :: field.2) ++ ['\x7d']

def objects (items : List (List (String × List Char))) : List Char :=
  '[' :: [','].intercalate (items.map object) ++ [']']

def identifier (name type : String) : List Char :=
  object [("kind", quoted "ident"), ("name", quoted name), ("type", quoted type)]

/-- A method that adds a field, which it takes through a pointer, and an element at an index that is
read from memory. -/
def sumLetters : List Char :=
  let subscript := object [("kind", quoted "deref"), ("expr", identifier "a" "*i64")]
  let element := object [("kind", quoted "index"), ("expr", identifier "a" "*i64"), ("index", subscript)]
  let field := object [("kind", quoted "member"), ("field", quoted "x"), ("expr", identifier "p" "*point")]
  let sum := object [("kind", quoted "binary"), ("op", quoted "+"), ("type", quoted "i64"), ("lhs", field),
    ("rhs", element)]
  object [
    ("structs", objects [[("name", quoted "point"),
      ("fields", objects [[("name", quoted "x"), ("type", quoted "i64")]])]]),
    ("methods", objects [[("name", quoted "main"), ("ret", quoted "i64"),
      ("params", objects [[("name", quoted "p"), ("type", quoted "*point")],
        [("name", quoted "a"), ("type", quoted "*i64")]]),
      ("body", objects [[("kind", quoted "return"), ("expr", sum)]])]])]

end Document

theorem decoded_program_answered_sum :
    ∃ program, Document.read (String.ofList Document.sumLetters) = .ok program ∧
      program.nodes.length = 7 ∧
      (∀ node ∈ program.nodes, node.type? = some node.type ∧ node.Formed program.structs) ∧
      ((∃ assembly, program.generate {} = .ok assembly) ∨
        (∃ failure, program.generate {} = .error (.failure failure)) ∨
        program.generate {} = .error (.fault .endlessFrame) ∧
          ∃ method ∈ program.methods, 2 ^ 62 < method.reach + 32) := by
  have counted : (Document.read (String.ofList Document.sumLetters)).toOption.any
      (fun program => program.nodes.length == 7) = true := by
    -- Letters are much faster to evaluate than a text.
    rw [Document.read, Json.read, String.toList_ofList]
    decide +kernel
  cases decoded : Document.read (String.ofList Document.sumLetters) with
  | error error =>
    rw [decoded] at counted
    cases counted
  | ok program =>
    rw [decoded] at counted
    obtain ⟨typed, answered⟩ := decoded_program_answered decoded
    exact ⟨program, rfl, eq_of_beq counted, typed, (answered {} rfl rfl).1⟩

end Nasm64
