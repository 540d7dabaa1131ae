import Nasm64.Lower.Assign

/-! Statements and blocks. -/
namespace Nasm64

open Lower

namespace Lower

/-- The code of a return jumps to the end of the method, unless it comes last. -/
def lowerReturn (position : Position) (value : Option Expr) (last : Bool) : Lower Code := do
  let env ← read
  let result := env.signature.result
  let exit : Code := if last then [] else [.jump env.resultLabel]
  match value with
  | some value =>
    if result.isVoid then fail position (.returnsNothing env.signature.name)
    else
      let register := (Call.resultRegister? result).getD ⟨.rax, 0⟩
      return (← value.lowering.into register) ++ exit
  | none =>
    if result.isVoid then return exit
    else fail position (.mustReturn env.signature.name result.text)

def lowerExpression (value : Expr) : Lower Code := do
  if value.type.isVoid || value.type.isStruct then return (← value.lowering.value).code
  else value.lowering.into (accumulatorFor value.type)

def lowerCondition (condition : Expr) : Lower Code := do
  if !condition.type.isBool then
    fail condition.position (.conditionType condition.type.text)
  else
    let register := Register.accumulator.resize 1
    let code ← condition.lowering.into register
    return code ++ [.binary .test (.reg register) (.reg register)]

def commentFor (stmt : Stmt) : Lower Code := do
  if (← read).hasFeature .asmComments then return [.comment stmt.describe] else return []

end Lower

namespace Stmt

mutual

/-- The code of a statement. `last` holds of the last statement of a method body. -/
def lower (last : Bool) : Stmt → Lower Code
  | declaration position name ty init => lowerDeclaration position name ty init
  | assignment position target value => lowerAssignment position target value
  | returning position value => lowerReturn position value last
  | expression _ value => lowerExpression value
  | conditional _ condition whenTrue none => do
    let test ← lowerCondition condition
    let done ← newLabel
    let body ← inScope (lowerBlock false whenTrue)
    return test ++ [.jumpIfZero done] ++ body ++ [.label done]
  | conditional _ condition whenTrue (some otherwise) => do
    let test ← lowerCondition condition
    let done ← newLabel
    let other ← newLabel
    let body ← inScope (lowerBlock false whenTrue)
    let rest ← inScope (lowerBlock false otherwise)
    return test ++ [.jumpIfZero other] ++ body ++ [.jump done, .label other] ++ rest ++
      [.label done]
  | loop _ condition body => do
    let start ← newLabel
    let done ← newLabel
    let test ← lowerCondition condition
    let code ← inScope (lowerBlock false body)
    return [.label start] ++ test ++ [.jumpIfZero done] ++ code ++ [.jump start, .label done]
  | block _ body => inScope (lowerBlock last body)
termination_by structural stmt => stmt

/-- The code of a list of statements. Nothing after a return is lowered. -/
def lowerBlock (top : Bool) : List Stmt → Lower Code
  | [] => return []
  | stmt :: rest => do
    let comment ← commentFor stmt
    let code ← stmt.lower (top && rest.isEmpty)
    match stmt.isReturn, rest with
    | true, next :: _ =>
      warn .unreachableCode next.position "unreachable code after return"
      return comment ++ code
    | _, _ => return comment ++ code ++ (← lowerBlock top rest)
termination_by structural stmts => stmts

end

end Stmt
end Nasm64
