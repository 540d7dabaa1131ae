import Nasm64.Lower.Apply
import Nasm64.Lower.Lowering

/-! Strategies for binary operators, by the shape of their operands. -/
namespace Nasm64.Lower

/-- An operator being lowered. `work` holds the left operand and `target` receives the result. They
are of one family unless a comparison of floats gives a boolean. -/
structure Pending where
  position : Position
  left : Lowering
  right : Lowering
  operation : Operation
  target : Register
  work : Register

/-- The four operands of `(a op b) op (c op d)` with the inner operators. -/
structure FourLeaves where
  leftOp : Operator
  rightOp : Operator
  first : Lowering
  second : Lowering
  third : Lowering
  fourth : Lowering

/-- The staging register of a class, for when no other is free. -/
def scratchFor (isFloat : Bool) (size : Int) : Lower Register := do
  if isFloat then
    touch Register.floatScratch.family
    return Register.floatScratch.resize size
  else return Register.scratch.resize size

/-- A second register for an operator: a free one, and the staging register of the class
otherwise. -/
def spareFor (work : Register) : Lower Register := do
  match (← get).free work.isFloat work.size with
  | .ok register => pure register
  | .error _ => scratchFor work.isFloat work.size

def takeSpareFor (work : Register) : Lower Register := do
  match ← acquire? work.isFloat work.size with
  | .ok register => pure register
  | .error _ => scratchFor work.isFloat work.size

def Frame.touchFor (frame : Frame) (fragment : Lowered) (second : Register) : Frame :=
  if fragment.shape == .value then frame.touch second.family else frame

/-- The left operand goes into `work`. The right one, a leaf, may use a second register that is
chosen before anything is emitted. -/
def leftThenLeaf (pending : Pending) : Lower Lowered := do
  let work := pending.work
  pushRegister work
  let second ← spareFor work
  let leftCode ← pending.left.into work
  pushRegister second
  let fragment ← pending.right.value
  let operand ← pending.right.finish [.inline, .value] fragment
  modify fun frame => frame.touchFor fragment second
  popRegister
  popRegister
  let (code, result) ← apply pending.position pending.operation work pending.target
    (operand.getD (.reg second))
  return .value [leftCode, fragment.code, code].flatten result

/-- Both operands go through `work`, and the left one is parked on the machine stack meanwhile. -/
def spill (pending : Pending) : Lower Lowered := do
  let work := pending.work
  pushRegister work
  let leftCode ← pending.left.into work
  let parking ← savePush work
  let rightCode ← pending.right.into work
  let swapping ← savePush work
  let second ← takeSpareFor work
  let rightBack ← restorePop second
  let leftBack ← restorePop work
  popRegister
  let (code, result) ← apply pending.position pending.operation work pending.target (.reg second)
  return .value
    [leftCode, parking, zero work, rightCode, swapping, rightBack, leftBack, code].flatten result

/-- The left leaf stays in `work` while the right operand is computed in a second register. Without
one the left operand is parked on the machine stack. -/
def leafThenComposite (pending : Pending) : Lower Lowered := do
  let work := pending.work
  pushRegister work
  match ← acquire? work.isFloat work.size with
  | .error _ =>
    popRegister
    spill pending
  | .ok second =>
    let leftCode ← pending.left.into work
    pushRegister second
    let rightCode ← pending.right.into second
    popRegister
    popRegister
    let (code, result) ← apply pending.position pending.operation work pending.target (.reg second)
    return .value [leftCode, rightCode, code].flatten result

/-- Operations that work on two registers and touch no other. -/
def isSimple : Operation.Family → Bool
  | .arith | .logical | .floatArith | .mul => true
  | _ => false

/-- Whether an operand fits a register of the class and width of `work`. -/
def fits (work : Register) (node : Lowering) : Bool :=
  node.isLeaf && node.type.isFloat == work.isFloat && node.type.registerSize == work.size

/-- The inner operations, when the leaves fit and both are simple. -/
def simpleOperations? (work : Register) (leaves : FourLeaves) : Option (Operation × Operation) :=
  if [leaves.first, leaves.second, leaves.third, leaves.fourth].all (fits work) then
    match Operation.ofTypes leaves.first.type leaves.leftOp leaves.second.type,
        Operation.ofTypes leaves.third.type leaves.rightOp leaves.fourth.type with
    | .ok left, .ok right =>
      if isSimple left.family && isSimple right.family then some (left, right) else none
    | _, _ => none
  else none

def acquireMany? (isFloat : Bool) (size : Int) : Nat → Lower (Option (List Register))
  | 0 => return some []
  | count + 1 => do
    match ← acquire? isFloat size with
    | .error _ => return none
    | .ok register =>
      pushRegister register
      match ← acquireMany? isFloat size count with
      | some registers => return some (register :: registers)
      | none =>
        popRegister
        return none

/-- Evaluates four leaves into four registers, without the machine stack. There is no result when
the leaves do not fit or fewer registers are free, and nothing is emitted then. -/
def fastPath? (pending : Pending) (leaves : FourLeaves) : Lower (Option Lowered) := do
  let work := pending.work
  match simpleOperations? work leaves with
  | none => return none
  | some (leftOperation, rightOperation) =>
    pushRegister work
    match ← acquireMany? work.isFloat work.size 3 with
    | some [second, third, fourth] =>
      let firstCode ← leaves.first.into work
      let secondCode ← leaves.second.into second
      let thirdCode ← leaves.third.into third
      let fourthCode ← leaves.fourth.into fourth
      popRegister
      popRegister
      popRegister
      popRegister
      let (leftCode, _) ← apply pending.left.position leftOperation work work (.reg second)
      let (rightCode, _) ← apply pending.right.position rightOperation third third (.reg fourth)
      let (code, result) ← apply pending.position pending.operation work pending.target (.reg third)
      return some (.value
        [firstCode, secondCode, thirdCode, fourthCode, leftCode, rightCode, code].flatten result)
    | _ =>
      popRegister
      return none

def lowerPending (pending : Pending) (leaves : Option FourLeaves) : Lower Lowered := do
  if pending.right.isLeaf then leftThenLeaf pending
  else if pending.left.isLeaf then leafThenComposite pending
  else
    match if (← read).hasFeature .fastPath then leaves else none with
    | none => spill pending
    | some leaves =>
      match ← fastPath? pending leaves with
      | some fragment => return fragment
      | none => spill pending

/-- Both operands have the same width, and the left one decides on the operation. -/
def lowerBinary (position : Position) (op : Operator) (left right : Lowering)
    (leaves : Unit → Option FourLeaves) : Lower Lowered := do
  let leftSize := left.type.registerSize
  let rightSize := right.type.registerSize
  if leftSize != rightSize || leftSize == 0 then
    fail position (.sizesDiffer left.type.text leftSize right.type.text rightSize)
  else
    let operation ← liftCause position .operation (Operation.ofTypes left.type op right.type)
    let target ← destination position (operation.resultType left.type)
    holding target do
      let work ← workFor position target left.type
      lowerPending { position, left, right, operation, target, work } (leaves ())

end Nasm64.Lower
