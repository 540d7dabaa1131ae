import Nasm64.Proofs.Emission.Expr

/-! The calls of an expression: lowering it emits each of them once and in the order of evaluation. -/
namespace Nasm64

open Lower

/-- Lowering neither loses nor repeats nor reorders calls. Whatever the consumer of an expression asks
for, the calls in its code are those in the expression, from left to right and the arguments first,
each to the label of the method that it means. -/
theorem calls_in_order {env : Env} {frame next : Frame} {expr : Expr} {demand : Demand}
    {fragment : Lowered} (ordinary : frame.Ordinary) (usable : demand.IsOrdinary)
    (run : Yields (expr.lowering.answer demand) env frame fragment next) :
    fragment.code.callees.map some = expr.callLabels env.table :=
  (Expr.answer_bracketed ordinary usable run).2

/-- Calls as arguments, on both sides of an operator, of a base and of a subscript. -/
def scatteredCalls : Expr :=
  let number (value : Int64) : Expr := .number {} value (.prim .i64)
  let call (name : String) (arguments : List Expr) (ty : Ty) : Expr := .call {} name arguments ty
  .binary {} .add (call "f" [call "f" [number 1] (.prim .i64), number 2] (.prim .i64))
    (.index {} (call "p" [] (.pointer (.prim .i64))) (call "f" [number 3] (.prim .i64))) (.prim .i64)

/-- An environment with two methods of one name and one that gives a pointer. -/
def Lower.Env.overloaded : Env where
  method := 0
  signature := ⟨"m", [], .void, false, false⟩
  table := ⟨[⟨"f", [.prim .i64], .prim .i64, false, false⟩,
    ⟨"f", [.prim .i64, .prim .i64], .prim .i64, false, false⟩,
    ⟨"p", [], .pointer (.prim .i64), true, false⟩]⟩
  settings := none

theorem calls_in_order_nested :
    ∃ fragment next, Yields (scatteredCalls.lowering.answer (.register ⟨.rsi, 8⟩)) .overloaded
        { held := [⟨.rdi, 8⟩, ⟨.r10, 8⟩] } fragment next ∧
      fragment.code.callees.map some =
        [some ".f_i64~i64", some ".f_i64_i64~i64", some "p", some ".f_i64~i64"] := by
  obtain ⟨fragment, next, lowered, _⟩ := Yields.of_check
    (scatteredCalls.lowering.answer (.register ⟨.rsi, 8⟩)) .overloaded
    { held := [⟨.rdi, 8⟩, ⟨.r10, 8⟩] } (fun _ => true) (by decide +kernel)
  have usable : (Demand.register ⟨.rsi, 8⟩).IsOrdinary := rfl
  have called := calls_in_order (by simp [Frame.Ordinary]; decide) usable lowered
  exact ⟨fragment, next, lowered, called.trans (by decide +kernel)⟩

end Nasm64
