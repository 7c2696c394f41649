import Monofloat.Ir.Builder

/-!
# The operations of a builder

Whatever is built is built by these operations, with any operands, in any order, and with either way to number
temporaries. Most of them concern the function of the insertion point only.
-/

namespace Monofloat.Ir

/-- An operation of a builder that gives a result of a type. -/
inductive Operation : Type → Type where
  | declareFunction (name : String) (params : List String) : Operation Unit
  | function? (name : String) : Operation (Option Function)
  | removeFunction (name : String) : Operation (Option Function)
  | declareGlobal (name : String) : Operation Global
  | global? (name : String) : Operation (Option Value)
  | appendBlockIn (function label : String) : Operation BlockId
  | appendBlock (label : String) : Operation BlockId
  | createBlock (label : String) : Operation BlockId
  | attachBlock (block : BlockId) : Operation Unit
  | setInsertPoint (function : String) (block : BlockId) : Operation Unit
  | positionAtEnd (block : BlockId) : Operation Unit
  | clearInsertPoint : Operation Unit
  | insertBlock : Operation BlockId
  | valueType (value : Value) : Operation Ty
  | alloca (name : String) : Operation String
  | load (ptr : Value) : Operation Value
  | store (value ptr : Value) : Operation Unit
  | binary (op : BinaryOp) (left right : Value) : Operation Value
  | neg (value : Value) : Operation Value
  | compare (op : CompareOp) (left right : Value) : Operation Value
  | logical (op : LogicalOp) (left right : Value) : Operation Value
  | not (value : Value) : Operation Value
  | boolToFloat (value : Value) : Operation Value
  | call (callee : String) (args : List Value) : Operation Value
  | phi (ty : Ty) (incoming : List (Value × BlockId)) : Operation Value
  | br (target : BlockId) : Operation Unit
  | condBr (cond : Value) (thenBlock elseBlock : BlockId) : Operation Unit
  | ret (value : Value) : Operation Unit

namespace Operation

/-- The step that the operation is, where temporaries are numbered in this way. -/
def perform {α : Type} (numbering : Numbering) : Operation α → Build α
  | declareFunction name params => .declareFunction name params
  | function? name => .function? name
  | removeFunction name => .removeFunction name
  | declareGlobal name => .declareGlobal name
  | global? name => .global? name
  | appendBlockIn function label => .appendBlockIn function label
  | appendBlock label => .appendBlock label
  | createBlock label => .createBlock label
  | attachBlock block => .attachBlock block
  | setInsertPoint function block => .setInsertPoint function block
  | positionAtEnd block => .positionAtEnd block
  | clearInsertPoint => .clearInsertPoint
  | insertBlock => .insertBlock
  | valueType value => .valueType value
  | alloca name => .alloca name
  | load ptr => .load ptr numbering
  | store value ptr => .store value ptr
  | binary op left right => .binary op left right numbering
  | neg value => .neg value numbering
  | compare op left right => .compare op left right numbering
  | logical op left right => .logical op left right numbering
  | not value => .not value numbering
  | boolToFloat value => .boolToFloat value numbering
  | call callee args => .call callee args numbering
  | phi ty incoming => .phi ty incoming numbering
  | br target => .br target
  | condBr cond thenBlock elseBlock => .condBr cond thenBlock elseBlock
  | ret value => .ret value

/-- The operation concerns the current function, its blocks and its code. -/
def isInner {α : Type} : Operation α → Bool
  | declareFunction .. | function? _ | removeFunction _ | declareGlobal _ | appendBlockIn .. | setInsertPoint ..
  | clearInsertPoint => false
  | _ => true

/-- The operation concerns the blocks and the code of the current function, and reserves no slot. -/
def isCode {α : Type} : Operation α → Bool
  | alloca _ => false
  | op => op.isInner

theorem isInner_of_isCode {α : Type} {op : Operation α} (h : op.isCode = true) : op.isInner = true := by
  cases op <;> first | rfl | exact h

end Operation

end Monofloat.Ir
