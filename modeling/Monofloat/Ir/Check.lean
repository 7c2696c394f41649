import Monofloat.Ir.Defect
import Monofloat.Ir.Module

/-!
# Checking functions

A declaration is well formed. In a definition every attached block ends in its only terminator, branches go to
attached blocks, phis lead their block and list its predecessors, stack slots are reserved in the entry block,
and operands are defined and have the types that their places need. `Function.check` gives the first defect.
-/

namespace Monofloat.Ir

/-- `check` on each element in order, up to the first defect. -/
def checkAll {α : Type} (check : α → Except Defect Unit) : List α → Except Defect Unit
  | [] => .ok ()
  | a :: as =>
    match check a with
    | .error d => .error d
    | .ok () => checkAll check as

namespace Block

/-- The labels control may go to at the end of the block. -/
def successors (b : Block) : List String :=
  match b.instructions.getLast? with
  | some last => last.successors
  | none => []

/-- The block ends in its only terminator. -/
def checkTerminator (b : Block) : Except Defect Unit :=
  match b.instructions.getLast? with
  | none => .error (.emptyBlock b.label)
  | some last =>
    if !last.isTerminator then .error (.unterminated b.label)
    else if b.instructions.dropLast.any Instruction.isTerminator then .error (.earlyTerminator b.label)
    else .ok ()

/-- The block's branches go to blocks with one of the `labels`. -/
def checkTargets (b : Block) (labels : List String) : Except Defect Unit :=
  checkAll (fun target => if target ∈ labels then .ok () else .error (.badBranchTarget b.label target))
    b.successors

/-- What may stand behind the leading phis: no phi, and a stack slot in the entry block only. -/
def checkPlace (label : String) (isEntry : Bool) : Instruction → Except Defect Unit
  | .phi .. => .error (.misplacedPhi label)
  | .alloca slot => if isEntry then .ok () else .error (.allocaOutsideEntry slot)
  | _ => .ok ()

/-- Every instruction stands where it may. -/
def checkPlaces (b : Block) (isEntry : Bool) : Except Defect Unit :=
  checkAll (checkPlace b.label isEntry) (b.instructions.dropWhile Instruction.isPhi)

/-- The block's own shape and its branches. -/
def checkShape (b : Block) (labels : List String) (isEntry : Bool) : Except Defect Unit := do
  b.checkTerminator
  b.checkTargets labels
  b.checkPlaces isEntry

end Block

namespace Function

def labels (f : Function) : List String := f.attached.map Block.label

/-- The labels of the blocks that branch to `label`, once for each way they do. -/
def predecessors (f : Function) (label : String) : List String :=
  f.attached.flatMap fun b => (b.successors.filter (· = label)).map fun _ => b.label

/-- The shapes of the blocks; the first is the entry. -/
def checkShapes (f : Function) : Except Defect Unit :=
  match f.attached with
  | [] => .ok ()
  | entry :: others => do
    entry.checkShape f.labels true
    checkAll (fun b => b.checkShape f.labels false) others

/-- The labels of a phi are those of its block's predecessors, in any order. -/
def checkIncoming (block : String) (expected : List String) : Instruction → Except Defect Unit
  | .phi _ _ incoming =>
    let found := (incoming.map Prod.snd).mergeSort
    if found = expected then .ok () else .error (.phiPredecessors block expected found)
  | _ => .ok ()

/-- Every phi lists the predecessors of its block. -/
def checkPhis (f : Function) : Except Defect Unit :=
  checkAll
    (fun b => checkAll (checkIncoming b.label (f.predecessors b.label).mergeSort) b.instructions)
    f.attached

/-- The slots that are reserved in the entry block. -/
def entrySlots (f : Function) : List String := (f.attached.head?.map Block.slots).getD []

/-- The type of an operand, if it is defined. -/
def typeOf (f : Function) (m : Module) (v : Value) : Except Defect Ty :=
  match v with
  | .constFloat _ => .ok .f64
  | .constBool _ => .ok .bool
  | .param index name => if f.params[index]? = some name then .ok .f64 else .error (.undefinedValue v)
  | .temp id =>
    match f.tempType? id with
    | some ty => .ok ty
    | none => .error (.undefinedValue v)
  | .slot name => if name ∈ f.entrySlots then .ok .ptr else .error (.undefinedValue v)
  | .global name => if (m.global? name).isSome then .ok .ptr else .error (.undefinedValue v)
  | .function name => if (m.function? name).isSome then .ok .ptr else .error (.undefinedValue v)
  | .void => .error (.undefinedValue v)

/-- The operand is defined and has the type `ty`. -/
def checkType (f : Function) (m : Module) (block : String) (ty : Ty) (v : Value) : Except Defect Unit :=
  match f.typeOf m v with
  | .error d => .error d
  | .ok found => if found = ty then .ok () else .error (.typeMismatch block v ty found)

/-- The operands of an instruction are defined and have the types it needs; a call fits its callee. -/
def checkOperands (f : Function) (m : Module) (block : String) (i : Instruction) :
    Except Defect Unit :=
  match i with
  | .alloca _ => .ok ()
  | .br _ => .ok ()
  | .store value ptr => do
    f.checkType m block .f64 value
    f.checkType m block .ptr ptr
  | .load _ ptr => f.checkType m block .ptr ptr
  | .binary _ _ left right => checkAll (f.checkType m block .f64) [left, right]
  | .compare _ _ left right => checkAll (f.checkType m block .f64) [left, right]
  | .neg _ value => f.checkType m block .f64 value
  | .ret value => f.checkType m block .f64 value
  | .logical _ _ left right => checkAll (f.checkType m block .bool) [left, right]
  | .not _ value => f.checkType m block .bool value
  | .boolToFloat _ value => f.checkType m block .bool value
  | .condBr cond _ _ => f.checkType m block .bool cond
  | .call _ callee args =>
    match m.function? callee with
    | none => .error (.unknownCallee callee)
    | some target =>
      if target.arity ≠ args.length then .error (.callArity callee target.arity args.length)
      else checkAll (f.checkType m block .f64) args
  | .phi _ ty incoming => checkAll (f.checkType m block ty) (incoming.map Prod.fst)

/-- Every instruction's operands fit. -/
def checkTypes (f : Function) (m : Module) : Except Defect Unit :=
  checkAll (fun b => checkAll (f.checkOperands m b.label) b.instructions) f.attached

/-- The first defect of a function of the module `m`. -/
def check (f : Function) (m : Module) : Except Defect Unit :=
  if f.isDeclaration then .ok ()
  else do
    f.checkShapes
    f.checkPhis
    f.checkTypes m

end Function

namespace Module

/-- The first defect of the function with a name. -/
def checkFunction (m : Module) (name : String) : Except Defect Unit :=
  match m.function? name with
  | none => .error (.unknownFunction name)
  | some f => f.check m

/-- The functions with a defect, and the first one each has. -/
def defects (m : Module) : List (String × Defect) :=
  m.functions.filterMap fun f =>
    match f.check m with
    | .ok () => none
    | .error d => some (f.name, d)

end Module

end Monofloat.Ir
