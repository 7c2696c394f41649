import Monofloat.Ir.Instruction
import Monofloat.Ir.Names

/-!
# Blocks and functions

A function keeps every block it ever created, in order of creation; the layout lists those that are attached.
The first attached block is the entry. A function without attached blocks is a declaration.
-/

namespace Monofloat.Ir

/-- Straight-line code. -/
structure Block where
  label : String
  instructions : List Instruction := []
deriving DecidableEq, Repr, Inhabited

namespace Block

/-- The last instruction, if it is a terminator. -/
def terminator? (b : Block) : Option Instruction :=
  b.instructions.getLast?.filter Instruction.isTerminator

def isTerminated (b : Block) : Bool := b.terminator?.isSome

def append (b : Block) (i : Instruction) : Block := { b with instructions := b.instructions ++ [i] }

def prepend (b : Block) (i : Instruction) : Block := { b with instructions := i :: b.instructions }

/-- The phis that lead the block. -/
def leadingPhis (b : Block) : List Instruction := b.instructions.takeWhile Instruction.isPhi

/-- The slots that the block reserves. -/
def slots (b : Block) : List String := b.instructions.filterMap Instruction.slot?

/-- The label on a line of its own and the instructions below it. -/
def text (b : Block) : String :=
  b.label ++ ":\n" ++ String.join (b.instructions.map fun i => "  " ++ i.text ++ "\n")

end Block

/-- A block's number in its function, in order of creation. -/
structure BlockId where
  index : Nat
deriving DecidableEq, Repr, Inhabited

def BlockId.text (id : BlockId) : String := "BlockId(" ++ toString id.index ++ ")"

/-- How the temporaries of a function are numbered. -/
inductive Numbering where
  /-- By words of 32 bits, which start again at zero when they run out. -/
  | words
  /-- By as many numbers as there are temporaries. -/
  | unbounded
deriving DecidableEq, Repr

/-- The number of the temporary that comes behind `count` others. -/
def Numbering.number : Numbering → (count : Nat) → Nat
  | words, count => count % UInt32.size
  | unbounded, count => count

/-- A function of a module. One that is only declared has no blocks. -/
structure Function where
  name : String
  /-- The parameters' names, all different. -/
  params : List String
  /-- Every block ever created. -/
  blocks : List Block := []
  /-- The attached blocks in order. -/
  layout : List BlockId := []
  /-- The type of each temporary. -/
  temps : List Ty := []
  names : NameTable := {}
deriving DecidableEq, Repr, Inhabited

namespace Function

/-- A function without a body. A parameter whose name was used before is numbered. -/
def declare (name : String) (params : List String) : Function :=
  let (params, names) := NameTable.freshAll {} params
  { name := name, params := params, names := names }

def isDeclaration (f : Function) : Bool := f.layout.isEmpty

def arity (f : Function) : Nat := f.params.length

def param? (f : Function) (index : Nat) : Option Value := (f.params[index]?).map (.param index)

/-- A name that nothing else in the function has. -/
def freshName (f : Function) (base : String) : String × Function :=
  let (name, names) := f.names.fresh base
  (name, { f with names := names })

/-- The function with one temporary more. -/
def withTemp (f : Function) (ty : Ty) : Function := { f with temps := f.temps ++ [ty] }

/-- A new temporary with its number. -/
def newTemp (f : Function) (ty : Ty) (numbering : Numbering) : Nat × Function :=
  (numbering.number f.temps.length, f.withTemp ty)

def tempType? (f : Function) (id : Nat) : Option Ty := f.temps[id]?

/-- A new block that is not attached. -/
def createBlock (f : Function) (label : String) : BlockId × Function :=
  let (label, f) := f.freshName label
  (⟨f.blocks.length⟩, { f with blocks := f.blocks ++ [{ label := label }] })

def isAttached (f : Function) (id : BlockId) : Bool := f.layout.contains id

/-- The function with a block at the end of its layout, unless it is there already or there is no such
block. -/
def attach? (f : Function) (id : BlockId) : Option Function :=
  if f.isAttached id || f.blocks.length ≤ id.index then none
  else some { f with layout := f.layout ++ [id] }

/-- A new block at the end of the layout. -/
def appendBlock (f : Function) (label : String) : BlockId × Function :=
  let (id, f) := f.createBlock label
  (id, (f.attach? id).getD f)

def block? (f : Function) (id : BlockId) : Option Block := f.blocks[id.index]?

/-- The function with one of its blocks changed. -/
def modifyBlock (f : Function) (id : BlockId) (g : Block → Block) : Function :=
  { f with blocks := f.blocks.modify id.index g }

def entry? (f : Function) : Option BlockId := f.layout.head?

/-- The attached blocks in order. -/
def attached (f : Function) : List Block := f.layout.filterMap f.block?

/-- The attached block with a label. -/
def blockNamed? (f : Function) (label : String) : Option Block := f.attached.find? (·.label = label)

/-- The function's name with its parameters. -/
def signature (f : Function) (keyword : String) : String :=
  keyword ++ " f64 @" ++ f.name ++ "(" ++ ", ".intercalate (f.params.map ("f64 %" ++ ·)) ++ ")"

def text (f : Function) : String :=
  if f.isDeclaration then f.signature "declare" ++ "\n"
  else
    f.signature "define" ++ " \x7b\n" ++ "\n".intercalate (f.attached.map Block.text) ++ "\x7d\n"

end Function

end Monofloat.Ir
