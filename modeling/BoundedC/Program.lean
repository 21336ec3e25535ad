import BoundedC.CType
import BoundedC.Location

/-!
# Programs as trees

`Node` is a statement or an expression: the two share one type because a declaration may stand where
a value is expected. Every node carries the place that diagnostics report for it. A `Program` is a
list of nodes, of which the function definitions count.

* `Node.place` : the place of a node;
* `Node.isLvalue` : whether the node names storage: a variable, a dereference or an index;
* `Node.leaves` : the scalar elements of an array literal, in order.
-/

namespace BoundedC

inductive BinaryOp where
  | add | sub | mul | div | mod
  | eq | ne | lt | le | gt | ge
  | and | or
  deriving DecidableEq, Repr

inductive UnaryOp where
  | neg | not
  deriving DecidableEq, Repr

/-- The operators that step a stored value up or down, before or after it is used. -/
inductive StepOp where
  | preInc | preDec | postInc | postDec
  deriving DecidableEq, Repr

namespace BinaryOp

def spelling : BinaryOp → String
  | add => "+"
  | sub => "-"
  | mul => "*"
  | div => "/"
  | mod => "%"
  | eq => "=="
  | ne => "!="
  | lt => "<"
  | le => "<="
  | gt => ">"
  | ge => ">="
  | and => "&&"
  | or => "||"

/-- Whether the second operand is evaluated only if the first one leaves the result open. -/
def isLogical : BinaryOp → Bool
  | and | or => true
  | _ => false

end BinaryOp

namespace StepOp

def delta : StepOp → Int32
  | preInc | postInc => 1
  | preDec | postDec => -1

/-- Whether the value is the one before the step. -/
def yieldsOld : StepOp → Bool
  | postInc | postDec => true
  | preInc | preDec => false

end StepOp

structure Param where
  name : String
  type : CType
  isConst : Bool
  deriving DecidableEq, Repr

/-- A statement or an expression. -/
inductive Node where
  | function (place : Location) (name : String) (returnType : CType) (params : List Param)
      (body : List Node)
  | declaration (place : Location) (name : String) (type : CType) (isConst : Bool)
      (init : Option Node)
  | block (place : Location) (statements : List Node)
  | ifElse (place : Location) (condition thenBranch : Node) (elseBranch : Option Node)
  | whileLoop (place : Location) (condition body : Node)
  | forLoop (place : Location) (init condition increment : Option Node) (body : Node)
  | returnFrom (place : Location) (value : Option Node)
  | breakLoop (place : Location)
  | continueLoop (place : Location)
  | expression (place : Location) (value : Node)
  | intLiteral (place : Location) (value : Int32)
  | charLiteral (place : Location) (value : Int8)
  | stringLiteral (place : Location) (bytes : List UInt8)
  | arrayLiteral (place : Location) (elements : List Node)
  | identifier (place : Location) (name : String)
  | binary (place : Location) (op : BinaryOp) (left right : Node)
  | unary (place : Location) (op : UnaryOp) (operand : Node)
  | step (place : Location) (op : StepOp) (operand : Node)
  | deref (place : Location) (operand : Node)
  | addressOf (place : Location) (operand : Node)
  | assign (place : Location) (target value : Node)
  | compoundAssign (place : Location) (op : BinaryOp) (target value : Node)
  | call (place : Location) (name : String) (args : List Node)
  | index (place : Location) (array index : Node)
  deriving Inhabited

namespace Node

def place : Node → Location
  | function place .. | declaration place .. | block place .. | ifElse place .. | whileLoop place ..
  | forLoop place .. | returnFrom place .. | breakLoop place | continueLoop place
  | expression place .. | intLiteral place .. | charLiteral place .. | stringLiteral place ..
  | arrayLiteral place .. | identifier place .. | binary place .. | unary place .. | step place ..
  | deref place .. | addressOf place .. | assign place .. | compoundAssign place .. | call place ..
  | index place .. => place

/-- Whether the node names storage, which can be assigned and has an address. -/
def isLvalue : Node → Bool
  | identifier .. | deref .. | index .. => true
  | _ => false

def isArrayLiteral : Node → Bool
  | arrayLiteral .. => true
  | _ => false

mutual

/-- The scalar elements of an array literal, however its lists are nested; any other node is its
own and only element. -/
def leaves : Node → List Node
  | arrayLiteral _ elements => leavesOf elements
  | node => [node]

/-- The scalar elements of a list of elements. -/
def leavesOf : List Node → List Node
  | [] => []
  | element :: elements => element.leaves ++ leavesOf elements

end

end Node

structure Function where
  name : String
  params : List Param
  body : List Node
  returnType : CType
  place : Location

/-- A program: its top-level nodes, in the order of the source. -/
structure Program where
  nodes : List Node

def Node.function? : Node → Option Function
  | function place name returnType params body => some { name, params, body, returnType, place }
  | _ => none

namespace Program

def functions (p : Program) : List Function := p.nodes.filterMap Node.function?

/-- The first definition of a name. -/
def function? (p : Program) (name : String) : Option Function :=
  p.functions.find? (·.name = name)

end Program

end BoundedC
