import BoundedC.Program

/-!
# Well-formed trees

A tree that a text spells is built as the language says: expressions where values are wanted, storage
where it is stepped, assigned to or pointed at, loop control inside loops only.

* `Node.IsExpression`, `Node.IsStatement` : what a node may be, with all its parts;
* `Program.WellFormed` : the same for the bodies of all functions.
-/

namespace BoundedC

/-- The operators that an assignment can be combined with. -/
def BinaryOp.isArithmetic : BinaryOp → Bool
  | add | sub | mul | div | mod => true
  | _ => false

namespace Node

/-- The node stands for a value, and so do its parts. -/
inductive IsExpression : Node → Prop
  | intLiteral (place : Location) (n : Int32) : IsExpression (.intLiteral place n)
  | charLiteral (place : Location) (c : Int8) : IsExpression (.charLiteral place c)
  | stringLiteral (place : Location) (bytes : List UInt8) : IsExpression (.stringLiteral place bytes)
  | arrayLiteral {place : Location} {elements : List Node} (h : ∀ e ∈ elements, IsExpression e) :
      IsExpression (.arrayLiteral place elements)
  | identifier (place : Location) (name : String) : IsExpression (.identifier place name)
  | binary {place : Location} {op : BinaryOp} {left right : Node} (hl : IsExpression left)
      (hr : IsExpression right) : IsExpression (.binary place op left right)
  | unary {place : Location} {op : UnaryOp} {operand : Node} (h : IsExpression operand) :
      IsExpression (.unary place op operand)
  | step {place : Location} {op : StepOp} {operand : Node} (hplace : operand.isLvalue = true)
      (h : IsExpression operand) : IsExpression (.step place op operand)
  | deref {place : Location} {operand : Node} (h : IsExpression operand) :
      IsExpression (.deref place operand)
  | addressOf {place : Location} {operand : Node} (hplace : operand.isLvalue = true)
      (h : IsExpression operand) : IsExpression (.addressOf place operand)
  | assign {place : Location} {target value : Node} (hplace : target.isLvalue = true)
      (ht : IsExpression target) (hv : IsExpression value) : IsExpression (.assign place target value)
  | compoundAssign {place : Location} {op : BinaryOp} {target value : Node}
      (hop : op.isArithmetic = true) (hplace : target.isLvalue = true) (ht : IsExpression target)
      (hv : IsExpression value) : IsExpression (.compoundAssign place op target value)
  | call {place : Location} {name : String} {args : List Node} (h : ∀ a ∈ args, IsExpression a) :
      IsExpression (.call place name args)
  | index {place : Location} {array index : Node} (ha : IsExpression array)
      (hi : IsExpression index) : IsExpression (.index place array index)
  | declaration {place : Location} {name : String} {type : CType} {isConst : Bool} {init : Node}
      (htype : type ≠ .void) (h : IsExpression init) :
      IsExpression (.declaration place name type isConst (some init))

/-- The node can be executed inside so many loops. -/
inductive IsStatement : Nat → Node → Prop
  | value {loops : Nat} {node : Node} (h : node.IsExpression) : IsStatement loops node
  | declaration {loops : Nat} {place : Location} {name : String} {type : CType} {isConst : Bool}
      {init : Option Node} (htype : type ≠ .void) (h : ∀ v ∈ init, v.IsExpression) :
      IsStatement loops (.declaration place name type isConst init)
  | block {loops : Nat} {place : Location} {statements : List Node}
      (h : ∀ s ∈ statements, IsStatement loops s) : IsStatement loops (.block place statements)
  | ifElse {loops : Nat} {place : Location} {condition thenBranch : Node} {elseBranch : Option Node}
      (hc : condition.IsExpression) (ht : IsStatement loops thenBranch)
      (he : ∀ s ∈ elseBranch, IsStatement loops s) :
      IsStatement loops (.ifElse place condition thenBranch elseBranch)
  | whileLoop {loops : Nat} {place : Location} {condition body : Node}
      (hc : condition.IsExpression) (hb : IsStatement (loops + 1) body) :
      IsStatement loops (.whileLoop place condition body)
  | forLoop {loops : Nat} {place : Location} {init condition increment : Option Node} {body : Node}
      (hinit : ∀ s ∈ init, IsStatement 0 s) (hc : ∀ c ∈ condition, c.IsExpression)
      (hi : ∀ v ∈ increment, v.IsExpression) (hb : IsStatement (loops + 1) body) :
      IsStatement loops (.forLoop place init condition increment body)
  | returnFrom {loops : Nat} {place : Location} {value : Option Node}
      (h : ∀ v ∈ value, v.IsExpression) : IsStatement loops (.returnFrom place value)
  | breakLoop {loops : Nat} (place : Location) (h : loops ≠ 0) :
      IsStatement loops (.breakLoop place)
  | continueLoop {loops : Nat} (place : Location) (h : loops ≠ 0) :
      IsStatement loops (.continueLoop place)
  | expression {loops : Nat} {place : Location} {value : Node} (h : value.IsExpression) :
      IsStatement loops (.expression place value)

/-- The node defines a function, whose body is outside of all loops. -/
def IsDefinition (node : Node) : Prop :=
  ∃ f, node.function? = some f ∧ ∀ s ∈ f.body, s.IsStatement 0

end Node

/-- The bodies of all functions can be executed. -/
def Program.WellFormed (p : Program) : Prop := ∀ f ∈ p.functions, ∀ s ∈ f.body, s.IsStatement 0

end BoundedC
