import Mathlib.Logic.Function.Basic
import BoundedC.Compile
import BoundedC.Run

/-!
# The same with other places

`relocate σ` puts the place `σ l` wherever the place `l` stands: in tokens, in trees, in errors and in
the state of a program. Nothing else changes.

* `Located` : the types whose elements may contain places; `Placeless` : those whose elements do not;
* `Node.relocate` : trees;
* `leavesOf_relocate`, `slots_relocate`, `operands_relocate` : what is computed from trees does not
  depend on places;
* `literal?_relocate` : a call finds the buffer of a literal if different places stay different.
-/

namespace BoundedC

/-- A type whose elements may contain places. -/
class Located (α : Type) where
  relocate : (Location → Location) → α → α

export Located (relocate)

variable {α β : Type} {σ : Location → Location}

/-! ## Containers -/

instance : Located Location := ⟨fun σ l => σ l⟩

instance [Located α] : Located (List α) := ⟨fun σ => List.map (relocate σ)⟩

instance [Located α] : Located (Option α) := ⟨fun σ => Option.map (relocate σ)⟩

instance [Located α] [Located β] : Located (α × β) := ⟨fun σ => Prod.map (relocate σ) (relocate σ)⟩

instance [Located α] [Located β] : Located (Except α β) where
  relocate σ
    | .ok b => .ok (relocate σ b)
    | .error a => .error (relocate σ a)

@[simp] theorem relocate_nil [Located α] : relocate σ ([] : List α) = [] := rfl

@[simp] theorem relocate_cons [Located α] (a : α) (as : List α) :
    relocate σ (a :: as) = relocate σ a :: relocate σ as := rfl

@[simp] theorem relocate_append [Located α] (as bs : List α) :
    relocate σ (as ++ bs) = relocate σ as ++ relocate σ bs := List.map_append

@[simp] theorem length_relocate [Located α] (as : List α) : (relocate σ as).length = as.length :=
  List.length_map _

@[simp] theorem relocate_none [Located α] : relocate σ (none : Option α) = none := rfl

@[simp] theorem relocate_some [Located α] (a : α) : relocate σ (some a) = some (relocate σ a) := rfl

@[simp] theorem relocate_pair [Located α] [Located β] (a : α) (b : β) :
    relocate σ (a, b) = (relocate σ a, relocate σ b) := rfl

/-! ## Types without places -/

/-- A type whose elements contain no places. -/
class Placeless (α : Type) [Located α] : Prop where
  relocate_eq : ∀ (σ : Location → Location) (a : α), relocate σ a = a

@[simp] theorem relocate_eq_self [Located α] [Placeless α] (a : α) : relocate σ a = a :=
  Placeless.relocate_eq σ a

instance [Located α] [Placeless α] : Placeless (List α) where
  relocate_eq σ as := by
    have hid : (relocate σ : α → α) = id := funext fun a => relocate_eq_self a
    show as.map (relocate σ) = as
    rw [hid, List.map_id]

instance [Located α] [Placeless α] : Placeless (Option α) where
  relocate_eq σ a := by
    cases a with
    | none => rfl
    | some a => exact congrArg some (relocate_eq_self a)

instance [Located α] [Located β] [Placeless α] [Placeless β] : Placeless (α × β) where
  relocate_eq σ p := by
    show (relocate σ p.1, relocate σ p.2) = p
    rw [relocate_eq_self, relocate_eq_self]

instance : Located Unit := ⟨fun _ a => a⟩

instance : Located Bool := ⟨fun _ a => a⟩

instance : Located Nat := ⟨fun _ a => a⟩

instance : Located Int32 := ⟨fun _ a => a⟩

instance : Located UInt8 := ⟨fun _ a => a⟩

instance : Located String := ⟨fun _ a => a⟩

instance : Located CType := ⟨fun _ a => a⟩

instance : Located Param := ⟨fun _ a => a⟩

instance : Located Value := ⟨fun _ a => a⟩

instance : Located Pointer := ⟨fun _ a => a⟩

instance : Located BufferId := ⟨fun _ a => a⟩

instance : Located Binding := ⟨fun _ a => a⟩

instance : Placeless Unit := ⟨fun _ _ => rfl⟩

instance : Placeless Bool := ⟨fun _ _ => rfl⟩

instance : Placeless Nat := ⟨fun _ _ => rfl⟩

instance : Placeless Int32 := ⟨fun _ _ => rfl⟩

instance : Placeless UInt8 := ⟨fun _ _ => rfl⟩

instance : Placeless String := ⟨fun _ _ => rfl⟩

instance : Placeless CType := ⟨fun _ _ => rfl⟩

instance : Placeless Param := ⟨fun _ _ => rfl⟩

instance : Placeless Value := ⟨fun _ _ => rfl⟩

instance : Placeless Pointer := ⟨fun _ _ => rfl⟩

instance : Placeless BufferId := ⟨fun _ _ => rfl⟩

instance : Placeless Binding := ⟨fun _ _ => rfl⟩

/-! ## Tokens and trees -/

instance : Located Token := ⟨fun σ token => ⟨token.kind, σ token.place⟩⟩

namespace Node

mutual

def relocate (σ : Location → Location) : Node → Node
  | .function place name returnType params body =>
    .function (σ place) name returnType params (relocateAll σ body)
  | .declaration place name type isConst init =>
    .declaration (σ place) name type isConst (relocateOption σ init)
  | .block place statements => .block (σ place) (relocateAll σ statements)
  | .ifElse place condition thenBranch elseBranch =>
    .ifElse (σ place) (condition.relocate σ) (thenBranch.relocate σ) (relocateOption σ elseBranch)
  | .whileLoop place condition body => .whileLoop (σ place) (condition.relocate σ) (body.relocate σ)
  | .forLoop place init condition increment body =>
    .forLoop (σ place) (relocateOption σ init) (relocateOption σ condition)
      (relocateOption σ increment) (body.relocate σ)
  | .returnFrom place value => .returnFrom (σ place) (relocateOption σ value)
  | .breakLoop place => .breakLoop (σ place)
  | .continueLoop place => .continueLoop (σ place)
  | .expression place value => .expression (σ place) (value.relocate σ)
  | .intLiteral place value => .intLiteral (σ place) value
  | .charLiteral place value => .charLiteral (σ place) value
  | .stringLiteral place bytes => .stringLiteral (σ place) bytes
  | .arrayLiteral place elements => .arrayLiteral (σ place) (relocateAll σ elements)
  | .identifier place name => .identifier (σ place) name
  | .binary place op left right => .binary (σ place) op (left.relocate σ) (right.relocate σ)
  | .unary place op operand => .unary (σ place) op (operand.relocate σ)
  | .step place op operand => .step (σ place) op (operand.relocate σ)
  | .deref place operand => .deref (σ place) (operand.relocate σ)
  | .addressOf place operand => .addressOf (σ place) (operand.relocate σ)
  | .assign place target value => .assign (σ place) (target.relocate σ) (value.relocate σ)
  | .compoundAssign place op target value =>
    .compoundAssign (σ place) op (target.relocate σ) (value.relocate σ)
  | .call place name args => .call (σ place) name (relocateAll σ args)
  | .index place array position => .index (σ place) (array.relocate σ) (position.relocate σ)

def relocateAll (σ : Location → Location) : List Node → List Node
  | [] => []
  | node :: nodes => node.relocate σ :: relocateAll σ nodes

def relocateOption (σ : Location → Location) : Option Node → Option Node
  | none => none
  | some node => some (node.relocate σ)

end

end Node

instance : Located Node := ⟨Node.relocate⟩

theorem relocateAll_eq (nodes : List Node) : Node.relocateAll σ nodes = relocate σ nodes := by
  induction nodes with
  | nil => rfl
  | cons node nodes ih =>
    rw [Node.relocateAll, ih]
    rfl

theorem relocateOption_eq (node : Option Node) :
    Node.relocateOption σ node = relocate σ node := by
  cases node <;> rfl

section Constructors

variable (place : Location)

@[simp] theorem relocate_function (name : String) (returnType : CType) (params : List Param)
    (body : List Node) : relocate σ (Node.function place name returnType params body) =
      .function (σ place) name returnType params (relocate σ body) := by
  rw [← relocateAll_eq]
  rfl

@[simp] theorem relocate_declaration (name : String) (type : CType) (isConst : Bool)
    (init : Option Node) : relocate σ (Node.declaration place name type isConst init) =
      .declaration (σ place) name type isConst (relocate σ init) := by
  rw [← relocateOption_eq]
  rfl

@[simp] theorem relocate_block (statements : List Node) :
    relocate σ (Node.block place statements) = .block (σ place) (relocate σ statements) := by
  rw [← relocateAll_eq]
  rfl

@[simp] theorem relocate_ifElse (condition thenBranch : Node) (elseBranch : Option Node) :
    relocate σ (Node.ifElse place condition thenBranch elseBranch) =
      .ifElse (σ place) (relocate σ condition) (relocate σ thenBranch) (relocate σ elseBranch) := by
  rw [← relocateOption_eq]
  rfl

@[simp] theorem relocate_forLoop (init condition increment : Option Node) (body : Node) :
    relocate σ (Node.forLoop place init condition increment body) =
      .forLoop (σ place) (relocate σ init) (relocate σ condition) (relocate σ increment)
        (relocate σ body) := by
  rw [← relocateOption_eq, ← relocateOption_eq, ← relocateOption_eq]
  rfl

@[simp] theorem relocate_returnFrom (value : Option Node) :
    relocate σ (Node.returnFrom place value) = .returnFrom (σ place) (relocate σ value) := by
  rw [← relocateOption_eq]
  rfl

@[simp] theorem relocate_arrayLiteral (elements : List Node) :
    relocate σ (Node.arrayLiteral place elements) = .arrayLiteral (σ place) (relocate σ elements) := by
  rw [← relocateAll_eq]
  rfl

@[simp] theorem relocate_call (name : String) (args : List Node) :
    relocate σ (Node.call place name args) = .call (σ place) name (relocate σ args) := by
  rw [← relocateAll_eq]
  rfl

end Constructors

@[simp] theorem place_relocate (node : Node) : (relocate σ node).place = σ node.place := by
  cases node <;> rfl

@[simp] theorem isLvalue_relocate (node : Node) : (relocate σ node).isLvalue = node.isLvalue := by
  cases node <;> rfl

@[simp] theorem isArrayLiteral_relocate (node : Node) :
    (relocate σ node).isArrayLiteral = node.isArrayLiteral := by
  cases node <;> rfl

@[simp] theorem isInitialized_relocate (node : Node) :
    (relocate σ node).isInitialized = node.isInitialized := by
  cases node with
  | declaration _ _ _ _ init => cases init <;> rfl
  | _ => rfl

mutual

theorem leaves_relocate (node : Node) : (relocate σ node).leaves = relocate σ node.leaves := by
  cases node with
  | arrayLiteral place elements =>
    rw [relocate_arrayLiteral, Node.leaves, Node.leaves]
    exact leavesOf_relocate elements
  | _ => rfl

/-- The scalars of a list of elements are found without looking at places. -/
theorem leavesOf_relocate (nodes : List Node) :
    Node.leavesOf (relocate σ nodes) = relocate σ (Node.leavesOf nodes) := by
  cases nodes with
  | nil => rfl
  | cons node nodes =>
    rw [relocate_cons, Node.leavesOf, Node.leavesOf, leaves_relocate node, leavesOf_relocate nodes,
      relocate_append]

end

theorem inferredLength?_relocate (element : CType) (init : Option Node) :
    inferredLength? element (relocate σ init) = inferredLength? element init := by
  cases init with
  | none => rfl
  | some node =>
    cases node with
    | arrayLiteral place elements =>
      have hall : (relocate σ elements).all Node.isArrayLiteral = elements.all Node.isArrayLiteral := by
        induction elements with
        | nil => rfl
        | cons node nodes ih => simp [ih]
      rw [relocate_some, relocate_arrayLiteral]
      unfold inferredLength?
      dsimp only
      rw [hall, leavesOf_relocate, length_relocate, length_relocate]
    | _ => rfl

mutual

/-- Which element of a list goes where does not depend on places. -/
theorem slots_relocate (base : Nat) (type : CType) (node : Node) :
    (relocate σ node).slots base type = node.slots base type := by
  cases node with
  | arrayLiteral place elements =>
    rw [relocate_arrayLiteral]
    cases type with
    | array element length =>
      rw [Node.slots, Node.slots]
      exact slotsFrom_relocate base _ element 0 elements
    | _ => rfl
  | _ => rfl

theorem slotsFrom_relocate (base : Nat) (type element : CType) (filled : Nat) (nodes : List Node) :
    Node.slotsFrom base type element filled (relocate σ nodes) =
      Node.slotsFrom base type element filled nodes := by
  cases nodes with
  | nil => rfl
  | cons node rest =>
    rw [relocate_cons, Node.slotsFrom, Node.slotsFrom, isArrayLiteral_relocate]
    dsimp only
    split
    · refine bind_congr fun start => ?_
      split
      · rfl
      · rw [slots_relocate _ element node, slotsFrom_relocate base type element _ rest]
    · split
      · rfl
      · rw [slotsFrom_relocate base type element _ rest]

end

/-! ## Programs -/

instance : Located Function where
  relocate σ f := ⟨f.name, f.params, relocate σ f.body, f.returnType, σ f.place⟩

instance : Located Program := ⟨fun σ program => ⟨relocate σ program.nodes⟩⟩

instance : Located Interpreter := ⟨fun σ i => ⟨relocate σ i.functions, i.limits⟩⟩

instance : Located Callee where
  relocate σ
    | .defined f => .defined (relocate σ f)
    | .print => .print

instance : Located Declaration where
  relocate σ d := ⟨σ d.place, d.name, d.type, d.isConst, relocate σ d.init⟩

theorem function?_relocate (node : Node) :
    (relocate σ node).function? = relocate σ node.function? := by
  cases node with
  | function place name returnType params body =>
    rw [relocate_function]
    rfl
  | _ => rfl

theorem functions_relocate (program : Program) :
    (relocate σ program).functions = relocate σ program.functions := by
  obtain ⟨nodes⟩ := program
  show (nodes.map (relocate σ)).filterMap _ = (nodes.filterMap _).map (relocate σ)
  rw [List.filterMap_map, List.map_filterMap]
  congr 1
  funext node
  exact function?_relocate node

theorem ofProgram_relocate (program : Program) (limits : Limits) :
    Interpreter.ofProgram (relocate σ program) limits =
      relocate σ (Interpreter.ofProgram program limits) := by
  show Interpreter.mk (relocate σ program).functions.reverse limits =
    ⟨program.functions.reverse.map (relocate σ), limits⟩
  rw [functions_relocate, List.map_reverse]
  rfl

theorem Interpreter.function?_relocate (i : Interpreter) (name : String) :
    (relocate σ i).function? name = relocate σ (i.function? name) := by
  show (i.functions.map (relocate σ)).find? _ = (i.functions.find? _).map (relocate σ)
  rw [List.find?_map]
  rfl

theorem callee_relocate (i : Interpreter) (name : String) (count : Nat) :
    (relocate σ i).callee name count =
      (i.callee name count).map (relocate σ) := by
  unfold Interpreter.callee
  rw [Interpreter.function?_relocate]
  cases i.function? name with
  | some f =>
    show (if count = f.params.length then _ else _) = _
    dsimp only
    split <;> rfl
  | none =>
    dsimp only [relocate_none]
    split
    · split <;> rfl
    · rfl

theorem operands_relocate (d : Declaration) :
    (relocate σ d).operands = relocate σ d.operands := by
  obtain ⟨place, name, type, isConst, init⟩ := d
  cases init with
  | none => cases type <;> rfl
  | some init =>
    cases init with
    | arrayLiteral site elements =>
      have hinit : (relocate σ (⟨place, name, type, isConst, some (.arrayLiteral site elements)⟩ :
          Declaration)) = ⟨σ place, name, type, isConst,
            some (.arrayLiteral (σ site) (relocate σ elements))⟩ := by
        rw [← relocate_arrayLiteral]
        rfl
      rw [hinit]
      cases type with
      | array => exact leavesOf_relocate elements
      | pointer => exact leavesOf_relocate elements
      | _ => exact congrArg (fun node => [node]) (relocate_arrayLiteral site elements).symm
    | _ => cases type <;> rfl

/-! ## States of a program -/

instance : Located Activation where
  relocate σ a := { a with callSite := relocate σ a.callSite, literals := relocate σ a.literals }

def Stack.map (f : α → β) (s : Stack α) : Stack β :=
  ⟨s.items.map f, s.height, by rw [List.length_map, s.height_eq]⟩

instance [Located α] : Located (Stack α) := ⟨fun σ => Stack.map (relocate σ)⟩

instance : Located ProgramState where
  relocate σ s := ⟨s.memory, relocate σ s.calls, s.sink, s.steps⟩

instance : Located RuntimeError where
  relocate σ
    | .missingMain => .missingMain
    | .fault fault place => .fault fault (σ place)

instance : Located Stop where
  relocate σ
    | .failure e => .failure (relocate σ e)
    | .abort => .abort

/-- The buffer of a literal is found at its new place, unless another place has become the same. -/
theorem literal?_relocate (hσ : Function.Injective σ) (a : Activation) (site : Location) :
    (relocate σ a).literal? (σ site) = a.literal? site := by
  show (relocate σ a.literals).lookup (σ site) = a.literals.lookup site
  induction a.literals with
  | nil => rfl
  | cons head rest ih =>
    obtain ⟨place, id⟩ := head
    show ((σ place, id) :: relocate σ rest).lookup (σ site) = _
    rw [List.lookup_cons, List.lookup_cons, ih]
    have hsame : (σ site == σ place) = (site == place) := by
      rw [Bool.eq_iff_iff, beq_iff_eq, beq_iff_eq, hσ.eq_iff]
    rw [hsame]

end BoundedC
