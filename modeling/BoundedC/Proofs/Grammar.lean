import BoundedC.Reader.Body

/-!
# The grammar

What a list of tokens must look like to spell a program, and which tree it spells. `Derives p input
tree rest` says that `input` begins with a phrase of the kind `p`, behind which `rest` is left, and
which tree the phrase has. The grammar is stratified, from the loosest to the tightest:

* `Phrase.value` : assignments, which associate to the right;
* `Phrase.binary` : the levels of `operatorLevels`, each of which associates to the left;
* `Phrase.unary`, `Phrase.trailing`, `Phrase.primary` : operators in front of an operand, operators
  behind it, and operands. Parentheses and a plus sign leave no node.

A statement that ends in an `if` without `else` is a `Phrase.statement true`; it cannot stand in front
of an `else`, so that an `else` belongs to the nearest `if`. `Spells` is about whole programs.

The grammar knows nothing of static checks. A phrase may have a tree that is refused by a check, and
where no node can stand for a phrase that a check refuses, it has no tree.

The words and signs of the language are listed here once more, and `operatorLevels_eq_binaryLevels`,
`baseType?_eq_some_iff`, `assignmentOf?_eq_some_iff` and `atom?_eq_some_iff` say that the tables of the
reader are the same.
-/

namespace BoundedC

/-! ## Words and signs -/

/-- The types that are named by a keyword. -/
inductive BaseType where
  | int | char | void
  deriving DecidableEq

namespace BaseType

def word : BaseType → Keyword
  | int => .int
  | char => .char
  | void => .void

def type : BaseType → CType
  | int => .int
  | char => .char
  | void => .void

end BaseType

/-- The operators between operands, level by level: those of the first one bind the loosest. -/
def operatorLevels : List (List (Symbol × BinaryOp)) :=
  [[(.barBar, .or)],
   [(.ampAmp, .and)],
   [(.equalEqual, .eq), (.bangEqual, .ne)],
   [(.less, .lt), (.lessEqual, .le), (.greater, .gt), (.greaterEqual, .ge)],
   [(.plus, .add), (.minus, .sub)],
   [(.star, .mul), (.slash, .div), (.percent, .mod)]]

/-- The signs of assignments. All but the plain one apply an operator first. -/
inductive AssignmentSign : Symbol → Option BinaryOp → Prop
  | plain : AssignmentSign .equal none
  | add : AssignmentSign .plusEqual (some .add)
  | sub : AssignmentSign .minusEqual (some .sub)
  | mul : AssignmentSign .starEqual (some .mul)
  | div : AssignmentSign .slashEqual (some .div)
  | mod : AssignmentSign .percentEqual (some .mod)

/-- The tokens that are operands by themselves, and the nodes that they have at a place. -/
inductive Atom (l : Location) : TokenKind → Node → Prop
  | int (n : Int32) : Atom l (.int n) (.intLiteral l n)
  | char (c : Int8) : Atom l (.char c) (.charLiteral l c)
  | string (text : String) : Atom l (.string text) (.stringLiteral l text.toUTF8.toList)
  | identifier (name : String) : Atom l (.identifier name) (.identifier l name)

section Tables

variable {kind : TokenKind}

theorem operatorLevels_eq_binaryLevels : operatorLevels = binaryLevels := rfl

theorem baseType?_eq_some_iff {t : CType} :
    Reader.baseType? kind = some t ↔ ∃ base : BaseType, kind = .keyword base.word ∧ base.type = t := by
  constructor
  · intro h
    unfold Reader.baseType? at h
    split at h <;> cases h
    · exact ⟨.int, rfl, rfl⟩
    · exact ⟨.char, rfl, rfl⟩
    · exact ⟨.void, rfl, rfl⟩
  · rintro ⟨base, rfl, rfl⟩
    cases base <;> rfl

theorem assignmentOf?_eq_some_iff {op : Option BinaryOp} :
    assignmentOf? kind = some op ↔ ∃ s, kind = .symbol s ∧ AssignmentSign s op := by
  constructor
  · intro h
    unfold assignmentOf? at h
    split at h <;> cases h <;> exact ⟨_, rfl, by constructor⟩
  · rintro ⟨s, rfl, h⟩
    cases h <;> rfl

theorem atom?_eq_some_iff {l : Location} {node : Node} : atom? l kind = some node ↔ Atom l kind node := by
  constructor
  · intro h
    unfold atom? at h
    split at h <;> cases h <;> constructor
  · intro h
    cases h <;> rfl

theorem Atom.ne_endOfFile {l : Location} {node : Node} (h : Atom l kind node) : kind ≠ .endOfFile := by
  cases h <;> nofun

theorem exists_of_operatorOf? {level : List (Symbol × BinaryOp)} {op : BinaryOp}
    (h : operatorOf? level kind = some op) : ∃ s, kind = .symbol s ∧ (s, op) ∈ level := by
  cases kind with
  | symbol s =>
    obtain ⟨before, behind, rfl, -⟩ := List.lookup_eq_some_iff.1 h
    exact ⟨s, rfl, by simp⟩
  | _ => cases h

end Tables

/-! ## Types -/

/-- Stars behind the type `t`, and the type they make of it. -/
inductive Stars : CType → List Token → CType → List Token → Prop
  | nil (t : CType) (rest : List Token) : Stars t rest t rest
  | cons {t u : CType} {l : Location} {input rest : List Token} (h : Stars (.pointer t) input u rest) :
    Stars t (⟨.symbol .star, l⟩ :: input) u rest

/-- A type in front of a name, and whether the name is read-only. -/
inductive TypeSpecifier : List Token → CType × Bool → List Token → Prop
  | plain {base : BaseType} {t : CType} {l : Location} {input rest : List Token}
    (hstars : Stars base.type input t rest) :
    TypeSpecifier (⟨.keyword base.word, l⟩ :: input) (t, false) rest
  | const {base : BaseType} {t : CType} {l l' : Location} {input rest : List Token}
    (hstars : Stars base.type input t rest) :
    TypeSpecifier (⟨.keyword .const, l⟩ :: ⟨.keyword base.word, l'⟩ :: input) (t, !t.isPointer) rest

/-- The dimensions behind a name, the outermost first. -/
inductive Dimensions : List Token → List Dimension → List Token → Prop
  | nil (rest : List Token) : Dimensions rest [] rest
  | omitted {dims : List Dimension} {l r : Location} {input rest : List Token}
    (h : Dimensions input dims rest) :
    Dimensions (⟨.symbol .leftBracket, l⟩ :: ⟨.symbol .rightBracket, r⟩ :: input) (none :: dims) rest
  | length {dims : List Dimension} {n : Int32} {l k r : Location} {input rest : List Token}
    (h : Dimensions input dims rest) :
    Dimensions (⟨.symbol .leftBracket, l⟩ :: ⟨.int n, k⟩ :: ⟨.symbol .rightBracket, r⟩ :: input)
      (some n.toInt.toNat :: dims) rest

/-- The array type with the given dimensions, all of which must have a length. -/
def CType.withDimensions? (base : CType) : List Dimension → Option CType
  | [] => some base
  | dimension :: inner => do
    let element ← base.withDimensions? inner
    let length ← dimension
    return .array element length

/-- The type of a variable. The outermost length may be left to the initializer. -/
def CType.declared? (base : CType) (dims : List Dimension) (init : Option Node) : Option CType :=
  match dims with
  | [] => some base
  | outer :: inner => do
    let element ← base.withDimensions? inner
    let length ← outer <|> inferredLength? element init
    return .array element length

/-- The type of a parameter, which is a pointer where an array is declared. -/
def CType.parameter? (base : CType) : List Dimension → Option CType
  | [] => some base
  | _ :: inner => (base.withDimensions? inner).map .pointer

/-- The node of a declaration whose type can be told. -/
def declarationNode? (place : Location) (name : String) (spec : CType × Bool)
    (dims : List Dimension) (init : Option Node) : Option Node :=
  (spec.1.declared? dims init).map fun type => .declaration place name type spec.2 init

/-! ## Expressions and statements -/

inductive Phrase where
  | value
  /-- operands with the operators of some levels between them -/
  | binary (levels : List (List (Symbol × BinaryOp)))
  | unary
  | trailing
  | primary
  /-- one value or more, with commas between them -/
  | values
  /-- the arguments of a call -/
  | arguments
  /-- the elements of an array literal -/
  | elements
  /-- a declaration with an initializer, without its semicolon -/
  | initialized
  /-- a declaration without its semicolon -/
  | declaration
  /-- a value or nothing -/
  | clause
  /-- the first clause of `for`, with its semicolon -/
  | forInit
  | statement (dangling : Bool)
  | statements

abbrev Phrase.Tree : Phrase → Type
  | values | arguments | elements | statements => List Node
  | clause | forInit => Option Node
  | _ => Node

/-- The node of a call, which is of a function with a name. -/
def callNode? : Option Node → Option (List Node) → Option Node
  | some (.identifier place name), some args => some (.call place name args)
  | _, _ => none

def assignmentNode (place : Location) : Option BinaryOp → Node → Node → Node
  | none => .assign place
  | some op => .compoundAssign place op

/-- The list of tokens begins with a phrase that has the tree, and then the rest follows. -/
inductive Derives : (p : Phrase) → List Token → Option p.Tree → List Token → Prop
  -- operands
  | atom {kind : TokenKind} {l : Location} {node : Node} {rest : List Token}
    (h : Atom l kind node) : Derives .primary (⟨kind, l⟩ :: rest) (some node) rest
  | arrayLiteral {l r : Location} {input rest : List Token} {elements : Option (List Node)}
    (h : Derives .elements input elements (⟨.symbol .rightBrace, r⟩ :: rest)) :
    Derives .primary (⟨.symbol .leftBrace, l⟩ :: input) (elements.map (.arrayLiteral l)) rest
  | parentheses {l r : Location} {input rest : List Token} {node : Option Node}
    (h : Derives .value input node (⟨.symbol .rightParen, r⟩ :: rest)) :
    Derives .primary (⟨.symbol .leftParen, l⟩ :: input) node rest
  | parenthesizedDeclaration {l r : Location} {input rest : List Token} {node : Option Node}
    (h : Derives .initialized input node (⟨.symbol .rightParen, r⟩ :: rest)) :
    Derives .primary (⟨.symbol .leftParen, l⟩ :: input) node rest
  -- operators behind an operand
  | operand {input rest : List Token} {node : Option Node} (h : Derives .primary input node rest) :
    Derives .trailing input node rest
  | postInc {l : Location} {input rest : List Token} {node : Option Node}
    (h : Derives .trailing input node (⟨.symbol .plusPlus, l⟩ :: rest)) :
    Derives .trailing input (node.map (.step l .postInc)) rest
  | postDec {l : Location} {input rest : List Token} {node : Option Node}
    (h : Derives .trailing input node (⟨.symbol .minusMinus, l⟩ :: rest)) :
    Derives .trailing input (node.map (.step l .postDec)) rest
  | index {l r : Location} {input middle rest : List Token} {array position : Option Node}
    (harray : Derives .trailing input array (⟨.symbol .leftBracket, l⟩ :: middle))
    (hposition : Derives .value middle position (⟨.symbol .rightBracket, r⟩ :: rest)) :
    Derives .trailing input (.index l <$> array <*> position) rest
  | call {l r : Location} {input middle rest : List Token} {f : Option Node}
    {args : Option (List Node)}
    (hf : Derives .trailing input f (⟨.symbol .leftParen, l⟩ :: middle))
    (hargs : Derives .arguments middle args (⟨.symbol .rightParen, r⟩ :: rest)) :
    Derives .trailing input (callNode? f args) rest
  -- operators in front of an operand
  | unsigned {input rest : List Token} {node : Option Node} (h : Derives .trailing input node rest) :
    Derives .unary input node rest
  | not {l : Location} {input rest : List Token} {node : Option Node}
    (h : Derives .unary input node rest) :
    Derives .unary (⟨.symbol .bang, l⟩ :: input) (node.map (.unary l .not)) rest
  | neg {l : Location} {input rest : List Token} {node : Option Node}
    (h : Derives .unary input node rest) :
    Derives .unary (⟨.symbol .minus, l⟩ :: input) (node.map (.unary l .neg)) rest
  | plus {l : Location} {input rest : List Token} {node : Option Node}
    (h : Derives .unary input node rest) :
    Derives .unary (⟨.symbol .plus, l⟩ :: input) node rest
  | addressOf {l : Location} {input rest : List Token} {node : Option Node}
    (h : Derives .unary input node rest) :
    Derives .unary (⟨.symbol .amp, l⟩ :: input) (node.map (.addressOf l)) rest
  | deref {l : Location} {input rest : List Token} {node : Option Node}
    (h : Derives .unary input node rest) :
    Derives .unary (⟨.symbol .star, l⟩ :: input) (node.map (.deref l)) rest
  | preInc {l : Location} {input rest : List Token} {node : Option Node}
    (h : Derives .unary input node rest) :
    Derives .unary (⟨.symbol .plusPlus, l⟩ :: input) (node.map (.step l .preInc)) rest
  | preDec {l : Location} {input rest : List Token} {node : Option Node}
    (h : Derives .unary input node rest) :
    Derives .unary (⟨.symbol .minusMinus, l⟩ :: input) (node.map (.step l .preDec)) rest
  -- operators between operands
  | factor {input rest : List Token} {node : Option Node} (h : Derives .unary input node rest) :
    Derives (.binary []) input node rest
  | tighter {level : List (Symbol × BinaryOp)} {levels : List (List (Symbol × BinaryOp))}
    {input rest : List Token} {node : Option Node} (h : Derives (.binary levels) input node rest) :
    Derives (.binary (level :: levels)) input node rest
  | binary {level : List (Symbol × BinaryOp)} {levels : List (List (Symbol × BinaryOp))}
    {s : Symbol} {op : BinaryOp} {l : Location} {input middle rest : List Token}
    {left right : Option Node}
    (hleft : Derives (.binary (level :: levels)) input left (⟨.symbol s, l⟩ :: middle))
    (hop : (s, op) ∈ level) (hright : Derives (.binary levels) middle right rest) :
    Derives (.binary (level :: levels)) input (.binary l op <$> left <*> right) rest
  -- assignments
  | unassigned {input rest : List Token} {node : Option Node}
    (h : Derives (.binary operatorLevels) input node rest) : Derives .value input node rest
  | assign {s : Symbol} {op : Option BinaryOp} {l : Location} {input middle rest : List Token}
    {target source : Option Node}
    (htarget : Derives (.binary operatorLevels) input target (⟨.symbol s, l⟩ :: middle))
    (hop : AssignmentSign s op) (hsource : Derives .value middle source rest) :
    Derives .value input (assignmentNode l op <$> target <*> source) rest
  -- lists of values
  | lastValue {input rest : List Token} {node : Option Node} (h : Derives .value input node rest) :
    Derives .values input (node.map ([·])) rest
  | moreValues {l : Location} {input middle rest : List Token} {node : Option Node}
    {nodes : Option (List Node)} (hfirst : Derives .value input node (⟨.symbol .comma, l⟩ :: middle))
    (hmore : Derives .values middle nodes rest) :
    Derives .values input (List.cons <$> node <*> nodes) rest
  | noArguments {rest : List Token} : Derives .arguments rest (some []) rest
  | arguments {input rest : List Token} {nodes : Option (List Node)}
    (h : Derives .values input nodes rest) : Derives .arguments input nodes rest
  | lastElement {input rest : List Token} {node : Option Node} (h : Derives .value input node rest) :
    Derives .elements input (node.map ([·])) rest
  | lastElementComma {l : Location} {input rest : List Token} {node : Option Node}
    (h : Derives .value input node (⟨.symbol .comma, l⟩ :: rest)) :
    Derives .elements input (node.map ([·])) rest
  | moreElements {l : Location} {input middle rest : List Token} {node : Option Node}
    {nodes : Option (List Node)} (hfirst : Derives .value input node (⟨.symbol .comma, l⟩ :: middle))
    (hmore : Derives .elements middle nodes rest) :
    Derives .elements input (List.cons <$> node <*> nodes) rest
  -- declarations
  | initialized {spec : CType × Bool} {dims : List Dimension} {name : String} {l e : Location}
    {input behindName behindEqual rest : List Token} {init : Option Node}
    (hspec : TypeSpecifier input spec (⟨.identifier name, l⟩ :: behindName))
    (hdims : Dimensions behindName dims (⟨.symbol .equal, e⟩ :: behindEqual))
    (hinit : Derives .value behindEqual init rest) :
    Derives .initialized input (init.bind fun v => declarationNode? l name spec dims (some v)) rest
  | withInitializer {input rest : List Token} {node : Option Node}
    (h : Derives .initialized input node rest) : Derives .declaration input node rest
  | withoutInitializer {spec : CType × Bool} {dims : List Dimension} {name : String} {l : Location}
    {input behindName rest : List Token}
    (hspec : TypeSpecifier input spec (⟨.identifier name, l⟩ :: behindName))
    (hdims : Dimensions behindName dims rest) :
    Derives .declaration input (declarationNode? l name spec dims none) rest
  -- clauses
  | noClause {rest : List Token} : Derives .clause rest (some none) rest
  | clause {input rest : List Token} {node : Option Node} (h : Derives .value input node rest) :
    Derives .clause input (node.map some) rest
  | noInit {l : Location} {rest : List Token} :
    Derives .forInit (⟨.symbol .semicolon, l⟩ :: rest) (some none) rest
  | declarationInit {l : Location} {input rest : List Token} {node : Option Node}
    (h : Derives .declaration input node (⟨.symbol .semicolon, l⟩ :: rest)) :
    Derives .forInit input (node.map some) rest
  | valueInit {l : Location} {input rest : List Token} {node : Option Node}
    (h : Derives .value input node (⟨.symbol .semicolon, l⟩ :: rest)) :
    Derives .forInit input (node.map some) rest
  -- statements
  | returnFrom {l e : Location} {input rest : List Token} {node : Option (Option Node)}
    (h : Derives .clause input node (⟨.symbol .semicolon, e⟩ :: rest)) :
    Derives (.statement false) (⟨.keyword .returnWord, l⟩ :: input) (node.map (.returnFrom l)) rest
  | ifThen {dangling : Bool} {l o c : Location} {input middle rest : List Token}
    {condition body : Option Node}
    (hcondition : Derives .value input condition (⟨.symbol .rightParen, c⟩ :: middle))
    (hbody : Derives (.statement dangling) middle body rest) :
    Derives (.statement true) (⟨.keyword .ifWord, l⟩ :: ⟨.symbol .leftParen, o⟩ :: input)
      ((.ifElse l · · none) <$> condition <*> body) rest
  | ifElse {dangling : Bool} {l o c e : Location} {input middle behindElse rest : List Token}
    {condition body other : Option Node}
    (hcondition : Derives .value input condition (⟨.symbol .rightParen, c⟩ :: middle))
    (hbody : Derives (.statement false) middle body (⟨.keyword .elseWord, e⟩ :: behindElse))
    (hother : Derives (.statement dangling) behindElse other rest) :
    Derives (.statement dangling) (⟨.keyword .ifWord, l⟩ :: ⟨.symbol .leftParen, o⟩ :: input)
      ((fun c b o => .ifElse l c b (some o)) <$> condition <*> body <*> other) rest
  | whileLoop {dangling : Bool} {l o c : Location} {input middle rest : List Token}
    {condition body : Option Node}
    (hcondition : Derives .value input condition (⟨.symbol .rightParen, c⟩ :: middle))
    (hbody : Derives (.statement dangling) middle body rest) :
    Derives (.statement dangling) (⟨.keyword .whileWord, l⟩ :: ⟨.symbol .leftParen, o⟩ :: input)
      (.whileLoop l <$> condition <*> body) rest
  | forLoop {dangling : Bool} {l o s c : Location}
    {input behindInit behindCondition behindClauses rest : List Token}
    {init condition increment : Option (Option Node)} {body : Option Node}
    (hinit : Derives .forInit input init behindInit)
    (hcondition : Derives .clause behindInit condition (⟨.symbol .semicolon, s⟩ :: behindCondition))
    (hincrement : Derives .clause behindCondition increment
      (⟨.symbol .rightParen, c⟩ :: behindClauses))
    (hbody : Derives (.statement dangling) behindClauses body rest) :
    Derives (.statement dangling) (⟨.keyword .forWord, l⟩ :: ⟨.symbol .leftParen, o⟩ :: input)
      (.forLoop l <$> init <*> condition <*> increment <*> body) rest
  | breakLoop {l e : Location} {rest : List Token} :
    Derives (.statement false) (⟨.keyword .breakWord, l⟩ :: ⟨.symbol .semicolon, e⟩ :: rest)
      (some (.breakLoop l)) rest
  | continueLoop {l e : Location} {rest : List Token} :
    Derives (.statement false) (⟨.keyword .continueWord, l⟩ :: ⟨.symbol .semicolon, e⟩ :: rest)
      (some (.continueLoop l)) rest
  | empty {l : Location} {rest : List Token} :
    Derives (.statement false) (⟨.symbol .semicolon, l⟩ :: rest) (some (.block l [])) rest
  | block {l r : Location} {input rest : List Token} {nodes : Option (List Node)}
    (h : Derives .statements input nodes (⟨.symbol .rightBrace, r⟩ :: rest)) :
    Derives (.statement false) (⟨.symbol .leftBrace, l⟩ :: input) (nodes.map (.block l)) rest
  | declared {l : Location} {input rest : List Token} {node : Option Node}
    (h : Derives .declaration input node (⟨.symbol .semicolon, l⟩ :: rest)) :
    Derives (.statement false) input node rest
  -- a brace at the beginning always opens a block
  | expression {kind : TokenKind} {l e : Location} {input rest : List Token} {node : Option Node}
    (h : Derives .value (⟨kind, l⟩ :: input) node (⟨.symbol .semicolon, e⟩ :: rest))
    (hkind : kind ≠ .symbol .leftBrace) :
    Derives (.statement false) (⟨kind, l⟩ :: input) (node.map (.expression l)) rest
  | noStatements {rest : List Token} : Derives .statements rest (some []) rest
  | moreStatements {dangling : Bool} {input middle rest : List Token} {node : Option Node}
    {nodes : Option (List Node)} (hfirst : Derives (.statement dangling) input node middle)
    (hmore : Derives .statements middle nodes rest) :
    Derives .statements input (List.cons <$> node <*> nodes) rest

/-! ## Functions and programs -/

inductive Parameter : List Token → Option Param → List Token → Prop
  | mk {spec : CType × Bool} {dims : List Dimension} {name : String} {l : Location}
    {input behindName rest : List Token}
    (hspec : TypeSpecifier input spec (⟨.identifier name, l⟩ :: behindName))
    (hdims : Dimensions behindName dims rest) :
    Parameter input ((spec.1.parameter? dims).map (⟨name, ·, spec.2⟩)) rest

inductive Parameters : List Token → Option (List Param) → List Token → Prop
  | last {input rest : List Token} {param : Option Param} (h : Parameter input param rest) :
    Parameters input (param.map ([·])) rest
  | more {l : Location} {input middle rest : List Token} {param : Option Param}
    {params : Option (List Param)}
    (hfirst : Parameter input param (⟨.symbol .comma, l⟩ :: middle))
    (hmore : Parameters middle params rest) :
    Parameters input (List.cons <$> param <*> params) rest

/-- A list of parameters in parentheses, behind the opening one. -/
inductive ParameterList : List Token → Option (List Param) → List Token → Prop
  | empty {r : Location} {rest : List Token} :
    ParameterList (⟨.symbol .rightParen, r⟩ :: rest) (some []) rest
  | void {l r : Location} {rest : List Token} :
    ParameterList (⟨.keyword .void, l⟩ :: ⟨.symbol .rightParen, r⟩ :: rest) (some []) rest
  | some {r : Location} {input rest : List Token} {params : Option (List Param)}
    (h : Parameters input params (⟨.symbol .rightParen, r⟩ :: rest)) :
    ParameterList input params rest

inductive Definitions : List Token → Option (List Node) → List Token → Prop
  | nil {rest : List Token} : Definitions rest (some []) rest
  | cons {spec : CType × Bool} {name : String} {l o b e : Location}
    {input behindOpen behindBrace middle rest : List Token} {params : Option (List Param)}
    {body nodes : Option (List Node)}
    (hspec : TypeSpecifier input spec
      (⟨.identifier name, l⟩ :: ⟨.symbol .leftParen, o⟩ :: behindOpen))
    (hparams : ParameterList behindOpen params (⟨.symbol .leftBrace, b⟩ :: behindBrace))
    (hbody : Derives .statements behindBrace body (⟨.symbol .rightBrace, e⟩ :: middle))
    (hmore : Definitions middle nodes rest) :
    Definitions input
      ((fun ps ns fs => .function l name spec.1 ps ns :: fs) <$> params <*> body <*> nodes) rest

/-- The tokens up to the end of the text spell a program of these nodes. -/
def Spells (tokens : List Token) (nodes : Option (List Node)) : Prop :=
  ∃ place rest, Definitions tokens nodes (⟨.endOfFile, place⟩ :: rest)

/-- The faults of programs that the grammar allows: too much nesting, names, types and array sizes
that cannot be declared, loop control outside of a loop, and operands that name no storage. -/
def ParseFault.isStaticCheck : ParseFault → Bool
  | tooDeep | duplicateFunction _ | voidParameter _ | voidVariable _ | tooManyPointerLevels
  | tooManyDimensions | sizeNotPositive | innerDimensionOmitted | arrayTooLarge _ | lengthNotInferred
  | outsideLoop _ | targetNotAssignable | operandNotAssignable _ | noAddress | callOnNonIdentifier => true
  | _ => false

end BoundedC
