/-! # Syntax trees

Expressions, assignment targets, statements and functions, as a parser would deliver them. A
function carries its name, parameters and body, and three flags: strict code, arrow function (which
takes its receiver from where it was made), and quiet code, whose evaluation the host does not see. -/

namespace ScriptCore

inductive BinaryOp where
  | add | sub | mul | div | rem
  | looseEq | looseNotEq | strictEq | strictNotEq
  | lt | ltEq | gt | gtEq
  | isIn
deriving DecidableEq, Inhabited, Repr

/-- The operator that a symbol writes. -/
def BinaryOp.ofSymbol? : String → Option BinaryOp
  | "+" => some .add
  | "-" => some .sub
  | "*" => some .mul
  | "/" => some .div
  | "%" => some .rem
  | "==" => some .looseEq
  | "!=" => some .looseNotEq
  | "===" => some .strictEq
  | "!==" => some .strictNotEq
  | "<" => some .lt
  | "<=" => some .ltEq
  | ">" => some .gt
  | ">=" => some .gtEq
  | "in" => some .isIn
  | _ => none

inductive LogicalOp where
  | and | or
deriving DecidableEq, Inhabited, Repr

/-- `delete` means something on member expressions only; on any other operand it is `true`. -/
inductive UnaryOp where
  | not | neg | plus | typeOf | void | delete
deriving DecidableEq, Inhabited, Repr

/-- The operator that a symbol writes. -/
def UnaryOp.ofSymbol? : String → Option UnaryOp
  | "!" => some .not
  | "-" => some .neg
  | "+" => some .plus
  | "typeof" => some .typeOf
  | "void" => some .void
  | "delete" => some .delete
  | _ => none

mutual

inductive Expr where
  | undefined
  | null
  | bool (b : Bool)
  | number (x : Float)
  | string (s : String)
  | ident (name : String)
  | receiver
  | array (elements : List Expr)
  | object (properties : List (String × Expr))
  | function (f : Function)
  | member (object : Expr) (key : MemberKey)
  | assign (target : Pattern) (value : Expr)
  | call (callee : Expr) (args : List Expr)
  | binary (op : BinaryOp) (left right : Expr)
  | logical (op : LogicalOp) (left right : Expr)
  | unary (op : UnaryOp) (operand : Expr)

/-- The key of a member expression: written out, or computed. -/
inductive MemberKey where
  | named (name : String)
  | computed (key : Expr)

/-- An assignment target. A hole of an array pattern skips an element. -/
inductive Pattern where
  | ident (name : String)
  | member (object : Expr) (key : MemberKey)
  | object (properties : List (String × Pattern))
  | array (elements : List (Option Pattern))

inductive Stmt where
  | expr (e : Expr)
  | vars (declarations : List (Pattern × Option Expr))
  | function (f : Function)
  | ret (value : Option Expr)
  | ifThen (test : Expr) (consequent : Stmt) (alternate : Option Stmt)
  | block (statements : List Stmt)
  | whileLoop (test : Expr) (body : Stmt)
  | breakLoop
  | continueLoop
  | throwValue (value : Expr)
  | tryCatch (block : List Stmt) (param : Option String) (handler : List Stmt)

inductive Param where
  | simple (name : String) (default : Option Expr)
  | pattern (target : Pattern) (default : Option Expr)
  | rest (name : String)

/-- A list of statements, or one expression whose value is returned. -/
inductive Body where
  | block (statements : List Stmt)
  | expression (e : Expr)

/-- A function literal or declaration. -/
structure Function where
  name : Option String
  params : List Param
  body : Body
  strict : Bool
  arrow : Bool
  quiet : Bool

end

instance : Inhabited Expr := ⟨.undefined⟩
instance : Inhabited Pattern := ⟨.array []⟩
instance : Inhabited Stmt := ⟨.block []⟩
instance : Inhabited Body := ⟨.block []⟩
instance : Inhabited Function := ⟨none, [], default, false, false, false⟩

end ScriptCore
