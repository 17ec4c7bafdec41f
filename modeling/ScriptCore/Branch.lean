import ScriptCore.Completion
import ScriptCore.Error
import ScriptCore.Syntax.Names

/-! # Branches: requests to evaluate syntax and to call functions

A branch is one piece of syntax under evaluation in a scope. Tasks ask for the branches and calls
they need by a `Suspension`; `BranchInfo` is what is recorded about each open one. -/

namespace ScriptCore

inductive BranchKind where
  | program
  | function
  | statement
  | expression
  | call
deriving DecidableEq, Inhabited, Repr

def BranchKind.name : BranchKind → String
  | .program => "program"
  | .function => "function"
  | .statement => "statement"
  | .expression => "expression"
  | .call => "call"

def BranchKind.ofName? : String → Option BranchKind
  | "program" => some .program
  | "function" => some .function
  | "statement" => some .statement
  | "expression" => some .expression
  | "call" => some .call
  | _ => none

/-- The syntax a branch evaluates. -/
inductive BranchNode where
  | statements (list : List Stmt)
  | statement (s : Stmt)
  | expression (e : Expr)

/-- How a branch is to be evaluated. -/
structure BranchOptions where
  /-- The value of the last statement is the value of the branch, also for a function body. -/
  returnLastValue : Bool := false
  /-- The closure whose body the branch evaluates. -/
  creator : Option ObjectRef := none
  profileName : Option String := none
  callee : Option Value := none
  /-- Minus one makes the branch, and everything beneath it, quiet. -/
  yieldPower : Option Int := none

namespace BranchOptions

/-- The host neither sees the branch nor gets control inside it. -/
def isQuiet (o : BranchOptions) : Bool := o.yieldPower == some (-1)

/-- The handles that the options keep alive. -/
def handles (o : BranchOptions) : List Handle :=
  (match o.creator with
    | some c => [c.handle]
    | none => []) ++
  (match o.callee with
    | some v => v.handles
    | none => [])

end BranchOptions

/-- What is recorded about an open branch. -/
structure BranchInfo where
  kind : BranchKind
  options : BranchOptions

/-- A request to evaluate a piece of syntax in a scope. -/
structure BranchRequest where
  kind : BranchKind
  node : BranchNode
  scope : ScopeRef
  options : BranchOptions := {}

namespace BranchRequest

/-- A program in a scope. -/
def program (statements : List Stmt) (scope : ScopeRef) : BranchRequest :=
  { kind := .program, node := .statements statements, scope }

def statement (s : Stmt) (scope : ScopeRef) : BranchRequest :=
  { kind := .statement, node := .statement s, scope }

/-- A nested list of statements. -/
def block (statements : List Stmt) (scope : ScopeRef) : BranchRequest :=
  { kind := .statement, node := .statements statements, scope }

def expression (e : Expr) (scope : ScopeRef) : BranchRequest :=
  { kind := .expression, node := .expression e, scope }

def info (r : BranchRequest) : BranchInfo := ⟨r.kind, r.options⟩

end BranchRequest

/-- What the caller says about a call: the callee's name at the call site and the callee itself. -/
structure CallExtra where
  profileName : Option String := none
  callee : Option Value := none

/-- A request to call a value. -/
structure CallRequest where
  callee : Value
  receiver : Value
  args : List Value
  /-- The scope of the call site. -/
  scope : ScopeRef
  extra : CallExtra

/-- What a task asks for when it cannot go on alone. -/
inductive Suspension where
  | branch (request : BranchRequest)
  | call (request : CallRequest)

/-- How far a task came. -/
inductive Step where
  | finished (completion : Completion)
  | suspended (on : Suspension)

/-- The task finished normally with a value. -/
def Step.value (v : Value) : Step := .finished (.ofValue v)

/-- The task asks for a branch. -/
def Step.ask (r : BranchRequest) : Step := .suspended (.branch r)

/-- How a branch ended, in a word. -/
def outcomeName : Except Error Completion → String
  | .ok (.normal none) => "empty"
  | .ok c => c.kind
  | .error e => e.kind

/-- One visible boundary, as an observer sees it. -/
inductive Event where
  | enter (depth : Nat) (info : BranchInfo)
  | exit (depth : Nat) (kind : BranchKind) (outcome : Except Error Completion)

end ScriptCore
