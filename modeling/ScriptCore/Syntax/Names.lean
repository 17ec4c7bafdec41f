import ScriptCore.Syntax.Basic

/-! # Names that syntax declares and carries

Which names a pattern binds, which names and functions a list of statements declares without
entering nested functions, whether a body opens with the strict directive, and the name under which
a callee appears in profiles. -/

namespace ScriptCore

/-! ### Patterns -/

mutual

/-- The names a pattern binds, in source order. Member targets bind none. -/
def Pattern.boundNames : Pattern → List String
  | .ident name => [name]
  | .member _ _ => []
  | .object properties => boundNamesOfProperties properties
  | .array elements => boundNamesOfElements elements

/-- The names bound by the targets of an object pattern. -/
def boundNamesOfProperties : List (String × Pattern) → List String
  | [] => []
  | (_, target) :: rest => target.boundNames ++ boundNamesOfProperties rest

/-- The names bound by the targets of an array pattern. -/
def boundNamesOfElements : List (Option Pattern) → List String
  | [] => []
  | some target :: rest => target.boundNames ++ boundNamesOfElements rest
  | none :: rest => boundNamesOfElements rest

end

/-! ### Statements -/

mutual

/-- The names a statement declares as variables, nested functions left out. -/
def Stmt.variables : Stmt → List String
  | .vars declarations => declarations.flatMap fun d => d.1.boundNames
  | .ifThen _ consequent alternate => consequent.variables ++ variablesOfOption alternate
  | .block statements => variablesOfList statements
  | .whileLoop _ body => body.variables
  | .tryCatch block _ handler => variablesOfList block ++ variablesOfList handler
  | _ => []

def variablesOfOption : Option Stmt → List String
  | none => []
  | some s => s.variables

def variablesOfList : List Stmt → List String
  | [] => []
  | s :: rest => s.variables ++ variablesOfList rest

end

/-- The names declared as variables by a list of statements, each once, in order of first
declaration. -/
def variableNames (statements : List Stmt) : List String :=
  (variablesOfList statements).eraseDups

mutual

/-- The functions a statement declares, nested functions left out. -/
def Stmt.functions : Stmt → List Function
  | .function f => [f]
  | .ifThen _ consequent alternate => consequent.functions ++ functionsOfOption alternate
  | .block statements => functionsOfList statements
  | .whileLoop _ body => body.functions
  | .tryCatch block _ handler => functionsOfList block ++ functionsOfList handler
  | _ => []

def functionsOfOption : Option Stmt → List Function
  | none => []
  | some s => s.functions

def functionsOfList : List Stmt → List Function
  | [] => []
  | s :: rest => s.functions ++ functionsOfList rest

end

/-- The statements open with string literals, one of which is the strict directive. -/
def hasStrictDirective : List Stmt → Bool
  | .expr (.string s) :: rest => s == "use strict" || hasStrictDirective rest
  | _ => false

/-! ### Functions -/

namespace Function

/-- The variables of the body. -/
def vars (f : Function) : List String :=
  match f.body with
  | .block statements => variableNames statements
  | .expression _ => []

/-- The functions declared anywhere in the body. -/
def functions (f : Function) : List Function :=
  match f.body with
  | .block statements => functionsOfList statements
  | .expression _ => []

/-- A function that is strict exactly when its body says so. -/
def ofBody (name : Option String) (params : List Param) (body : Body) : Function :=
  let strict := match body with
    | .block statements => hasStrictDirective statements
    | .expression _ => false
  { name, params, body, strict, arrow := false, quiet := false }

/-- An arrow function; it has no name. -/
def arrowOfBody (params : List Param) (body : Body) : Function :=
  { ofBody none params body with arrow := true }

/-- The function as strict code. -/
def asStrict (f : Function) : Function := { f with strict := true }

/-- The function as quiet code. -/
def asQuiet (f : Function) : Function := { f with quiet := true }

end Function

/-- The name under which a callee appears in profiles, if it has one. -/
def Expr.sourceName : Expr → Option String
  | .ident name => some name
  | .receiver => some "this"
  | .member base (.named name) => base.sourceName.map (· ++ "." ++ name)
  | .function f => f.name
  | _ => none

end ScriptCore
