import Mathlib.Data.List.Basic

set_option autoImplicit false

/-!
# Syntax of function bodies

The expressions and statements of `compiler/ast.py` that a function body is made of. Operands of
an operation stand in the order in which `emit_expr` emits them. Types are left out, and so are
the literal patterns of `match`, which name nothing.
-/
namespace NewClLang.Syntax

/-- A name that a construct introduces. `decl` tells the declarations of a function apart. -/
structure Binder where
  decl : ℕ
  name : String

inductive BinaryOp where
  | logicalAnd
  | logicalOr
  | strict (symbol : String)

/-- Expressions that evaluate all their operands and then act on the values. -/
inductive Operation where
  | unary (symbol : String)
  | binary (op : BinaryOp)
  | call (name : String)
  | methodCall (name : String)
  | fieldAccess (field : String)
  | indexAccess
  | sliceExpr
  | arrayLiteral
  | sliceLiteral
  | mapLiteral
  | structLiteral (name : String) (heap : Bool)
  | interpolatedString

/-- The operator after a fallible call: `??` propagates the error, `!!` stops the program. -/
inductive FallibleOperator where
  | propagate
  | unwrap

/-- `Return` and `ErrReturn`, as statements and as expressions. -/
inductive Exit where
  | ret
  | err

mutual

inductive Expr where
  | literal
  | identifier (occ : ℕ) (name : String)
  | operation (op : Operation) (operands : List Expr)
  | ifExpr (condition : Expr) (thenBlock elseBlock : List Stmt)
  | blockExpr (block : List Stmt)
  | matchExpr (scrutinee : Expr) (bodies : List Expr)
  | fallibleOp (op : FallibleOperator) (call : Expr)
  | errorHandler (call : Expr) (error : Binder) (handler : List Stmt)
  | errorMatch (call : Expr) (error : Binder) (bodies : List Expr)
  | functionExpr (captures : List (ℕ × String)) (params : List Binder) (body : List Stmt)
      (tail : Option Expr)
  | exit (kind : Exit) (value : Expr)

inductive Stmt where
  | variableDecl (binder : Binder) (initializer : Expr)
  | expression (expr : Expr)
  | assignment (target value : Expr)
  | forCondition (condition : Expr) (body : List Stmt)
  | forRange (index : Binder) (start stop : Expr) (body : List Stmt)
  | forIn (index value : Binder) (iterable : Expr) (body : List Stmt)
  | tryCall (call : Expr) (success : Option Binder) (successBlock : List Stmt)
      (error : Option Binder) (errorBlock : List Stmt)
  | defer (body : List Stmt)
  | spawn (function : Expr)
  | breakStmt

end

end NewClLang.Syntax
