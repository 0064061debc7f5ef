import Abacus.Number.FloatText
import Abacus.Tree.Basic

/-!
# Trees as text

`Tree.sexpr` writes a tree with every grouping explicit: a parenthesis for each node, its kind or
operator first.
-/

namespace Abacus

namespace Tree

mutual

/-- The tree as a parenthesised expression. -/
def sexpr : Tree → String
  | .node _ (.program items) => "(program" ++ sexprSeparated items ++ ")"
  | .node _ (.list items) => "(list" ++ sexprSeparated items ++ ")"
  | .node _ (.integer value) => intText value
  | .node _ (.floating value) => floatText value
  | .node _ (.ident name) => name
  | .node _ (.infixOp op left right) =>
    "(" ++ op.text ++ " " ++ sexpr left ++ " " ++ sexpr right ++ ")"
  | .node _ (.negate operand) => "(neg " ++ sexpr operand ++ ")"
  | .node _ (.call name arguments) => "(call " ++ name ++ sexprItems arguments ++ ")"
  | .node _ (.letVar name value) => "(let " ++ name ++ " " ++ sexpr value ++ ")"
  | .node _ (.setVar name value) => "(set " ++ name ++ " " ++ sexpr value ++ ")"
  | .node _ (.ifElse condition thenBody none) =>
    "(if " ++ sexpr condition ++ " " ++ sexpr thenBody ++ ")"
  | .node _ (.ifElse condition thenBody (some elseBody)) =>
    "(if " ++ sexpr condition ++ " " ++ sexpr thenBody ++ " " ++ sexpr elseBody ++ ")"
  | .node _ (.forLoop index bound body) =>
    "(for " ++ index ++ " " ++ sexpr bound ++ " " ++ sexpr body ++ ")"
  | .node _ (.giveBack value) => "(return " ++ sexpr value ++ ")"
  | .node _ (.fnDef name parameters body) =>
    "(fn " ++ name ++ " (" ++ " ".intercalate parameters ++ ") " ++ sexpr body ++ ")"
termination_by structural t => t

/-- The items of a tree, each after a space. -/
def sexprItems : Tree → String
  | .node _ (.program items) => sexprSeparated items
  | .node _ (.list items) => sexprSeparated items
  | _ => ""
termination_by structural t => t

/-- Trees, each after a space. -/
def sexprSeparated : List Tree → String
  | [] => ""
  | first :: rest => " " ++ sexpr first ++ sexprSeparated rest
termination_by structural l => l

end

end Tree

end Abacus
