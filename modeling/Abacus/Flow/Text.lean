import Abacus.Number.FloatText
import Abacus.Flow.Basic

/-!
# Flow graphs as text

One line per block head, instruction and terminator. A value of type `unit` has no name on the left
of its line.
-/

namespace Abacus.Flow

/-- A value is written as its number after a percent sign. -/
def Value.text (v : Value) : String := "%" ++ toString v.index

/-- A block is written as its number after `bb`. -/
def Block.text (b : Block) : String := "bb" ++ toString b.index

/-- The names of the types. -/
def Ty.text : Ty → String
  | int => "i64"
  | float => "f64"
  | bool => "bool"
  | fault => "fault"
  | unit => "unit"

/-- The names of the arithmetic operations. -/
def Arith.text : Arith → String
  | add => "add"
  | sub => "sub"
  | mul => "mul"
  | div => "div"

/-- The names of the comparisons. -/
def Compare.text : Compare → String
  | less => "lt"
  | greater => "gt"
  | equal => "eq"
  | notEqual => "ne"

/-- Texts with a comma and a space between them. -/
def commas (texts : List String) : String := ", ".intercalate texts

/-! ## The long form of an instruction

Constructor and fields in full. It is used only where an instruction stands in a place that is not
meant for it. -/

/-- A value in long form. -/
def Value.longText (v : Value) : String := "Value(" ++ toString v.index ++ ")"

/-- A block in long form. -/
def Block.longText (b : Block) : String := "Block(" ++ toString b.index ++ ")"

/-- A list in long form. -/
def longList (texts : List String) : String := "[" ++ commas texts ++ "]"

/-- A constructor with named fields in long form. -/
def longRecord (name : String) (fields : List (String × String)) : String :=
  name ++ " \x7b " ++ commas (fields.map fun (field, text) => field ++ ": " ++ text) ++ " \x7d"

/-- An arithmetic operation in long form. -/
def Arith.longText : Arith → String
  | add => "Add"
  | sub => "Sub"
  | mul => "Mul"
  | div => "Div"

/-- A comparison in long form. -/
def Compare.longText : Compare → String
  | less => "Lt"
  | greater => "Gt"
  | equal => "Eq"
  | notEqual => "Ne"

/-- An instruction in long form. -/
def Inst.longText : Inst → String
  | intConst n => "IConst(" ++ intText n ++ ")"
  | floatConst x => "FConst(" ++ floatText x ++ ")"
  | param index => "Param(" ++ toString index ++ ")"
  | intArith op lhs rhs => binary "IBinary" op.longText lhs rhs
  | floatArith op lhs rhs => binary "FBinary" op.longText lhs rhs
  | intCompare op lhs rhs => binary "ICmp" op.longText lhs rhs
  | floatCompare op lhs rhs => binary "FCmp" op.longText lhs rhs
  | boolToInt v => unary "ZExt" v
  | intToFloat v => unary "SiToFp" v
  | floatToInt v => unary "FpToSi" v
  | phi incoming =>
    "Phi(" ++ longList (incoming.map fun (b, v) => "(" ++ b.longText ++ ", " ++ v.longText ++ ")")
      ++ ")"
  | call callee arguments =>
    longRecord "Call" [("callee", callee.quote), ("args", longList (arguments.map Value.longText))]
  | faultAlloc code typeId =>
    longRecord "FaultAlloc" [("code", intText code), ("type_id", intText typeId)]
  | landingPad => "LandingPad"
  | faultSelector v => unary "FaultSelector" v
  | faultTypeId typeId => "FaultTypeId(" ++ intText typeId ++ ")"
  | beginCatch v => unary "BeginCatch" v
  | reportFault v => unary "ReportFault" v
  | endCatch => "EndCatch"
  | callUnexpected v => unary "CallUnexpected" v
where
  /-- A constructor with an operation and two operands. -/
  binary (name op : String) (lhs rhs : Value) : String :=
    longRecord name [("op", op), ("lhs", lhs.longText), ("rhs", rhs.longText)]
  /-- A constructor with one operand. -/
  unary (name : String) (v : Value) : String := name ++ "(" ++ v.longText ++ ")"

/-! ## Lines -/

/-- A callee and its arguments. -/
def callText (callee : String) (arguments : List Value) : String :=
  "@" ++ callee ++ "(" ++ commas (arguments.map Value.text) ++ ")"

/-- The right side of an instruction of type `ty`. -/
def Inst.text (ty : Ty) : Inst → String
  | intConst n => "iconst " ++ intText n
  | floatConst x => "fconst " ++ floatText x
  | param index => "param " ++ toString index
  | intArith op lhs rhs => op.text ++ " i64 " ++ pair lhs rhs
  | floatArith op lhs rhs => "f" ++ op.text ++ " f64 " ++ pair lhs rhs
  | intCompare op lhs rhs => "icmp " ++ op.text ++ " i64 " ++ pair lhs rhs
  | floatCompare op lhs rhs => "fcmp " ++ op.text ++ " f64 " ++ pair lhs rhs
  | boolToInt v => "zext bool " ++ v.text ++ " to i64"
  | intToFloat v => "sitofp i64 " ++ v.text ++ " to f64"
  | floatToInt v => "fptosi f64 " ++ v.text ++ " to i64"
  | phi incoming =>
    let operands := incoming.map fun (b, v) => "[" ++ b.text ++ ": " ++ v.text ++ "]"
    "phi " ++ ty.text ++ (if operands.isEmpty then "" else " " ++ commas operands)
  | call callee arguments => "call " ++ ty.text ++ " " ++ callText callee arguments
  | faultAlloc code typeId => "fault.alloc " ++ intText code ++ ", type " ++ intText typeId
  | landingPad => "landingpad"
  | faultSelector v => "fault.selector " ++ v.text
  | faultTypeId typeId => "fault.typeid " ++ intText typeId
  | beginCatch v => "fault.begin_catch " ++ v.text
  | reportFault v => "fault.report " ++ v.text
  | endCatch => "fault.end_catch"
  | callUnexpected v => "fault.unexpected " ++ v.text
where
  /-- Two operands. -/
  pair (lhs rhs : Value) : String := lhs.text ++ ", " ++ rhs.text

namespace Function

/-- The line of a value: its name unless it is of type `unit`, and its instruction. -/
def valueText (f : Function) (v : Value) : String :=
  let info := f.value v
  (if info.ty = .unit then "" else v.text ++ " = ") ++ info.inst.text info.ty

/-- The line of a terminator. -/
def terminatorText (f : Function) : Terminator → String
  | .jump dest => "jump " ++ dest.text
  | .branch condition thenDest elseDest =>
    "br " ++ commas [condition.text, thenDest.text, elseDest.text]
  | .ret v => "ret " ++ v.text
  | .invoke call normal unwind =>
    let info := f.value call
    match info.inst with
    | .call callee arguments =>
      call.text ++ " = invoke " ++ info.ty.text ++ " " ++ callText callee arguments ++ " to " ++
        normal.text ++ " unwind " ++ unwind.text
    | other => "invoke <malformed " ++ other.longText ++ ">"
  | .raise v => "fault.raise " ++ v.text
  | .resume v => "resume " ++ v.text
  | .unreachable => "unreachable"

/-- The lines of a block. -/
def blockText (f : Function) (b : Block) : String :=
  let info := f.block b
  let preds := if info.preds.isEmpty then ""
    else "  ; preds = " ++ commas (info.preds.map Block.text)
  let head := b.text ++ "." ++ info.label ++ ":" ++ preds ++ "\n"
  let lines := (info.phis ++ info.insts.toList).map fun v => "    " ++ f.valueText v ++ "\n"
  let last := match info.terminator? with
    | some terminator => "    " ++ f.terminatorText terminator ++ "\n"
    | none => "    ; <unterminated>\n"
  head ++ String.join lines ++ last

/-- The text of a function: its head, its blocks and a closing brace. -/
def text (f : Function) : String :=
  "fn @" ++ f.name ++ "(" ++ commas (f.params.map Ty.text) ++ ") -> " ++ f.result.text ++
    " \x7b\n" ++ String.join (f.blockIds.map f.blockText) ++ "\x7d\n"

end Function

/-- The text of a module: its functions with an empty line between them. -/
def Module.text (m : Module) : String := "\n".intercalate (m.functions.map Function.text)

end Abacus.Flow
