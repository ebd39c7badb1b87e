import SinkCheck.Decimal
import SinkCheck.Instruction

/-!
# Instruction text

The form in which events and messages show an instruction: a name with its operands in parentheses,
`Load(Reference, 1)`, or as named fields for the switches.
-/

namespace SinkCheck

def Kind.name : Kind → String
  | .int => "Int"
  | .long => "Long"
  | .float => "Float"
  | .double => "Double"
  | .reference => "Reference"

def ArrayKind.name : ArrayKind → String
  | .int => "Int"
  | .long => "Long"
  | .float => "Float"
  | .double => "Double"
  | .reference => "Reference"
  | .byte => "Byte"
  | .char => "Char"
  | .short => "Short"

def BinaryOp.name : BinaryOp → String
  | .add => "Add"
  | .sub => "Sub"
  | .mul => "Mul"
  | .div => "Div"
  | .rem => "Rem"
  | .and => "And"
  | .or => "Or"
  | .xor => "Xor"

def ShiftOp.name : ShiftOp → String
  | .shl => "Shl"
  | .shr => "Shr"
  | .ushr => "Ushr"

def Condition.name : Condition → String
  | .eq => "Eq"
  | .ne => "Ne"
  | .lt => "Lt"
  | .ge => "Ge"
  | .gt => "Gt"
  | .le => "Le"

def CompareKind.name : CompareKind → String
  | .int => "Int"
  | .reference => "Reference"

def InvokeKind.name : InvokeKind → String
  | .virtual => "Virtual"
  | .special => "Special"
  | .static => "Static"
  | .interface => "Interface"
  | .dynamic => "Dynamic"

def Shuffle.name : Shuffle → String
  | .pop => "Pop"
  | .pop2 => "Pop2"
  | .dup => "Dup"
  | .dupX1 => "DupX1"
  | .dupX2 => "DupX2"
  | .dup2 => "Dup2"
  | .dup2X1 => "Dup2X1"
  | .dup2X2 => "Dup2X2"
  | .swap => "Swap"

namespace Instruction

def name : Instruction → String
  | .nop => "Nop"
  | .nullConst => "AconstNull"
  | .intConst _ => "IntConst"
  | .longConst _ => "LongConst"
  | .floatConst _ => "FloatConst"
  | .doubleConst _ => "DoubleConst"
  | .ldc _ => "Ldc"
  | .ldc2 _ => "Ldc2"
  | .load .. => "Load"
  | .store .. => "Store"
  | .arrayLoad _ => "ArrayLoad"
  | .arrayStore _ => "ArrayStore"
  | .shuffle s => s.name
  | .binary .. => "Binary"
  | .shift .. => "Shift"
  | .neg _ => "Neg"
  | .iinc .. => "Iinc"
  | .convert .. => "Convert"
  | .compare _ => "Compare"
  | .ifZero .. => "If"
  | .ifCompare .. => "IfCmp"
  | .ifNull _ => "IfNull"
  | .ifNonNull _ => "IfNonNull"
  | .goto _ => "Goto"
  | .jsr _ => "Jsr"
  | .ret _ => "Ret"
  | .tableSwitch .. => "TableSwitch"
  | .lookupSwitch .. => "LookupSwitch"
  | .leave _ => "Return"
  | .getStatic _ => "GetStatic"
  | .putStatic _ => "PutStatic"
  | .getField _ => "GetField"
  | .putField _ => "PutField"
  | .invoke .. => "Invoke"
  | .new _ => "New"
  | .newArray _ => "NewArray"
  | .newObjectArray _ => "ANewArray"
  | .arrayLength => "ArrayLength"
  | .throw => "Athrow"
  | .checkCast _ => "CheckCast"
  | .instanceOf _ => "InstanceOf"
  | .monitorEnter => "MonitorEnter"
  | .monitorExit => "MonitorExit"
  | .newMultiArray .. => "MultiANewArray"

def operands : Instruction → List String
  | .intConst n | .longConst n => [toString n]
  | .floatConst x => [x.text]
  | .doubleConst x => [x.text]
  | .load kind slot | .store kind slot => [kind.name, toString slot]
  | .arrayLoad kind | .arrayStore kind | .newArray kind => [kind.name]
  | .binary kind op => [kind.name, op.name]
  | .shift kind op => [kind.name, op.name]
  | .neg kind | .compare kind => [kind.name]
  | .iinc slot delta => [toString slot, toString delta]
  | .convert source result => [source.name, result.name]
  | .ifZero c target => [c.name, toString target]
  | .ifCompare kind c target => [kind.name, c.name, toString target]
  | .ifNull n | .ifNonNull n | .goto n | .jsr n | .ret n => [toString n]
  | .leave none => ["None"]
  | .leave (some kind) => ["Some(" ++ kind.name ++ ")"]
  | .ldc i | .ldc2 i | .getStatic i | .putStatic i | .getField i | .putField i
  | .new i | .newObjectArray i | .checkCast i | .instanceOf i => [toString i]
  | .invoke kind i => [kind.name, toString i]
  | .newMultiArray i dimensions => [toString i, toString dimensions]
  | _ => []

def listed (items : List String) : String :=
  "[" ++ ", ".intercalate items ++ "]"

def text : Instruction → String
  | .tableSwitch fallback low targets =>
    s!"TableSwitch \x7b default: {fallback}, low: {low}, targets: {listed (targets.map toString)} \x7d"
  | .lookupSwitch fallback pairs =>
    let shown := pairs.map fun p => "(" ++ toString p.1 ++ ", " ++ toString p.2 ++ ")"
    s!"LookupSwitch \x7b default: {fallback}, pairs: {listed shown} \x7d"
  | i =>
    match i.operands with
    | [] => i.name
    | os => i.name ++ "(" ++ ", ".intercalate os ++ ")"

end Instruction

end SinkCheck
