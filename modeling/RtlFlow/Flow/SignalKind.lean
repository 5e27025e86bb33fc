import RtlFlow.Text.Search

/-!
# Kinds of signals and operators

A declared name can be of several kinds at once, such as an output that is also a register. The
kinds are the words of the declarations. A clock and a reset are told by their names.
-/

namespace RtlFlow.SignalKind

def isArray (kinds : List String) : Bool :=
  kinds.contains "WireArray" || kinds.contains "RegArray"

def isParameter (kinds : List String) : Bool :=
  kinds.contains "Parameter" || kinds.contains "Localparam"

def mentions (words : List String) (name : String) : Bool :=
  words.any fun w => Text.hasInfix w (Text.lower name)

def isClockName (name : String) : Bool := mentions ["clk", "clock"] name

def isResetName (name : String) : Bool := mentions ["reset", "rst"] name

def compareOps : List String :=
  ["LessThan", "GreaterThan", "LassEq", "GreaterEq", "Eq", "NotEq", "Eql", "NotEql"]

def isCompare (op : String) : Bool := compareOps.contains op

def isNot (op : String) : Bool := op == "Ulnot" || op == "Unot"

def isAnd (op : String) : Bool := op == "And" || op == "Land"

def isOr (op : String) : Bool := op == "Or" || op == "Lor"

def isNonCondition (op : String) : Bool := !(isCompare op || isNot op || isAnd op || isOr op)

end RtlFlow.SignalKind
