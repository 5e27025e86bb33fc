import RtlFlow.Number.Scalar
import RtlFlow.Text.Quoted

/-!
# Values of a general parser

A parser whose grammar is given as data makes values of these kinds: plain values, lists, tuples,
and tokens. `Datum.repr` is their written form.
-/

namespace RtlFlow.Grammar

inductive Datum where
  | scalar (a : Scalar)
  | list (items : List Datum)
  | tuple (items : List Datum)
  | token (kind : String) (value : Datum) (line pos : Int)
deriving Repr, Inhabited

namespace Datum

def none : Datum := .scalar .none

def text (s : String) : Datum := .scalar (.text s)

def int (n : Int) : Datum := .scalar (.int n)

def typeName : Datum → String
  | .scalar .none => "NoneType"
  | .scalar (.bool _) => "bool"
  | .scalar (.int _) => "int"
  | .scalar (.real _) => "float"
  | .scalar (.text _) => "str"
  | .list _ => "list"
  | .tuple _ => "tuple"
  | .token .. => "LexToken"

mutual

def repr : Datum → String
  | .scalar (.text s) => Text.quoted s
  | .scalar a => a.toText
  | .list items => "[" ++ Text.joinWith ", " (reprs items) ++ "]"
  | .tuple [d] => "(" ++ repr d ++ ",)"
  | .tuple items => "(" ++ Text.joinWith ", " (reprs items) ++ ")"
  | .token kind value line pos =>
    "LexToken(" ++ kind ++ "," ++ repr value ++ "," ++ Text.ofInt line ++ "," ++ Text.ofInt pos ++
      ")"

def reprs : List Datum → List String
  | [] => []
  | d :: ds => repr d :: reprs ds

end

def toText : Datum → String
  | .scalar (.text s) => s
  | d => d.repr

def truth : Datum → Bool
  | .scalar a => a.truth
  | .list items => !items.isEmpty
  | .tuple items => !items.isEmpty
  | .token .. => true

end Datum

end RtlFlow.Grammar
