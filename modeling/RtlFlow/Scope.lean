import RtlFlow.Number.Scalar

/-!
# Scopes

A design is a tree of named scopes: instances of modules, blocks, branches of conditionals,
iterations of loops, calls. A `Label` names one of them inside its parent, and a `Path` names a
scope or a signal by the labels from the top module down.

A label of kind `any` leaves its kind open and matches a label of every kind with its name and
its iteration. `==` on labels and paths is this matching.
-/

namespace RtlFlow

inductive ScopeKind where
  | generate | always | function | task | taskcall | initial | for | while | if
  | module | block | signal | functioncall
  | any
deriving DecidableEq, Repr, Inhabited

namespace ScopeKind

def all : List ScopeKind :=
  [.generate, .always, .function, .task, .taskcall, .initial, .for, .while, .if, .module, .block,
   .signal, .functioncall, .any]

def word : ScopeKind → String
  | .generate => "generate" | .always => "always" | .function => "function" | .task => "task"
  | .taskcall => "taskcall" | .initial => "initial" | .for => "for" | .while => "while"
  | .if => "if" | .module => "module" | .block => "block" | .signal => "signal"
  | .functioncall => "functioncall" | .any => "any"

def ofWord? (w : String) : Option ScopeKind := all.find? fun k => k.word == w

def isPrintable : ScopeKind → Bool
  | .module | .block | .signal | .functioncall | .any => true
  | _ => false

end ScopeKind

structure Label where
  name : String
  kind : ScopeKind := .any
  loop : Scalar := .none
deriving DecidableEq, Repr, Inhabited

namespace Label

/-- Labels match if name and iteration agree, and the kinds too unless one is left open. -/
def same (a b : Label) : Bool :=
  if a.kind = .any || b.kind = .any then a.name == b.name && a.loop.same b.loop
  else a.name == b.name && decide (a.kind = b.kind) && a.loop.same b.loop

instance : BEq Label := ⟨same⟩

/-- What the hash of a label is made of: two labels of any kinds with equal names and equal
iterations have equal hashes. -/
def sameHash (a b : Label) : Bool := a.name == b.name && a.loop.same b.loop

def toText (l : Label) : String :=
  match l.loop with
  | .none => l.name
  | loop => l.name ++ "[" ++ loop.toText ++ "]"

/-- The text for a name that is no text: it begins with a null character, which no identifier
contains. -/
def nameless (s : String) : String := "\x00" ++ s

def isWritten (l : Label) : Bool := l.name.toList.head? != some '\x00'

/-- The label's part of a flat name; empty for a scope that does not show. -/
def code (l : Label) : String := if l.kind.isPrintable then l.name else ""

end Label

structure Path where
  labels : List Label := []
deriving DecidableEq, Repr, Inhabited

namespace Path

instance : BEq Path := ⟨fun p q => p.labels == q.labels⟩

def sameHash (p q : Path) : Bool :=
  p.labels.length == q.labels.length && (p.labels.zip q.labels).all fun (a, b) => a.sameHash b

def push (p : Path) (l : Label) : Path := ⟨p.labels ++ [l]⟩

def append (p q : Path) : Path := ⟨p.labels ++ q.labels⟩

def parent (p : Path) : Path := ⟨p.labels.dropLast⟩

def length (p : Path) : Nat := p.labels.length

def dotted (p : Path) : String := Text.joinWith "." (p.labels.map Label.toText)

def written (p : Path) : Result String :=
  if p.labels.all Label.isWritten then pure p.dotted else throw .wrongKind

/-- The parts of a flat name, each label that shows followed by a joint. The value of an iteration
stands after the name of the next label that shows something or nothing. -/
def codeParts : (pending : Option String) → List Label → List String
  | _, [] => []
  | pending, l :: ls =>
    let shown := if l.code == "" then [] else [l.code]
    let joint := if l.code == "" then [] else ["_"]
    let next := if l.kind = .for then
        match l.loop with
        | .none => none
        | loop => some ("_" ++ loop.toText ++ "_")
      else none
    shown ++ pending.toList ++ joint ++ codeParts next ls

def code (p : Path) : String := String.join (codeParts none p.labels).dropLast

def modules (p : Path) : List Label := p.labels.filter fun l => l.kind = .module

/-- The path that a dotted name stands for; each label leaves its kind open. -/
def ofDotted (s : String) : Path := ⟨(Text.pieces '.' s).map fun n => { name := n }⟩

def ofNames (names : List String) : Path := ⟨names.map fun n => { name := n }⟩

def signalName (p : Path) : Result String :=
  match p.labels.getLast? with
  | some l => pure l.toText
  | none => throw .badPosition

end Path

end RtlFlow
