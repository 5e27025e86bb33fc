import RtlFlow.Workbench.Value

/-!
# Commands

A command is an operation with named parameters, some of which have defaults. Arguments are given
by position or by name. Most commands are functions: their arguments are read by their types, and the
result has a value by its type.
-/

namespace RtlFlow

/-- What the commands on one netlist work with. -/
structure Bench where
  netlist : Netlist := {}
  width : Scalar := .int 32
  level : Nat := 2
  store : Active.Store := {}
  lines : List String := []
  stamp : Nat := 1
deriving Inhabited

abbrev Work := EStateM Fault Bench

namespace Work

variable {σ α : Type}

export RtlFlow (lift run)

/-- A computation on a part of the state. -/
def within {τ : Type} (part : σ → τ) (put : σ → τ → σ) (m : EStateM Fault τ α) :
    EStateM Fault σ α := do
  let s ← get
  let (r, t) := run m (part s)
  set (put s t)
  lift r

instance : MonadLift Result (EStateM Fault σ) := ⟨lift⟩

def report : Report α → Work α := within Bench.lines fun b ls => { b with lines := ls }

def active : Active.M α → Work α := within Bench.store fun b s => { b with store := s }

instance : MonadLift Report Work := ⟨report⟩
instance : MonadLift Active.M Work := ⟨active⟩

def newStamp : Work Nat := do
  let b ← get
  set { b with stamp := b.stamp + 1 }
  return b.stamp

def newTerm (t : Active.Term) : Work Value := do return .active (← active (Active.newTerm t))

def optimizer : Work Optimizer := do
  let b ← get
  return ⟨b.netlist.terms, b.netlist.consts, b.width, b.level⟩

end Work

/-! ## Parameters -/

/-- A parameter and its value where no argument is given. -/
structure Parameter where
  name : String
  default? : Option Value := none
deriving Inhabited

instance : Coe String Parameter := ⟨fun name => { name := name }⟩

/-- A parameter that may be left out. -/
def may (name : String) (v : Value) : Parameter := ⟨name, some v⟩

/-- An operation on values with its parameters. -/
structure Command (m : Type → Type) where
  parameters : List Parameter
  run : List Value → m Value

structure Arguments where
  positional : List Value := []
  named : List (String × Value) := []
deriving Inhabited

/-- The values of parameters: first those by position, then those by name, then the defaults. -/
def Arguments.fill (named : List (String × Value)) :
    List Parameter → List Value → Result (List Value)
  | [], [] => pure []
  | [], _ :: _ => throw .wrongKind
  | p :: ps, v :: vs => do
    if named.any (·.1 == p.name) then throw .wrongKind
    return v :: (← fill named ps vs)
  | p :: ps, [] => do
    match (named.lookup p.name) <|> p.default? with
    | some v => return v :: (← fill named ps [])
    | none => throw .wrongKind

def Arguments.values (a : Arguments) (ps : List Parameter) : Result (List Value) := do
  if a.named.any fun e => !ps.any (·.name == e.1) then throw .wrongKind
  fill a.named ps a.positional

abbrev Commands (m : Type → Type) := List (String × Command m)

def Commands.call {σ : Type} (cs : Commands (EStateM Fault σ)) (word : String) (args : Arguments) :
    EStateM Fault σ Value := do
  match cs.lookup word with
  | none => throw .noMember
  | some c => c.run (← args.values c.parameters)

/-! ## Functions as commands -/

/-- Types that arguments can be read as. -/
class Readable (α : Type) where
  read : Value → Result α

/-- Types whose elements can be shown as values. -/
class Showable (α : Type) where
  form : α → Value

/-- Functions that apply to values. What an argument is read from, a value or the state, is known by
its type. -/
class Takes (m : Type → Type) (φ : Type) (β : outParam Type) where
  take : φ → List Value → m β

namespace Workbench

section

variable {m : Type → Type} [Monad m] [MonadExceptOf Fault m] {φ α β : Type}

def given (a : m β) : List Value → m β
  | [] => a
  | _ :: _ => throw Fault.wrongKind

instance (priority := low) : Takes m β β := ⟨fun b => given (pure b)⟩

instance : Takes m (m β) β := ⟨given⟩

instance {n : Type → Type} [MonadLift n m] : Takes m (n β) β :=
  ⟨fun a => given (MonadLift.monadLift a)⟩

instance [MonadLift Result m] [Readable α] [Takes m φ β] : Takes m (α → φ) β where
  take f vs := match vs with
    | [] => throw Fault.wrongKind
    | v :: vs => do Takes.take (f (← Readable.read v)) vs

/-- The command that applies a function. -/
def does [Takes m φ β] [Showable β] (ps : List Parameter) (f : φ) : Command m :=
  ⟨ps, fun vs => do return Showable.form (← Takes.take f vs)⟩

def nullary [Showable β] (a : m β) : Command m := ⟨[], fun _ => do return Showable.form (← a)⟩

end

section

variable {φ β : Type} [Takes Work φ β]

instance : Takes Work (Netlist → φ) β := ⟨fun f vs => do Takes.take (f (← get).netlist) vs⟩

instance : Takes Work (Optimizer → φ) β := ⟨fun f vs => do Takes.take (f (← Work.optimizer)) vs⟩

instance : Takes Work (Active.Store → φ) β := ⟨fun f vs => do Takes.take (f (← get).store) vs⟩

end

/-! ## Readings and forms -/

instance : Readable Value := ⟨pure⟩
instance : Readable Tree := ⟨Value.toTree⟩
instance : Readable Path := ⟨Value.toPath⟩
instance : Readable Scalar := ⟨Value.toScalar⟩
instance : Readable String := ⟨Value.toText⟩
instance : Readable Binding := ⟨Value.toBinding⟩
instance : Readable Ast := ⟨Value.toAst⟩
instance : Readable Cases := ⟨Value.toCases⟩
instance : Readable (Scalar × Scalar) := ⟨Value.toPair⟩
instance : Readable Bool := ⟨fun v => do return (← v.toScalar).truth⟩
instance : Readable Int := ⟨fun v => do (← v.toScalar).toInt⟩

instance {α : Type} [Readable α] : Readable (List α) := ⟨fun v => do (← v.items).mapM Readable.read⟩

instance : Showable Value := ⟨id⟩
instance : Showable Unit := ⟨fun _ => .none⟩
instance : Showable Tree := ⟨.ofTree⟩
instance : Showable Path := ⟨.path⟩
instance : Showable Scalar := ⟨.scalar⟩
instance : Showable String := ⟨.text⟩
instance : Showable Bool := ⟨.bool⟩
instance : Showable Int := ⟨.int⟩
instance : Showable Nat := ⟨fun n => .int n⟩
instance : Showable Term := ⟨.term⟩
instance : Showable Binding := ⟨.binding⟩
instance : Showable Ast := ⟨.ofAst⟩
instance : Showable Inferred := ⟨.inferred⟩

section

variable {α β : Type} [Showable α] [Showable β]

instance : Showable (Option α) := ⟨fun a => .ofOption (a.map Showable.form)⟩

instance : Showable (α × β) := ⟨fun p => .tuple [Showable.form p.1, Showable.form p.2]⟩

instance : Showable (List α) := ⟨fun as => .tuple (as.map Showable.form)⟩

instance : Showable (List Path) := ⟨.ofPaths⟩

instance : Showable (Table α β) :=
  ⟨fun t => .map (t.keys.map Showable.form) (t.values.map Showable.form)⟩

end

end Workbench

end RtlFlow
