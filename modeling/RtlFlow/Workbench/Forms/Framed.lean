import RtlFlow.Workbench.Forms.Declared

/-!
# Forms of frames
-/

namespace RtlFlow.Workbench

open Design

/-! ## Values -/

/-- What a frame is made of besides its path and the one of the scope around it. -/
def frameParameters : List Parameter := [
  may "frametype" (.text "none"), may "alwaysinfo" .none, may "condition" .none,
  may "module" (.bool false), may "functioncall" (.bool false), may "taskcall" (.bool false),
  may "generate" (.bool false), may "always" (.bool false), may "initial" (.bool false),
  may "loop" .none, may "loop_iter" .none, may "modulename" .none]

/-- A frame out of its parameters. -/
def frameOf (kind : String) (always : Value) (condition : Ast)
    (isModule isFunctionCall isTaskCall isGenerate isAlways isInitial : Bool) (loop : Scalar)
    (loopName moduleName : Ast) : Frame where
  kind := kind
  sensitivity := match always with
    | .always s => some s
    | _ => none
  condition := condition
  toMarks := ⟨isModule, isFunctionCall, isTaskCall, isGenerate, isAlways, isInitial⟩
  loop := loop
  loopName := loopName
  moduleName := moduleName

instance : Showable Definition := ⟨fun _ => .object "DefinitionInfo"⟩
instance : Showable Sensitivity := ⟨.always⟩

def blockingIn (slots : Slots) (f : Frame) : Bindings := f.blocking.mapValues (inSlots slots)

def sensitivityParameters : List Parameter := [
  may "clock_name" (.text ""), may "clock_edge" .none, may "clock_bit" (.int 0),
  may "reset_name" (.text ""), may "reset_edge" .none, may "reset_bit" (.int 0),
  may "senslist" (.tuple [])]

def shows {α β : Type} [Showable β] (f : α → β) (a : α) : Value := Showable.form (f a)

/-- What is read off a frame and off the frame of the current scope. -/
def frameFacts : List (String × (Frame → Value)) := [
  ("frametype", shows Frame.kind),
  ("always info", shows Frame.sensitivity),
  ("condition", shows Frame.condition),
  ("is module", shows (·.isModule)),
  ("is functioncall", shows (·.isFunctionCall)),
  ("is taskcall", shows (·.isTaskCall)),
  ("is generate", shows (·.isGenerate)),
  ("is always", shows (·.isAlways)),
  ("is initial", shows (·.isInitial)),
  ("module name", shows Frame.moduleName),
  ("nonblocking assigns", shows Frame.nonblocking)]

/-! ## One frame -/

/-- A frame with the bindings that its slots stand for. -/
structure Slotted where
  frame : Frame := {}
  slots : Slots := #[]

section

variable {φ β : Type}

def ofFrame [Takes (At Slotted) φ β] [Showable β] (ps : List Parameter) (f : Frame → φ) :
    Command (At Slotted) :=
  asks ps fun s => f s.frame

def changeFrame [Takes (At Slotted) φ Frame] (ps : List Parameter) (f : Frame → φ) :
    Command (At Slotted) :=
  changesIn Slotted.frame (fun s f => { s with frame := f }) ps f

end

def Slotted.setBlocking (s : Slotted) (dst : Path) (b : Binding) : Result Slotted := do
  let slots := s.slots.push b
  let (f, slots) ← s.frame.setBlocking slots dst s.slots.size
  return ⟨f, slots⟩

/-- One frame. -/
def frameForm : Form Slotted where
  parameters := "name" :: "previous" :: frameParameters
  make vs := match vs with
    | name :: previous :: rest => do
      let f : Frame ← Takes.take frameOf rest
      let previous ← match previous with
        | .none => pure {}
        | v => v.toPath
      return { frame := { f with name := ← name.toPath, previous } }
    | _ => throw .wrongKind
  commands :=
    (frameFacts.map fun (word, f) => (word, ofFrame [] f)) ++ [
    ("name", ofFrame [] Frame.name),
    ("previous", ofFrame [] Frame.previous),
    ("next", ofFrame [] fun f => Value.list (f.next.map .path)),
    ("is ifelse", ofFrame [] Frame.isElse),
    ("set next", changeFrame ["nextframe"] fun f p => { f with next := f.next ++ [p] }),
    ("set always info", ⟨sensitivityParameters.map ({ · with default? := none }), fun vs => do
      let stamp ← Work.newStamp
      let s ← At.thing
      At.put { s with frame.sensitivity := some (← Value.toSensitivity stamp vs) }
      return .none⟩),
    ("add signal", changeFrame ["node"] Frame.addSignal),
    ("add const", changeFrame ["node"] Frame.addConst),
    ("add genvar", changeFrame ["node"] Frame.addGenvar),
    ("add function", changeFrame ["node"] Frame.addFunction),
    ("add task", changeFrame ["node"] Frame.addTask),
    ("add function port", changeFrame ["node"] Frame.addFunctionPort),
    ("add task port", changeFrame ["node"] Frame.addTaskPort),
    ("update signal", changeFrame ["signal"] fun f ds =>
      { f with vars.signals := f.vars.signals.putAll ds }),
    ("update const", changeFrame ["const"] fun f ds =>
      { f with vars.consts := f.vars.consts.putAll ds }),
    ("constant", ofFrame ["name"] fun f => entryOf f.vars.consts),
    ("has constant", ofFrame ["name"] fun f => f.vars.consts.contains),
    ("signal", ofFrame ["name"] fun f => entryOf f.vars.signals),
    ("has signal", ofFrame ["name"] fun f => f.vars.signals.contains),
    ("signals", ofFrame [] fun f => f.vars.signals),
    ("consts", ofFrame [] fun f => f.vars.consts),
    ("functions", ofFrame [] fun f => f.functions.table),
    ("tasks", ofFrame [] fun f => f.tasks.table),
    ("set blocking assign", changes ["dst", "bind"] Slotted.setBlocking),
    ("blocking assign", asks ["dst"] fun s p => inSlots s.slots (s.frame.blockingTo p)),
    ("blocking assigns", asks [] fun s => blockingIn s.slots s.frame),
    ("add nonblocking assign", changeFrame ["dst", "bind"] Frame.addNonblocking)]
  shown s _ := pure (.frame s.frame)

/-! ## All frames -/

/-- The frames of a design with the bindings of their slots. -/
structure Framing where
  frames : Frames := {}
  slots : Slots := #[]

section

variable {φ β : Type}

def ofHere [Showable β] (f : Frame → β) : Command (At Framing) :=
  asks [] fun s => f <$> s.frames.here

def changeFrames [Takes (At Framing) φ Frames] (ps : List Parameter) (f : Frames → φ) :
    Command (At Framing) :=
  changesIn Framing.frames (fun s fs => { s with frames := fs }) ps f

/-- A mark of the frames is set and removed. -/
def marking (word : String) (f : Frames → Bool → Frames) : Commands (At Framing) :=
  [("set " ++ word, changeFrames [] (f · true)), ("unset " ++ word, changeFrames [] (f · false))]

/-- A declaration in the current frame. -/
def addsHere (add : Frame → Ast → Result Frame) : Command (At Framing) :=
  changeFrames ["var"] fun fs t => fs.update (add · t)

/-- What is read off the frame of a scope. -/
def atScope [Showable β] (f : Framing → Path → Frame → β) : Command (At Framing) :=
  asks ["scope"] fun s p => f s p <$> s.frames.at? p

end

/-- The scope and the declarations that a search has found. -/
def found : Option (Path × List Ast) → Value
  | some f => Showable.form f
  | none => .tuple [.none, .none]

/-- The labels that a value adds to a path. -/
def labelsOf : Value → Result (List Label)
  | .none => pure []
  | .label l => pure [l]
  | .path p => pure p.labels
  | _ => throw .unboundName

def hasFrame (s : Framing) : Value → Bool
  | .path p => s.frames.table.contains p
  | _ => false

/-- The path of a scope below the current one. -/
def below (s : Framing) (v : Value) : Result Path := do
  return ⟨s.frames.current.labels ++ (← labelsOf v)⟩

def framesStateCommands : Commands (At Framing) :=
  (frameFacts.map fun (word, f) => (word, ofHere f)) ++
  marking "function def" (fun fs b => { fs with inFunction := b }) ++
  marking "task def" (fun fs b => { fs with inTask := b }) ++
  marking "for pre" (fun fs b => { fs with inForPre := b }) ++
  marking "for post" (fun fs b => { fs with inForPost := b }) ++ [
  ("to scope chain", asks ["scopename"] below),
  ("add frame", ⟨"scopename" :: frameParameters, fun vs => match vs with
    | name :: rest => do
      let s ← At.thing
      let labels ← labelsOf name
      At.put { s with frames := ← s.frames.add labels (← Takes.take frameOf rest) }
      return .path s.frames.current
    | [] => throw .wrongKind⟩),
  ("has frame", asks ["scope"] hasFrame),
  ("loop", ofHere Frame.loop),
  ("loop iter", ofHere Frame.loopName),
  ("is functiondef", asks [] fun s => s.frames.inFunction),
  ("is taskdef", asks [] fun s => s.frames.inTask),
  ("is forpre", asks [] fun s => s.frames.inForPre),
  ("is forpost", asks [] fun s => s.frames.inForPost),
  ("set for iter", changeFrames ["iter"] fun fs t => { fs with loopName := t }),
  ("for iter", asks [] fun s => s.frames.loopName),
  ("set always info", ⟨sensitivityParameters, fun vs => do
    let stamp ← Work.newStamp
    let s ← At.thing
    let waits ← Value.toSensitivity stamp vs
    At.put { s with frames := ← s.frames.update fun f => pure { f with sensitivity := waits } }
    return .none⟩),
  ("set current", changeFrames ["current"] Frames.goTo),
  ("current", asks [] fun s => s.frames.current),
  ("label key", asks ["name"] fun s => s.frames.labelKey)]

def updateSignals (fs : Frames) (v : Value) : Result Frames := fs.update fun f => do
  return { f with vars.signals := f.vars.signals.putAll (← Readable.read v) }

def updateConsts (fs : Frames) (v : Value) : Result Frames := fs.update fun f => do
  return { f with vars.consts := f.vars.consts.putAll (← Readable.read v) }

/-- What a search for the nearest declaration of a name finds. -/
def nearest (search : Frames → String → Path → Result (Option (Path × List Ast))) (fs : Frames)
    (scope : Value) (name : String) : Result Value := do
  return found (← search fs name (← scope.toPath))

def constantIn (fs : Frames) (scope : Path) (name : Value) : Result (Option (List Ast)) := do
  let f ← fs.at? scope
  return f.vars.consts.get? (← name.toText)

def framesDeclaredCommands : Commands (At Framing) := [
  ("add signal", changeFrames ["var"] Frames.addSignal),
  ("add const", addsHere Frame.addConst),
  ("add genvar", addsHere Frame.addGenvar),
  ("add function", addsHere Frame.addFunction),
  ("add task", addsHere Frame.addTask),
  ("update signal", changeFrames ["signal"] updateSignals),
  ("update const", changeFrames ["const"] updateConsts),
  ("all instances", asks [] fun s => s.frames.allInstances),
  ("all signals", asks [] fun s => s.frames.allSignals),
  ("all consts", asks [] fun s => s.frames.allConsts),
  ("all functions", asks [] fun s => s.frames.allFunctions),
  ("all tasks", asks [] fun s => s.frames.allTasks),
  ("signals", atScope fun _ p f => Frames.below p .signal f.vars.signals.entries),
  ("consts", atScope fun _ p f => Frames.below p .signal f.vars.consts.entries),
  ("functions", atScope fun _ p f => Frames.below p .function f.functions.table.entries),
  ("tasks", atScope fun _ p f => Frames.below p .task f.tasks.table.entries),
  ("search constant definition", asks ["key", "name"] fun s => nearest Frames.nearestConst s.frames),
  ("constant definition", asks ["key", "name"] fun s => constantIn s.frames),
  ("search signal definition", asks ["key", "name"] fun s => nearest Frames.nearestSignal s.frames),
  ("search matched scope chain", asks ["currentchain", "targetchain"] fun s p (q : Path) =>
    s.frames.matched p q.labels)]

def setBlockingAt (s : Framing) (dst : Path) (v : Value) (p : Path) : Result Framing := do
  let f ← s.frames.at? p
  let t ← Slotted.setBlocking ⟨f, s.slots⟩ dst (← v.toBinding)
  return ⟨{ s.frames with table := s.frames.table.put p t.frame }, t.slots⟩

def framesAssignedCommands : Commands (At Framing) := [
  ("generate conditions", asks [] fun s => s.frames.generateConditions),
  ("always status", asks [] fun s => s.frames.alwaysStatus),
  ("set blocking assign", changes ["dst", "bind", "scope"] setBlockingAt),
  ("blocking assign", asks ["dst", "scope"] fun s dst p =>
    inSlots s.slots <$> s.frames.blockingTo dst p),
  ("add nonblocking assign", changeFrames ["dst", "bind"] fun fs dst b =>
    fs.update (·.addNonblocking dst b)),
  ("blocking assigns", asks [] fun s => blockingIn s.slots <$> s.frames.here),
  ("blocking assigns scope", atScope fun s _ f => blockingIn s.slots f),
  ("previous nonblocking assign", asks [] fun s => s.frames.previousNonblocking)]

/-- The frames of a design. -/
def framesForm : Form Framing where
  parameters := [may "moduleinfotable" .none]
  make _ := pure {}
  commands := framesStateCommands ++ framesDeclaredCommands ++ framesAssignedCommands
  shown s _ := pure (.list [.text s.frames.current.dotted,
    .list ((sortWords (s.frames.table.keys.map Path.dotted)).map .text)])

end RtlFlow.Workbench
