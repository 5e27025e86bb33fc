import RtlFlow.Workbench.Forms.Controlled
import RtlFlow.Workbench.Forms.Parsed
import RtlFlow.Workbench.Forms.Scopes
import RtlFlow.Workbench.Forms.Wired

/-!
# The kinds of sessions
-/

namespace RtlFlow.Workbench

/-- The kinds of things that a session can keep. -/
inductive Kind where
  | path | label | counters | declarations | vars | definitions | modules | frame | frames
  | wiring | sensitivity | machine | activeTerm | condition | conditions | inferred | term
  | binding | names | node
deriving DecidableEq, Repr, Inhabited

def Kind.form : Kind → Sigma Form
  | .path => ⟨_, pathForm⟩
  | .label => ⟨_, labelForm⟩
  | .counters => ⟨_, counterForm⟩
  | .declarations => ⟨_, declarationForm⟩
  | .vars => ⟨_, variableForm⟩
  | .definitions => ⟨_, definitionForm⟩
  | .modules => ⟨_, moduleForm⟩
  | .frame => ⟨_, frameForm⟩
  | .frames => ⟨_, framesForm⟩
  | .wiring => ⟨_, wiringForm⟩
  | .sensitivity => ⟨_, sensitivityForm⟩
  | .machine => ⟨_, machineForm⟩
  | .activeTerm => ⟨_, activeTermForm⟩
  | .condition => ⟨_, conditionForm⟩
  | .conditions => ⟨_, conditionsForm⟩
  | .inferred => ⟨_, inferredForm⟩
  | .term => ⟨_, termForm⟩
  | .binding => ⟨_, bindingForm⟩
  | .names => ⟨_, nameForm⟩
  | .node => ⟨_, nodeForm⟩

/-- The outcome of a session: the answers of its commands and the lines that were written, or the
fault of its beginning. -/
def Kind.run (k : Kind) (args : Work Arguments) (calls : List (String × Work Arguments)) :
    Result (List Answer) × List String :=
  match Session.start k.form.2 args {} with
  | (.error f, b) => (.error f, b.lines)
  | (.ok s, b) =>
    let (as, b) := s.run calls b
    (.ok as, b.lines)

end RtlFlow.Workbench
