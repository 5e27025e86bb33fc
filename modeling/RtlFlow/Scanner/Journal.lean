import RtlFlow.Fault

/-!
# Journals

Building a scanner or a parser writes two journals: one of findings about the definitions, and
one that tells the steps of the work. A finding is a warning, or an error that makes the building
fail when all findings have been written.
-/

namespace RtlFlow.Scanner

structure Journal where
  findings : List String := []
  steps : List String := []
  failed : Bool := false
deriving Repr, Inhabited

abbrev Building := EStateM Fault Journal

namespace Building

def warn (text : String) : Building Unit :=
  modify fun j => { j with findings := ("WARNING: " ++ text) :: j.findings }

def refuse (text : String) : Building Unit :=
  modify fun j => { j with findings := ("ERROR: " ++ text) :: j.findings, failed := true }

def remark (text : String) : Building Unit :=
  modify fun j => { j with findings := text :: j.findings }

def note (text : String) : Building Unit :=
  modify fun j => { j with steps := text :: j.steps }

end Building

end RtlFlow.Scanner
