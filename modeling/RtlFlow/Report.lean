import RtlFlow.Fault

/-!
# Computations that write lines

Some analyses tell what they do, line by line. The lines that were written stay written when the
computation ends with a fault.
-/

namespace RtlFlow

abbrev Report := EStateM Fault (List String)

def Report.say (line : String) : Report Unit := modify (line :: ·)

end RtlFlow
