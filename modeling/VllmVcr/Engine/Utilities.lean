import VllmVcr.Engine.Loop

/-!
# Utility calls

The arguments of a utility call are any value. Two methods decode theirs, and an argument that does
not decode is an error of `handle_input`, which ends the engine loop.
-/

namespace VllmVcr

variable {env : Env}

namespace SimEngine

variable (e : SimEngine env)

end SimEngine

end VllmVcr
