import VllmVcr.Protocol

/-!
# Wire messages

Multipart messages as they travel between a frontend and an engine, and the type frame that
opens a request.
-/

namespace VllmVcr

abbrev ZmqMessage := List (List UInt8)

inductive EngineCoreRequestType where
  | add
  | abort
  | startDpWave
  | utility
  deriving DecidableEq

def requestTypeFromFrame : List UInt8 → Option EngineCoreRequestType
  | [value] =>
    if value = 0 then some .add
    else if value = 1 then some .abort
    else if value = 2 then some .startDpWave
    else if value = 3 then some .utility
    else none
  | _ => none

end VllmVcr
