import HotSwap.Json.Decode
import HotSwap.Json.Writer
import HotSwap.Report.Basic

namespace HotSwap.PatchReport

open Json

def toJson (r : PatchReport) : List Char :=
  braced [field "swapped" (strings r.swapped),
    field "unchanged" (strings r.unchanged),
    field "added" (strings r.added),
    field "removed" (strings r.removed),
    field "contexts_patched" (strings r.contextsPatched),
    field "contexts_added" (strings r.contextsAdded),
    field "contexts_removed" (strings r.contextsRemoved)]

structure Slots where
  swapped : Option (List String) := none
  unchanged : Option (List String) := none
  added : Option (List String) := none
  removed : Option (List String) := none
  contextsPatched : Option (List String) := none
  contextsAdded : Option (List String) := none
  contextsRemoved : Option (List String) := none

def ids : Reader (List String) := Reader.list Reader.string

def member (key : String) (s : Slots) : Reader Slots := do
  match key with
  | "swapped" => return { s with swapped := some (← Reader.once key s.swapped ids) }
  | "unchanged" => return { s with unchanged := some (← Reader.once key s.unchanged ids) }
  | "added" => return { s with added := some (← Reader.once key s.added ids) }
  | "removed" => return { s with removed := some (← Reader.once key s.removed ids) }
  | "contexts_patched" =>
    return { s with contextsPatched := some (← Reader.once key s.contextsPatched ids) }
  | "contexts_added" =>
    return { s with contextsAdded := some (← Reader.once key s.contextsAdded ids) }
  | "contexts_removed" =>
    return { s with contextsRemoved := some (← Reader.once key s.contextsRemoved ids) }
  | _ => Reader.ignored; return s

def finish (s : Slots) : Reader PatchReport := do
  let swapped ← Reader.required "swapped" s.swapped
  let unchanged ← Reader.required "unchanged" s.unchanged
  let added ← Reader.required "added" s.added
  let removed ← Reader.required "removed" s.removed
  let contextsPatched ← Reader.required "contexts_patched" s.contextsPatched
  let contextsAdded ← Reader.required "contexts_added" s.contextsAdded
  let contextsRemoved ← Reader.required "contexts_removed" s.contextsRemoved
  return { swapped, unchanged, added, removed, contextsPatched, contextsAdded, contextsRemoved }

def positional : Reader PatchReport := do
  let next (n : Nat) : Reader (List String) :=
    Reader.item (n == 0) ids (Reader.mismatch (.wrongLength n "PatchReport" 7))
  let swapped ← next 0
  let unchanged ← next 1
  let added ← next 2
  let removed ← next 3
  let contextsPatched ← next 4
  let contextsAdded ← next 5
  let contextsRemoved ← next 6
  return { swapped, unchanged, added, removed, contextsPatched, contextsAdded, contextsRemoved }

def reader : Reader PatchReport := Reader.record "PatchReport" {} member finish positional

end HotSwap.PatchReport
