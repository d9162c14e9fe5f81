import Pear.Converge

/-!
# A device's converge

One device between its tree and the relay's head, with a converge as one step (`Device.converge`):
merge, refuse an invalid result, materialize, publish unless the head already holds the merge, and
record. `Device.converge_cases` says all that it can do. A converge can also stop on the way
(`Device.interrupt`).
-/

namespace Pear

/-- A device and the relay's head as it finds it. -/
structure Device where
  /-- What a scan of the tree records. -/
  tree : FileMap
  /-- The file set of `.pear/manifest.json`. -/
  recorded : FileMap
  /-- The relay's head; `none` before the first publication. -/
  head : Option FileMap
  /-- Every conflict copy made so far. -/
  copies : List ConflictCopy
  /-- The last converge completed. -/
  completed : Bool
deriving DecidableEq

/-- The head's file set, empty when there is no head. -/
def Device.remote (s : Device) : FileMap := s.head.getD ∅

/-- The merge a converge of this device computes. -/
def Device.outcome (device : Text) (s : Device) (stamp : Text) : MergeOutcome :=
  mergeFiles s.recorded s.tree s.remote device stamp

/-- One converge: merge, refuse an invalid result, materialize, then publish unless the head already
holds the merge (`converge_once`, with no other writer to lose a race to). -/
def Device.converge (device : Text) (s : Device) (stamp : Text) (now : Int × Int) (lost : Bool) : Device :=
  let out := s.outcome device stamp
  match validate out.merged, place now s.tree s.tree out with
  | .ok (), some tree =>
    let placed := { s with
      tree := tree
      recorded := recordedAfter s.recorded s.tree s.remote out
      copies := s.copies ++ out.conflicts }
    if s.head = some out.merged.files then
      { placed with recorded := out.merged.files, completed := true }
    else if lost then { placed with head := some out.merged.files, completed := false }
    else
      { placed with
        head := some out.merged.files, recorded := out.merged.files, completed := true }
  | _, _ => { s with completed := false }

/-- The device after a converge stopped at a cut: it published nothing and did not record the
merge. -/
def Device.interrupt (device : Text) (s : Device) (stamp : Text) (now : Int × Int) (cut : Cut) :
    Device :=
  let out := s.outcome device stamp
  match validate out.merged with
  | .error _ => s
  | .ok () =>
    { s with
      tree := cutPlace now s.tree s.tree out cut
      recorded := cutRecorded s.recorded s.tree s.remote out cut }

end Pear
