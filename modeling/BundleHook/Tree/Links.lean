import BundleHook.Tree.Basic

/-!
# Following links

Every path has a form without links and without ways back up. A name that does not stand in the tree
is taken as it is, so that a path to a file that is yet to be written has that form as well. Links
that lead back to themselves have no such form.
-/

namespace BundleHook

/-- Where the links on the way lead. -/
inductive Destination where
  | plain (path : Path)
  /-- A link that is on its own way, with the names that were left to go. -/
  | circle (names : List Text)

namespace Tree

/-- Goes on from `here`, where no link stands; the links in `fresh` are not being followed yet. -/
def follow (t : Tree) (fresh : List Path) (here : Path) : List Text → Destination
  | [] => .plain here
  | name :: others =>
    if Path.staysPut name then follow t fresh here others
    else if name = Path.upName then follow t fresh here.parent others
    else
      match t.entry? (here.child name) with
      | some (.link target) =>
        if _h : here.child name ∈ fresh then
          match follow t (fresh.erase (here.child name)) (Path.startOf here target)
              (Text.splitOn '/' target) with
          | .plain path => follow t fresh path others
          | .circle names => .circle (names ++ others)
        else .circle ((here.child name).names ++ others)
      | _ => follow t fresh (here.child name) others
termination_by names => (fresh.length, names.length)
decreasing_by
  all_goals simp_wf
  · exact .right _ (by omega)
  · exact .right _ (by omega)
  · refine .left _ _ ?_
    rw [List.length_erase_of_mem _h]
    have := List.length_pos_of_mem _h
    omega
  · exact .right _ (by omega)
  · exact .right _ (by omega)

/-- The form of a path without links; the path where it runs into a circle of links when it does. -/
def resolve (t : Tree) (p : Path) : Except Path Path :=
  match t.follow t.links .top p.names with
  | .plain path => .ok path
  | .circle names =>
    let path := Path.collapse (names.filter fun name => !Path.staysPut name)
    match t.look path with
    | .error .manyLinks => .error path
    | _ => .ok path

end Tree

end BundleHook
