/-! # Cutting texts at a character -/

namespace Mlog.Text

/-- What stands before and after the first occurrence of a character. -/
def cutAt (sep : Char) (cs : List Char) : Option (List Char × List Char) :=
  match cs.dropWhile (· ≠ sep) with
  | [] => none
  | _ :: after => some (cs.takeWhile (· ≠ sep), after)

/-- What stands before and after the last occurrence of a character. -/
def cutAtLast (sep : Char) (cs : List Char) : Option (List Char × List Char) :=
  (cutAt sep cs.reverse).map fun (after, before) => (before.reverse, after.reverse)

/-- The lines of a text. -/
def lines (s : String) : List String := (s.toList.splitOn '\n').map String.ofList

end Mlog.Text
