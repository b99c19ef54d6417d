/-!
# File names

Files are read from one directory and written to it, and there is no directory inside it. A name is
a path from there: parts with slashes between them, where `.` and `..` stay among directories that
exist. Any other part but the last would have to be a directory, so nothing can be read or written
under such a name.
-/

namespace CodeGraph.FileName

def parts (name : String) : List String := name.splitOn "/"

def lastPart (name : String) : String := (parts name).getLastD ""

/-- The greatest number of bytes of a path. The path of the directory counts too, so this is a little
less than a page of 4096 bytes. -/
def maxPathBytes : Nat := 4072

def isStep (part : String) : Bool := part == "" || part == "." || part == ".."

/-- The greatest number of bytes of a part. -/
def maxBytes : Nat := 255

def isPlain (part : String) : Bool :=
  !isStep part && part.utf8ByteSize ≤ maxBytes && !part.toList.contains '\x00'

def isReachable (name : String) : Bool :=
  name.utf8ByteSize ≤ maxPathBytes && (parts name).dropLast.all isStep && isPlain (lastPart name)

/-- What follows the last point of the last part, unless the part begins with that point. -/
def extension? (name : String) : Option String :=
  let cs := (lastPart name).toList.reverse
  let after := cs.takeWhile (· ≠ '.')
  match cs.dropWhile (· ≠ '.') with
  | _ :: _ :: _ => some (String.ofList after.reverse)
  | _ => none

end CodeGraph.FileName
