/-!
# Paths

A path is kept as it is written, because it is read in two ways. A file system follows every part:
`.` asks for a directory, and a slash at the end does so too. Paths are compared, and the path above
a path is found, by the parts that count; there `.` and empty parts stand for nothing.
-/

namespace BlockDir

/-- A path as it is written: what stands between its slashes. A path from the top starts with an
empty part. -/
abbrev Path := List String

namespace Path

/-- Cuts a path at its slashes. -/
def parse (text : String) : Path := (text.toList.splitOn '/').map String.ofList

/-- Whether a part stands for nothing. -/
def isIdle (part : String) : Bool := part = "" || part = "."

/-- The parts that count. -/
def names (path : Path) : Path := path.filter fun part => !isIdle part

/-- The form in which paths are compared. A first part counts also if it is `.`, or if it is empty
and says that the path is one from the top. -/
def normal : Path → Path
  | [] | [""] => []
  | first :: rest => first :: names rest

/-- Whether two texts are the same path. -/
def same (a b : String) : Bool := normal (parse a) = normal (parse b)

/-- Whether a text is a path from the top. -/
def isFromTop (text : String) : Bool := text.toList.head? = some '/'

/-- The path without the slashes at its end. -/
def withoutSlashes (path : Path) : Path := (path.reverse.dropWhile (· = "")).reverse

/-- The path above a path. Both are written back to front. -/
def above (reversed : Path) : Path := (reversed.dropWhile isIdle).tail

/-- The number of bytes of a path, with a slash before every part. -/
def size (path : Path) : Nat := path.foldl (fun size part => size + 1 + part.utf8ByteSize) 0

/-- The path of a name in a directory. -/
def join (directory name : String) : String :=
  if directory.isEmpty || directory.endsWith "/" then directory ++ name
  else directory ++ "/" ++ name

end Path

end BlockDir
