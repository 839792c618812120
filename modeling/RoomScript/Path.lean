/-!
# Slash-separated paths

Paths are texts whose segments are separated by `/`.  Everything here is about the text alone;
whether a path names anything is decided by a file tree.
-/

namespace RoomScript.Path

/-- The segments between the slashes of a path, empty ones included. -/
def pieces (p : String) : List String :=
  (p.toList.splitOn '/').map String.ofList

/-- A path that starts at the root. -/
def isAbsolute (p : String) : Bool :=
  p.toList.head? == some '/'

/-- Put one more segment on a reduced path, given in reverse.  A parent mark removes the segment
before it; it stays where there is none to remove, except directly below the root. -/
def pushSegment (rooted : Bool) (reduced : List String) (segment : String) : List String :=
  if segment == "" || segment == "." then reduced
  else if segment == ".." then
    match reduced with
    | top :: below => if top == ".." then segment :: reduced else below
    | [] => if rooted then [] else [segment]
  else segment :: reduced

/-- The segments of a path after removing empty ones, `.` and every `..` that has something to
remove. -/
def reducedSegments (p : String) : List String :=
  ((pieces p).foldl (pushSegment (isAbsolute p)) []).reverse

/-- The shortest path that means the same by text alone. -/
def clean (p : String) : String :=
  let body := "/".intercalate (reducedSegments p)
  if isAbsolute p then "/" ++ body else if body == "" then "." else body

/-- The clean form of several paths put after one another, empty ones left out. -/
def join (parts : List String) : String :=
  match parts.filter (· != "") with
  | [] => ""
  | kept => clean ("/".intercalate kept)

/-- The characters up to and including the last slash. -/
def upToLastSlash (p : String) : String :=
  String.ofList (p.toList.reverse.dropWhile (· != '/')).reverse

/-- The characters after the last slash. -/
def afterLastSlash (p : String) : String :=
  String.ofList (p.toList.reverse.takeWhile (· != '/')).reverse

/-- The directory part of a path. -/
def dir (p : String) : String :=
  clean (upToLastSlash p)

/-- A path without the slashes at its end. -/
def dropSlashEnd (p : String) : String :=
  String.ofList (p.toList.reverse.dropWhile (· == '/')).reverse

/-- The last segment of a path; `.` for the empty path and `/` for the root. -/
def base (p : String) : String :=
  if p == "" then "."
  else
    let kept := dropSlashEnd p
    if kept == "" then "/" else afterLastSlash kept

/-- The last dot of the last segment and what follows it, or nothing. -/
def extension (p : String) : String :=
  let tail := (afterLastSlash p).toList.reverse
  if tail.contains '.' then String.ofList ((tail.takeWhile (· != '.')).reverse.insertIdx 0 '.')
  else ""

/-- A file name without its extension. -/
def stem (name : String) : String :=
  String.ofList (name.toList.take (name.length - (extension name).length))

/-- The path of a file made from `input`: its base name with another extension, in `directory`, or
beside the input when no directory is given. -/
def output (input directory newExtension : String) : String :=
  let name := stem (base input) ++ newExtension
  join [if directory == "" then dir input else directory, name]

/-- A path made absolute from the working directory. -/
def absolute (workingDir p : String) : String :=
  if isAbsolute p then clean p else join [workingDir, p]

end RoomScript.Path
