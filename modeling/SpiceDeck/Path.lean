import SpiceDeck.Text.Basic

/-!
Paths as texts. Segments are divided by slashes; empty segments and `.` do not count,
except that a leading slash makes a path absolute. Nothing here looks at files.
-/

namespace SpiceDeck
namespace Path
open Text

/-- The parts between slashes, the empty ones included. -/
def parts (p : Text) : List Text := cut (· == '/') p

/-- A part that does not change the place. -/
def isVoid (part : Text) : Bool := part.isEmpty || part = ['.']

def isAbsolute (p : Text) : Bool := startsWith p ['/']

/-- The last part that counts, unless it leads to the parent. -/
def fileName? (p : Text) : Option Text :=
  match (parts p).reverse.dropWhile isVoid with
  | name :: _ => if name = "..".toList then none else some name
  | [] => none

/-- What follows the last dot of the file name, if something stands before it. -/
def extension? (p : Text) : Option Text :=
  (fileName? p).bind fun name =>
    match name.reverse.dropWhile (· != '.') with
    | _ :: stem => if stem.isEmpty then none else some (name.reverse.takeWhile (· != '.')).reverse
    | [] => none

def parent (p : Text) : Text :=
  match (((parts p).reverse.dropWhile isVoid).drop 1).dropWhile isVoid with
  | [] =>
      if isAbsolute p then ['/']
      else if (parts p).head? = some ['.'] && (parts p).any (!isVoid ·) then ['.']
      else []
  | before => join ['/'] before.reverse

def child (dir name : Text) : Text :=
  if dir.isEmpty then name
  else if dir.getLast? = some '/' then dir ++ name
  else dir ++ '/' :: name

def withFileName (p name : Text) : Text :=
  if (fileName? p).isSome then child (parent p) name else child p name

/-- Where a directory conversion writes to unless it is told: beside the input. -/
def outputDirectory (input : Text) : Text :=
  match fileName? input with
  | some name => withFileName input (name ++ "_spice".toList)
  | none => "netlists_spice".toList

end Path
end SpiceDeck
