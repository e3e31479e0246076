import MachineVault.FileSystem.Basic

/-! Writing whole files. To replace one, its new contents go into a temporary file beside it, which
then takes its place in one step. -/

namespace MachineVault

namespace Path

/-- A name without its extension. A point in front starts no extension. -/
def stem (name : List Char) : List Char :=
  match name.reverse.dropWhile (· ≠ '.') with
  | '.' :: before => if before.isEmpty then name else before.reverse
  | _ => name

/-- The temporary file of a path: the last name with another extension. Where that name is a double
point, or becomes one when the extension is cut off the end of the path, there is none: what stands
for it is a directory, and nothing can be written to it. -/
def temporary (path : Path) : Path :=
  match path.trimEnd.getLast? with
  | none | some ".." => path
  | some name =>
    let stem := stem name.toList
    if stem = ['.'] ∧ path.trimEnd = path then path.directory ++ [".."]
    else path.directory ++ [String.ofList (stem ++ ['.', 't', 'm', 'p'])]

end Path

namespace FileSystem

/-- Makes the directory of a file, and the file in place of the one that is there. -/
def writeSteps (path : Path) (bytes : Bytes) : List Step :=
  .validate path.directory :: path.parents.map .makeDirectory ++
    [.truncate path, .append path bytes]

/-- Replaces a file. Where the path is not its own temporary file, there is the old file or the new
one at it all the time, and never a part. -/
def replaceSteps (path : Path) (bytes : Bytes) : List Step :=
  writeSteps path.temporary bytes ++ [.rename path.temporary path]

def write (fs : FileSystem) (path : Path) (bytes : Bytes) : FileSystem × Except FileError Unit :=
  fs.run (writeSteps path bytes)

def replace (fs : FileSystem) (path : Path) (bytes : Bytes) :
    FileSystem × Except FileError Unit :=
  fs.run (replaceSteps path bytes)

end FileSystem

end MachineVault
