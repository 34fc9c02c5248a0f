import Deduction.Error

/-!
# Files and paths

What a session needs of a file system: the text at a path, and the place a path names for
writing. A folder of files without folders in it is such a file system. A path is walked name
by name, from the folder itself or, after a leading slash, from outside of it; a single dot stays
where it is and two dots lead outside. Nothing is known of what lies outside: no file can be
read there, and what is written there leaves no trace in the folder.

## Main definitions

* `Files` — the files a session may read and write;
* `Folder.walk` — where a path leads;
* `Folder.files` — a folder as the files of a session;
* `Folder.news` — what writing has changed in a folder.
-/

namespace Deduction

/-- The files a session may read and write. -/
structure Files where
  /-- The text at a path. -/
  read : String → Except Error String
  /-- The name under which a text written to a path is kept, if it is kept. -/
  target : String → Except Error (Option String)

/-- A folder that holds files only, with their texts. -/
structure Folder where
  entries : List (String × String)

namespace Folder

/-- Where a path leads. -/
inductive Place where
  /-- To a folder. -/
  | folder
  /-- To a file of the folder. -/
  | file (name text : String)
  /-- To a name of the folder that no file has. -/
  | vacant (name : String)
  /-- To a name outside the folder. -/
  | outside

/-- The text of a file. -/
def text? (f : Folder) (name : String) : Option String :=
  (f.entries.find? (·.1 == name)).map (·.2)

/-- The place of a name, inside or outside the folder. -/
def place (f : Folder) (inside : Bool) (name : String) : Place :=
  if inside then
    match f.text? name with
    | some text => .file name text
    | none => .vacant name
  else .outside

/-- The names of a path, cut at its slashes. -/
def names : List Char → List (List Char)
  | [] => [[]]
  | '/' :: cs => [] :: names cs
  | c :: cs => match names cs with
    | [] => [[c]]
    | name :: rest => (c :: name) :: rest

/-- The most bytes of a name. -/
def nameLimit : Nat := 255

/-- The most bytes of a path. -/
def pathLimit : Nat := 4095

/-- Follow names, from the folder or from outside of it. A name that is not the last one must be
a folder's, and there is none inside. -/
def walk (f : Folder) (path : String) : Bool → List (List Char) → Except Error Place
  | _, [] => .ok .folder
  | inside, cs :: rest =>
    let name := String.ofList cs
    if name == "" || name == "." then walk f path inside rest
    else if name == ".." then walk f path false rest
    else if nameLimit < name.utf8ByteSize then .error (.pathTooLong path)
    else if rest.isEmpty then .ok (f.place inside name)
    else match f.place inside name with
      | .file _ _ => .error (.notAFolder path)
      | _ => .error (.noSuchFile path)

/-- Where the names of a path lead, if the path is a proper one. -/
def follow (f : Folder) (path : String) (names : List (List Char)) : Except Error Place :=
  if path.toList.contains '\x00' then .error (.nullInPath path)
  else if pathLimit < path.utf8ByteSize then .error (.pathTooLong path)
  else walk f path (path.toList.head? != some '/') names

/-- The text at a path. -/
def read (f : Folder) (path : String) : Except Error String := do
  match ← f.follow path (names path.toList) with
  | .file _ text => return text
  | .folder => throw (.isAFolder path)
  | _ => throw (.noSuchFile path)

/-- The names of a path without the empty ones at its end. -/
def namesForWriting (path : String) : List (List Char) :=
  ((names path.toList).reverse.dropWhile List.isEmpty).reverse

/-- The name under which a text written to a path is kept. A path that ends in a slash names a
folder. -/
def target (f : Folder) (path : String) : Except Error (Option String) := do
  let place ← f.follow path (namesForWriting path)
  if path.toList.getLast? == some '/' then throw (.isAFolder path)
  match place with
  | .folder => throw (.isAFolder path)
  | .file name _ | .vacant name => return some name
  | .outside => return none

/-- A folder as the files of a session. -/
def files (f : Folder) : Files := ⟨f.read, f.target⟩

/-- The files written that are new in the folder or have another text in it. -/
def news (f : Folder) (written : List (String × String)) : List (String × String) :=
  written.filter fun (name, text) => f.text? name != some text

end Folder

end Deduction
