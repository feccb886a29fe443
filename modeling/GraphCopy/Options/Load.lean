import GraphCopy.Options.Environment
import GraphCopy.Options.Json5
import GraphCopy.Options.Toml
import GraphCopy.Options.Ini
import GraphCopy.Options.Ron
import GraphCopy.Options.Yaml

/-!
# Loading options

Options come from a file, whose format its extension tells, and from the
environment, which takes precedence. A file that is missing, or whose extension
is not known, assigns nothing; a malformed file is an error whatever the
environment says.
-/

namespace GraphCopy

/-- The extension of a file name: what follows its last point, unless that is its first character. -/
def extension (file : String) : String :=
  match file.toList.reverse.span (· != '.') with
  | (ext, _ :: _ :: _) => String.ofList ext.reverse
  | _ => ""

def readerFor? (ext : String) : Option (String → Option (List Assignment)) :=
  [("toml", Toml.assignments?), ("json", Json.assignments?), ("json5", Json5.assignments?),
   ("yaml", Yaml.assignments?), ("yml", Yaml.assignments?), ("ini", Ini.assignments?),
   ("ron", Ron.assignments?)].lookup ext

def withoutMark (s : String) : String :=
  match s.toList with
  | '\ufeff' :: cs => String.ofList cs
  | _ => s

def assignmentsOfFile? (file : String) (content : Option String) : Option (List Assignment) :=
  match readerFor? (extension file), content with
  | some reader, some content => reader (withoutMark content)
  | _, _ => some []

namespace CopyOptions

def ofEnvironment? (program : String) (vars : List (String × String)) : Option CopyOptions :=
  ofAssignments? (assignmentsOfEnvironment program vars)

def load? (program : String) (vars : List (String × String)) (file : String)
    (content : Option String) : Option CopyOptions := do
  let fromFile ← assignmentsOfFile? file content
  ofAssignments? (fromFile ++ assignmentsOfEnvironment program vars)

end CopyOptions
end GraphCopy
