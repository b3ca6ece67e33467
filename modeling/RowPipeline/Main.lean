import RowPipeline.CommandLine.Run

namespace RowPipeline.CommandLine

def usageText : String :=
  "Usage: apply --data FILE --apply CLAUSE [--model FILE --path PATH] [--settings FILE]\n" ++
  "  [--defaults FILE] [--case-insensitive] [--strict-nulls] [--validate] [-v]"

-- The contents of the files that the arguments name. A file that cannot be read is left out.
def readFiles (arguments : Arguments) : IO (List (String × String)) := do
  let mut files := []
  for (name, file) in arguments.options do
    if name.namesFile then
      try
        files := (file, ← IO.FS.readFile file) :: files
      catch _ =>
        continue
  return files

def complain (text : String) (code : UInt32) : IO UInt32 := do
  IO.eprintln text
  return code

def execute (args : List String) : IO UInt32 := do
  match Arguments.parse args with
  | .error .help => do IO.println usageText; return 0
  | .error .version => do IO.println "apply 0.1.0"; return 0
  | .error error => complain (error.name ++ "\n" ++ usageText) 2
  | .ok arguments =>
    let files ← readFiles arguments
    match run args fun name => files.lookup name with
    | .ok text => do IO.println text; return 0
    | .error (.failed error) => complain error.message 1
    | .error (.file name) => complain (name ++ ": cannot be read or decoded") 1
    | .error (.usage error) => complain error.name 2

end RowPipeline.CommandLine

def main (args : List String) : IO UInt32 :=
  RowPipeline.CommandLine.execute args
