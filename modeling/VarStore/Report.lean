/- # VarStore.Report — a fault as one line of output

A fault of the program is reported as an object of named members, written on
one line with a blank after each colon and none after a comma.  A fatal fault
is reported as plain text, since no place in the program is to blame.
-/
import VarStore.Diagnostic
import VarStore.Quoted

namespace VarStore

set_option autoImplicit false

namespace Report

def member (key value : String) : String :=
  Quoted.quote key ++ ": " ++ value

/-- Parts with commas between them, inside two brackets. -/
def bracketed (opening closing : String) (parts : List String) : String :=
  opening ++ String.intercalate "," parts ++ closing

def object (members : List String) : String :=
  bracketed "\x7b" "\x7d" members

def array (items : List String) : String :=
  bracketed "[" "]" items

def region (r : Region) : String :=
  object [member "offset" r.offset.toNat.repr, member "length" r.length.toNat.repr]

def label (l : Label) : String :=
  object [member "label" (Quoted.quote l.text), member "span" (region l.region)]

/-- The members in their fixed order; the help is left out where there is none. -/
def diagnostic (d : Diagnostic) : String :=
  object <|
    [member "message" (Quoted.quote d.message),
     member "severity" (Quoted.quote "error"),
     member "causes" (array [])] ++
    (d.help.map fun help => member "help" (Quoted.quote help)).toList ++
    [member "filename" (Quoted.quote d.fileName),
     member "labels" (array (d.label.map label).toList),
     member "related" (array [])]

end Report

/-- The report of a fault that arose in the program text `source`. -/
def report (source : Source) (fault : Fault) : String :=
  if fault.isFatal then
    "Internal interpreter error: " ++ fault.message ++ "\n"
  else
    Report.diagnostic (Diagnostic.ofFault source fault) ++ "\n"

end VarStore
