/- # VarStore.Quoted — text between double quotes

Seven characters are written as a backslash and a letter or sign: the backslash
and the double quote themselves, and carriage return, line feed, tab, backspace
and form feed.  All others, further control characters among them, stand as
they are.

Quoted text holds no line feed (`lineFeed_not_mem_escape`), and escaping goes
character by character (`escape_append`).
-/

namespace VarStore.Quoted

set_option autoImplicit false

/-- What follows the backslash in the escaped form of a character that has one. -/
def escapeSign? (c : Char) : Option Char :=
  match c with
  | '\\' => some '\\'
  | '"' => some '"'
  | '\r' => some 'r'
  | '\n' => some 'n'
  | '\t' => some 't'
  | '\x08' => some 'b'
  | '\x0c' => some 'f'
  | _ => none

def escapeChar (c : Char) : List Char :=
  match escapeSign? c with
  | some sign => ['\\', sign]
  | none => [c]

def escape (cs : List Char) : List Char :=
  cs.flatMap escapeChar

/-- The text between double quotes, with its special characters escaped. -/
def quote (s : String) : String :=
  "\"" ++ String.ofList (escape s.toList) ++ "\""

@[simp] theorem escape_nil : escape [] = [] := rfl

@[simp] theorem escape_cons (c : Char) (cs : List Char) :
    escape (c :: cs) = escapeChar c ++ escape cs := rfl

theorem escape_append (cs ds : List Char) : escape (cs ++ ds) = escape cs ++ escape ds :=
  List.flatMap_append

theorem lineFeed_not_mem_escapeChar (c : Char) : '\n' ∉ escapeChar c := by
  unfold escapeChar escapeSign?
  split
  · rename_i sign h
    split at h <;> cases h <;> decide
  · rename_i h
    intro hc
    rw [← List.mem_singleton.1 hc] at h
    cases h

theorem lineFeed_not_mem_escape (cs : List Char) : '\n' ∉ escape cs := by
  simp [escape, lineFeed_not_mem_escapeChar]

end VarStore.Quoted
