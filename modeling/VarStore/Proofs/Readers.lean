/- # VarStore.Proofs.Readers — readers that take their part off a text

A reader takes what it reads off the front of a text.  Its law is that it takes exactly one text,
whatever follows (`Reads`), so that a reader of a whole has its law from those of its parts
(`Reads.bind`).

Quoted text may contain quotes, backslashes and pieces of any layout.  It is escaped, so it ends at
the first quote behind no backslash of its own (`unquote_escape`).  A number ends where the
character comes that closes it.
-/
import VarStore.Report
import VarStore.Proofs.Separators

namespace VarStore

set_option autoImplicit false

/-! ## Unescaping -/

namespace Quoted

/-- The character whose escaped form has `sign` behind the backslash. -/
def unescapeSign? (sign : Char) : Option Char :=
  match sign with
  | '\\' => some '\\'
  | '"' => some '"'
  | 'r' => some '\r'
  | 'n' => some '\n'
  | 't' => some '\t'
  | 'b' => some '\x08'
  | 'f' => some '\x0c'
  | _ => none

/-- The characters up to the first quote that is not escaped, and those behind it. -/
def unquote : List Char → Option (List Char × List Char)
  | [] => none
  | '"' :: rest => some ([], rest)
  | '\\' :: sign :: rest => do
      let c ← unescapeSign? sign
      let (cs, rest) ← unquote rest
      return (c :: cs, rest)
  | c :: rest => do
      let (cs, rest) ← unquote rest
      return (c :: cs, rest)

theorem unescapeSign?_of_escapeSign? {c sign : Char} (escaped : escapeSign? c = some sign) :
    unescapeSign? sign = some c := by
  unfold escapeSign? at escaped
  split at escaped <;> cases escaped <;> rfl

theorem unquote_escapeChar (c : Char) (cs : List Char) :
    unquote (escapeChar c ++ cs) = (unquote cs).map fun (ds, rest) => (c :: ds, rest) := by
  unfold escapeChar
  cases escaped : escapeSign? c with
  | some sign =>
    show unquote ('\\' :: sign :: cs) = _
    rw [unquote, unescapeSign?_of_escapeSign? escaped]
    cases unquote cs <;> rfl
  | none =>
    have noQuote : c ≠ '"' := by
      rintro rfl
      cases escaped
    have noBackslash : c ≠ '\\' := by
      rintro rfl
      cases escaped
    show unquote (c :: cs) = _
    rw [unquote]
    · cases unquote cs <;> rfl
    · exact noQuote
    · exact fun _ _ same => absurd same noBackslash

/-- Unescaping inverts escaping, and ends where the quoted text does. -/
theorem unquote_escape (cs rest : List Char) :
    unquote (escape cs ++ '"' :: rest) = some (cs, rest) := by
  induction cs with
  | nil => rfl
  | cons c cs ih => rw [escape_cons, List.append_assoc, unquote_escapeChar, ih, Option.map_some]

theorem toList_quote (s : String) : (quote s).toList = '"' :: (escape s.toList ++ ['"']) := by
  simp [quote]

end Quoted

/-! ## Readers -/

namespace Report

/-- Takes what it reads off the front of a text. -/
abbrev Reader := StateT (List Char) Option

namespace Reader

def expect (text : String) : Reader Unit := fun cs =>
  if text.toList <+: cs then some ((), cs.drop text.toList.length) else none

/-- The number up to `close`, which is taken as well. -/
def number (close : Char) : Reader UInt64 := fun cs => do
  let n ← natOfDigits? (cs.takeWhile (· != close))
  return (UInt64.ofNat n, (cs.dropWhile (· != close)).tail)

def quoted : Reader String := do
  expect "\""
  let cs ← (Quoted.unquote : Reader (List Char))
  return String.ofList cs

def member {α : Type} (key : String) (value : Reader α) : Reader α := do
  expect (Quoted.quote key ++ ": ")
  value

/-- The only item of an array. -/
def single {α : Type} (item : Reader α) : Reader α := do
  expect "["
  let a ← item
  expect "]"
  return a

end Reader

/-- The reader takes exactly `text` off the front, whatever follows, and reads `a` from it. -/
def Reads {α : Type} (r : Reader α) (text : String) (a : α) : Prop :=
  ∀ rest, r (text.toList ++ rest) = some (a, rest)

section Laws

variable {α β : Type}

theorem Reads.bind {r : Reader α} {next : α → Reader β} {text more : String} {a : α} {b : β}
    (first : Reads r text a) (second : Reads (next a) more b) :
    Reads (r >>= next) (text ++ more) b := by
  intro rest
  rw [String.toList_append, List.append_assoc]
  show (r (text.toList ++ (more.toList ++ rest))).bind _ = _
  rw [first]
  exact second rest

theorem Reads.map {r : Reader α} {text : String} {a : α} (read : Reads r text a) (f : α → β) :
    Reads (r >>= fun a => pure (f a)) text (f a) := by
  intro rest
  show (r (text.toList ++ rest)).bind _ = _
  rw [read]
  rfl

theorem reads_expect (text : String) : Reads (Reader.expect text) text () := by
  intro rest
  rw [Reader.expect, if_pos (List.prefix_append _ _), List.drop_left]

theorem reads_unquote (s : String) : Reads Quoted.unquote
    (String.ofList (Quoted.escape s.toList) ++ "\"") s.toList := by
  intro rest
  have text : (String.ofList (Quoted.escape s.toList) ++ "\"").toList ++ rest =
      Quoted.escape s.toList ++ '"' :: rest := by
    simp
  rw [text, Quoted.unquote_escape]

theorem reads_quoted (s : String) : Reads Reader.quoted (Quoted.quote s) s := by
  have read := (reads_unquote s).map String.ofList
  rw [String.ofList_toList] at read
  rw [Quoted.quote, String.append_assoc]
  exact (reads_expect _).bind read

theorem reads_number (close : Char) (noDigit : close.isDigit = false) (n : UInt64) :
    Reads (Reader.number close) (n.toNat.repr ++ String.singleton close) n := by
  intro rest
  have digits : close ∉ n.toNat.repr.toList := not_mem_repr noDigit _
  have text : (n.toNat.repr ++ String.singleton close).toList ++ rest =
      n.toNat.repr.toList ++ close :: rest := by
    simp
  rw [text, Reader.number, takeWhile_append_cons digits, dropWhile_append_cons digits,
    natOfDigits?_repr]
  show some (UInt64.ofNat n.toNat, rest) = _
  rw [UInt64.ofNat_toNat]

theorem Reads.member {r : Reader α} {text : String} {a : α} (value : Reads r text a)
    (key : String) : Reads (Reader.member key r) (Report.member key text) a :=
  (reads_expect _).bind value

theorem Reads.single {r : Reader α} {text : String} {a : α} (item : Reads r text a) :
    Reads (Reader.single r) (Report.array [text]) a := by
  have enclosed : Report.array [text] = "[" ++ (text ++ "]") := by
    simp [Report.array, Report.bracketed, String.append_assoc]
  rw [enclosed]
  exact (reads_expect _).bind (item.bind ((reads_expect _).map fun _ => a))

end Laws

end Report

end VarStore
