import PlantStore.Text.Digits

/-! # JSON documents

A document as a tree, and its text without any blanks. Numbers are kept as their text, so
that the tree says exactly what is written. Members of an object stand in a fixed order. -/

namespace PlantStore

inductive Json
  | null
  | truth (b : Bool)
  /-- A number, by its text. -/
  | number (numeral : List Char)
  | text (s : String)
  | array (items : List Json)
  | object (members : List (String × Json))

namespace Json

/-! ### Strings -/

/-- The last two of the four hexadecimal digits by which a control character is written. -/
def controlDigits (c : Char) : List Char :=
  [Nat.digitChar (c.toNat / 16), Nat.digitChar (c.toNat % 16)]

/-- The form of a character inside a string: the quote, the backslash and every control
character are escaped, the slash if asked for; everything else stands for itself. -/
def escape (escapesSlash : Bool) (c : Char) : List Char :=
  if c = '"' then ['\\', '"']
  else if c = '\\' then ['\\', '\\']
  else if c = '/' ∧ escapesSlash then ['\\', '/']
  else if c = '\x08' then ['\\', 'b']
  else if c = '\x0c' then ['\\', 'f']
  else if c = '\n' then ['\\', 'n']
  else if c = '\r' then ['\\', 'r']
  else if c = '\t' then ['\\', 't']
  else if c.toNat < 32 then '\\' :: 'u' :: '0' :: '0' :: controlDigits c
  else [c]

def writeString (escapesSlash : Bool) (s : String) : List Char :=
  '"' :: (s.toList.flatMap (escape escapesSlash) ++ ['"'])

/-! ### Documents -/

mutual

def write (escapesSlash : Bool) : Json → List Char
  | null => ['n', 'u', 'l', 'l']
  | truth true => ['t', 'r', 'u', 'e']
  | truth false => ['f', 'a', 'l', 's', 'e']
  | number numeral => numeral
  | text s => writeString escapesSlash s
  | array items => '[' :: (writeItems escapesSlash items ++ [']'])
  | object members => '\x7b' :: (writeMembers escapesSlash members ++ ['\x7d'])

def writeItems (escapesSlash : Bool) : List Json → List Char
  | [] => []
  | [item] => write escapesSlash item
  | item :: next :: items =>
    write escapesSlash item ++ ',' :: writeItems escapesSlash (next :: items)

def writeMembers (escapesSlash : Bool) : List (String × Json) → List Char
  | [] => []
  | [(name, document)] => writeString escapesSlash name ++ ':' :: write escapesSlash document
  | (name, document) :: next :: members =>
    writeString escapesSlash name ++ ':' :: (write escapesSlash document ++
      ',' :: writeMembers escapesSlash (next :: members))

end

end Json

end PlantStore
