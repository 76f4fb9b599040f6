import PlantStore.Json.Basic
import PlantStore.Proofs.Json.Numeral

/-! # Reading JSON

A reader for all of RFC 8259: blanks between the tokens, every escape of a string, surrogate
pairs included, numbers by their grammar, and nothing else. Numbers are kept by their text and
members in their order. What it cannot give back as text, a surrogate by itself, it refuses.

The recursion is on the length of the text: whatever is read leaves a shorter one. -/

namespace PlantStore
namespace Json

/-- What is read at the start of a text, and the rest of the text, which is shorter. -/
abbrev Reading (cs : List Char) (α : Type) : Type :=
  Option (α × { rest : List Char // rest.length < cs.length })

/-- What is read at the start of a shorter text. -/
def Reading.after {α : Type} {cs tail : List Char} (h : tail.length ≤ cs.length)
    (r : Reading tail α) : Reading cs α :=
  r.map fun (a, rest) => (a, ⟨rest.1, Nat.lt_of_lt_of_le rest.2 h⟩)

/-! ### Blanks -/

/-- Whether a character may stand between tokens. -/
def isBlank (c : Char) : Bool := c == ' ' || c == '\t' || c == '\n' || c == '\r'

/-- The text without the blanks at its start. -/
def skipBlanks (cs : List Char) : { rest : List Char // rest.length ≤ cs.length } :=
  ⟨cs.dropWhile isBlank, List.length_dropWhile_le _ cs⟩

/-- The text behind a token, if that token comes next. -/
def expect (token : Char) (cs : List Char) :
    Option { rest : List Char // rest.length < cs.length } :=
  match skipBlanks cs with
  | ⟨[], _⟩ => none
  | ⟨c :: rest, hrest⟩ => if c = token then some ⟨rest, hrest⟩ else none

/-! ### Strings -/

/-- The number for which a hexadecimal digit stands. -/
def hexDigit? (c : Char) : Option Nat :=
  if '0' ≤ c ∧ c ≤ '9' then some (c.toNat - '0'.toNat)
  else if 'a' ≤ c ∧ c ≤ 'f' then some (c.toNat - 'a'.toNat + 10)
  else if 'A' ≤ c ∧ c ≤ 'F' then some (c.toNat - 'A'.toNat + 10)
  else none

/-- Four hexadecimal digits. -/
def readUnit : (cs : List Char) → Reading cs Nat
  | a :: b :: c :: d :: rest =>
    match hexDigit? a, hexDigit? b, hexDigit? c, hexDigit? d with
    | some a, some b, some c, some d =>
      some (((a * 16 + b) * 16 + c) * 16 + d, ⟨rest, by simp only [List.length_cons]; omega⟩)
    | _, _, _, _ => none
  | _ => none

/-- Whether a unit is the first half of a surrogate pair. -/
def isHighSurrogate (unit : Nat) : Bool := 0xd800 ≤ unit && unit < 0xdc00

/-- Whether a unit is the second half of a surrogate pair. -/
def isLowSurrogate (unit : Nat) : Bool := 0xdc00 ≤ unit && unit < 0xe000

/-- A character by number, behind the mark. -/
def readNumbered (cs : List Char) : Reading cs Char :=
  match readUnit cs with
  | none => none
  | some (unit, rest) =>
    if isHighSurrogate unit then
      match rest with
      | ⟨'\\' :: 'u' :: more, hmore⟩ =>
        match readUnit more with
        | none => none
        | some (low, last) =>
          if isLowSurrogate low then
            some (Char.ofNat (0x10000 + (unit - 0xd800) * 0x400 + (low - 0xdc00)),
              ⟨last.1, by have := last.2; simp only [List.length_cons] at hmore; omega⟩)
          else none
      | _ => none
    else if isLowSurrogate unit then none
    else some (Char.ofNat unit, rest)

/-- The character for which a letter stands behind a backslash. -/
def shortEscape? : Char → Option Char
  | '"' => some '"'
  | '\\' => some '\\'
  | '/' => some '/'
  | 'b' => some '\x08'
  | 'f' => some '\x0c'
  | 'n' => some '\n'
  | 'r' => some '\r'
  | 't' => some '\t'
  | _ => none

/-- One character of a string. -/
def readChar : (cs : List Char) → Reading cs Char
  | [] => none
  | c :: rest =>
    if c = '\\' then
      match rest with
      | [] => none
      | mark :: more =>
        if mark = 'u' then
          (readNumbered more).after (Nat.le_add_right _ 2)
        else
          (shortEscape? mark).map fun d => (d, ⟨more, Nat.lt_succ_of_lt (Nat.lt_succ_self _)⟩)
    else if c = '"' ∨ c.toNat < 32 then none
    else some (c, ⟨rest, Nat.lt_succ_self _⟩)

/-- The characters of a string and its closing quote. -/
def readChars (cs : List Char) : Reading cs (List Char) :=
  match cs with
  | '"' :: rest => some ([], ⟨rest, by simp only [List.length_cons]; omega⟩)
  | cs =>
    match readChar cs with
    | none => none
    | some (c, ⟨rest, hrest⟩) =>
      match readChars rest with
      | none => none
      | some (chars, last) => some (c :: chars, ⟨last.1, Nat.lt_trans last.2 hrest⟩)
termination_by cs.length

/-! ### Values that hold no others -/

/-- A number. -/
def readNumber (cs : List Char) : Reading cs Json :=
  match h : Numeral.scan cs with
  | none => none
  | some (n, rest) => some (number n.text, ⟨rest, Numeral.length_lt_of_scan h⟩)

/-- One of the three literals. -/
def readLiteral : (cs : List Char) → Reading cs Json
  | 'n' :: 'u' :: 'l' :: 'l' :: rest =>
    some (null, ⟨rest, by simp only [List.length_cons]; omega⟩)
  | 't' :: 'r' :: 'u' :: 'e' :: rest =>
    some (truth true, ⟨rest, by simp only [List.length_cons]; omega⟩)
  | 'f' :: 'a' :: 'l' :: 's' :: 'e' :: rest =>
    some (truth false, ⟨rest, by simp only [List.length_cons]; omega⟩)
  | _ => none

/-- A string, a number or a literal. -/
def readScalar : (cs : List Char) → Reading cs Json
  | [] => none
  | c :: rest =>
    if c = '"' then
      (readChars rest).map fun (chars, last) =>
        (text (String.ofList chars), ⟨last.1, Nat.lt_succ_of_lt last.2⟩)
    else if c = '-' ∨ c.isDigit = true then readNumber (c :: rest)
    else readLiteral (c :: rest)

/-! ### Documents -/

/-- The name of a member, with the colon behind it. -/
def readName (cs : List Char) : Reading cs String :=
  match expect '"' cs with
  | none => none
  | some inner =>
    match readChars inner.1 with
    | none => none
    | some (chars, rest) =>
      (expect ':' rest.1).map fun last =>
        (String.ofList chars, ⟨last.1, Nat.lt_trans last.2 (Nat.lt_trans rest.2 inner.2)⟩)

mutual

/-- A document, with the blanks before it. -/
def readValue (cs : List Char) : Reading cs Json :=
  match expect '[' cs with
  | some ⟨inner, hinner⟩ =>
    match expect ']' inner with
    | some rest => some (array [], ⟨rest.1, Nat.lt_trans rest.2 hinner⟩)
    | none =>
      match readItems inner with
      | none => none
      | some (items, rest) => some (array items, ⟨rest.1, Nat.lt_trans rest.2 hinner⟩)
  | none =>
    match expect '\x7b' cs with
    | some ⟨inner, hinner⟩ =>
      match expect '\x7d' inner with
      | some rest => some (object [], ⟨rest.1, Nat.lt_trans rest.2 hinner⟩)
      | none =>
        match readMembers inner with
        | none => none
        | some (members, rest) => some (object members, ⟨rest.1, Nat.lt_trans rest.2 hinner⟩)
    | none =>
      match skipBlanks cs with
      | ⟨tokens, htokens⟩ => (readScalar tokens).after htokens
termination_by (cs.length, 0)

/-- The items of an array that is not empty, with its end. -/
def readItems (cs : List Char) : Reading cs (List Json) :=
  match readValue cs with
  | none => none
  | some (item, ⟨rest, hrest⟩) =>
    match expect ']' rest with
    | some last => some ([item], ⟨last.1, Nat.lt_trans last.2 hrest⟩)
    | none =>
      match expect ',' rest with
      | none => none
      | some ⟨more, hmore⟩ =>
        have hshorter : more.length < cs.length := Nat.lt_trans hmore hrest
        match readItems more with
        | none => none
        | some (items, last) => some (item :: items, ⟨last.1, Nat.lt_trans last.2 hshorter⟩)
termination_by (cs.length, 1)

/-- The members of an object that is not empty, with its end. -/
def readMembers (cs : List Char) : Reading cs (List (String × Json)) :=
  match readName cs with
  | none => none
  | some (name, ⟨value, hvalue⟩) =>
    match readValue value with
    | none => none
    | some (document, ⟨rest, hrest⟩) =>
      have hbehind : rest.length < cs.length := Nat.lt_trans hrest hvalue
      match expect '\x7d' rest with
      | some last => some ([(name, document)], ⟨last.1, Nat.lt_trans last.2 hbehind⟩)
      | none =>
        match expect ',' rest with
        | none => none
        | some ⟨more, hmore⟩ =>
          have hshorter : more.length < cs.length := Nat.lt_trans hmore hbehind
          match readMembers more with
          | none => none
          | some (members, last) =>
            some ((name, document) :: members, ⟨last.1, Nat.lt_trans last.2 hshorter⟩)
termination_by (cs.length, 0)

end

/-- Reads a whole text as one document, with blanks around it. -/
def readWhole (cs : List Char) : Option Json :=
  match readValue cs with
  | some (document, ⟨rest, _⟩) => if (skipBlanks rest).1 = [] then some document else none
  | none => none

/-- The document for which a text stands, if it is one. -/
def read? (s : String) : Option Json := readWhole s.toList

end Json
end PlantStore
