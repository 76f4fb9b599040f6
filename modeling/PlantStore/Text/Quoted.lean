import PlantStore.Text.Digits
import PlantStore.Text.GraphemeExtend
import PlantStore.Text.Unprintable

/-! # Quoted text in descriptions

A description shows a string between double quotes, so that its ends and every character of
it can be told: the quote and the backslash are marked, line ends, tabs and the null
character have short forms, and what would not show, or would change how its neighbour
shows, is written by number. -/

namespace PlantStore.Text

def quoteChar (c : Char) : List Char :=
  if c = '"' then ['\\', '"']
  else if c = '\\' then ['\\', '\\']
  else if c = '\n' then ['\\', 'n']
  else if c = '\r' then ['\\', 'r']
  else if c = '\t' then ['\\', 't']
  else if c = '\x00' then ['\\', '0']
  else if isUnprintable c || extendsGrapheme c then
    '\\' :: 'u' :: '\x7b' :: (hexadecimal c.toNat ++ ['\x7d'])
  else [c]

def quoted (s : String) : List Char :=
  '"' :: (s.toList.flatMap quoteChar ++ ['"'])

end PlantStore.Text
