import L20n.Text.Quoted
import L20n.Text.Numeral

/-!
JSON text: objects of strings, integers and lists of strings on one line.
Only the characters that JSON forbids inside a string are escaped.
-/

namespace L20n.Text

def jsonChar (c : Char) : List Char :=
  if c = '"' ∨ c = '\\' then ['\\', c]
  else if c = '\n' then ['\\', 'n']
  else if c = '\r' then ['\\', 'r']
  else if c = '\t' then ['\\', 't']
  else if c = '\x08' then ['\\', 'b']
  else if c = '\x0c' then ['\\', 'f']
  else if c.toNat < 0x20 then '\\' :: 'u' :: hex 4 c.toNat
  else [c]

def jsonString (text : String) : String :=
  String.ofList ('"' :: text.toList.flatMap jsonChar ++ ['"'])

inductive JsonField where
  | text (value : String)
  | number (value : Int)
  | texts (values : List String)

def JsonField.render : JsonField → String
  | .text value => jsonString value
  | .number value => integer value
  | .texts values => "[" ++ ", ".intercalate (values.map jsonString) ++ "]"

def jsonObject (fields : List (String × JsonField)) : String :=
  "\x7b" ++ ", ".intercalate
    (fields.map fun (name, value) => jsonString name ++ ": " ++ value.render)
    ++ "\x7d"

end L20n.Text
