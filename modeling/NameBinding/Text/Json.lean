/-! JSON text with line breaks and indentation. -/

namespace NameBinding

/-- The values that are written. -/
inductive JsonValue where
  | string (text : String)
  | number (n : Nat)
  | array (items : List JsonValue)
  | object (fields : List (String × JsonValue))

namespace JsonValue

/-- A character inside quotes. Only quotes, backslashes and control characters are escaped. -/
def escapeChar (c : Char) : List Char :=
  if c = '"' then ['\\', '"']
  else if c = '\\' then ['\\', '\\']
  else if c = '\n' then ['\\', 'n']
  else if c = '\r' then ['\\', 'r']
  else if c = '\t' then ['\\', 't']
  else if c = '\x08' then ['\\', 'b']
  else if c = '\x0c' then ['\\', 'f']
  else if c.toNat < 0x20 then
    ['\\', 'u', '0', '0', Nat.digitChar (c.toNat / 16), Nat.digitChar (c.toNat % 16)]
  else [c]

def quote (text : String) : String :=
  String.ofList ('"' :: (text.toList.flatMap escapeChar ++ ['"']))

/-- A line break and the indentation of a level, two blanks for each. -/
def newLine (level : Nat) : String := String.ofList ('\n' :: List.replicate (2 * level) ' ')

/-- Parts between brackets, each on its own line. Without parts the brackets stand together. -/
def bracketed (opening closing : String) (level : Nat) : List String → String
  | [] => opening ++ closing
  | part :: parts =>
    opening ++ (",".intercalate ((part :: parts).map (newLine (level + 1) ++ ·))) ++
      newLine level ++ closing

mutual

/-- The text of a value whose first line stands at a level. -/
def render (level : Nat) : JsonValue → String
  | .string text => quote text
  | .number n => Nat.repr n
  | .array items => bracketed "[" "]" level (renderItems (level + 1) items)
  | .object fields => bracketed "\x7b" "\x7d" level (renderFields (level + 1) fields)

def renderItems (level : Nat) : List JsonValue → List String
  | [] => []
  | item :: items => render level item :: renderItems level items

def renderFields (level : Nat) : List (String × JsonValue) → List String
  | [] => []
  | (key, value) :: fields => (quote key ++ ": " ++ render level value) :: renderFields level fields

end

def text (value : JsonValue) : String := render 0 value

end JsonValue

end NameBinding
