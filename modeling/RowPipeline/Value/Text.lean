import RowPipeline.Value.Basic
import RowPipeline.Number.Numeral

namespace RowPipeline.Value

-- Only quotes, backslashes and the characters below the blank are escaped.
def escapedChar (c : Char) : List Char :=
  match c with
  | '\x22' => ['\x5c', '\x22']
  | '\x5c' => ['\x5c', '\x5c']
  | '\x08' => ['\x5c', 'b']
  | '\x09' => ['\x5c', 't']
  | '\x0a' => ['\x5c', 'n']
  | '\x0c' => ['\x5c', 'f']
  | '\x0d' => ['\x5c', 'r']
  | c =>
    if c.toNat < 0x20 then
      ['\x5c', 'u', '0', '0', Nat.digitChar (c.toNat / 16), Nat.digitChar (c.toNat % 16)]
    else [c]

def quoted (s : String) : List Char :=
  '\x22' :: (s.toList.flatMap escapedChar ++ ['\x22'])

def boolChars (b : Bool) : List Char :=
  if b then "true".toList else "false".toList

mutual
def chars : Value → List Char
  | null => "null".toList
  | bool b => boolChars b
  | int n => intChars n
  | float x => NumeralStyle.row.chars x
  | string s => quoted s
  | array [] => ['[', ']']
  | array (v :: vs) => '[' :: (chars v ++ itemChars vs ++ [']'])
  | object [] => ['{', '}']
  | object ((name, v) :: ms) => '{' :: (quoted name ++ ':' :: chars v ++ memberChars ms ++ ['}'])

def itemChars : List Value → List Char
  | [] => []
  | v :: vs => ',' :: (chars v ++ itemChars vs)

def memberChars : List (String × Value) → List Char
  | [] => []
  | (name, v) :: ms => ',' :: (quoted name ++ ':' :: chars v ++ memberChars ms)
end

def text (v : Value) : String :=
  String.ofList v.chars

-- A new line at a depth of nesting.
def newline (depth : Nat) : List Char :=
  '\n' :: List.replicate (2 * depth) ' '

-- One item or member to a line, two blanks further in at each level. Empty containers stay closed.
mutual
def indented (depth : Nat) : Value → List Char
  | array (v :: vs) =>
    '[' :: (newline (depth + 1) ++ indented (depth + 1) v ++ indentedItems (depth + 1) vs
      ++ newline depth ++ [']'])
  | object ((name, v) :: ms) =>
    '{' :: (newline (depth + 1) ++ quoted name ++ ':' :: ' ' :: indented (depth + 1) v
      ++ indentedMembers (depth + 1) ms ++ newline depth ++ ['}'])
  | array [] => ['[', ']']
  | object [] => ['{', '}']
  | null => chars null
  | bool b => chars (bool b)
  | int n => chars (int n)
  | float x => chars (float x)
  | string s => chars (string s)

def indentedItems (depth : Nat) : List Value → List Char
  | [] => []
  | v :: vs => ',' :: (newline depth ++ indented depth v ++ indentedItems depth vs)

def indentedMembers (depth : Nat) : List (String × Value) → List Char
  | [] => []
  | (name, v) :: ms =>
    ',' :: (newline depth ++ quoted name ++ ':' :: ' ' :: indented depth v
      ++ indentedMembers depth ms)
end

def indentedText (v : Value) : String :=
  String.ofList (v.indented 0)

end RowPipeline.Value
