import PhpClass.Text.Basic

/-!
# Classes of bytes

The classes that reading code goes by. A byte from 0x80 up is part of a character outside ASCII and
counts as a letter, so a word may hold any such character.
-/

namespace PhpClass

namespace Byte

def lineFeed : UInt8 := 0x0A

def carriageReturn : UInt8 := 0x0D

def space : UInt8 := 0x20

def doubleQuote : UInt8 := 0x22

def singleQuote : UInt8 := 0x27

def backslash : UInt8 := 0x5C

def openBrace : UInt8 := 0x7B

def closeBrace : UInt8 := 0x7D

/-- A decimal digit. -/
def isDigit (b : UInt8) : Bool := ascii '0' ≤ b && b ≤ ascii '9'

/-- A letter, a digit, an underscore or a part of a character outside ASCII. -/
def isIdent (b : UInt8) : Bool :=
  (ascii 'a' ≤ b && b ≤ ascii 'z') || (ascii 'A' ≤ b && b ≤ ascii 'Z') || isDigit b ||
    b == ascii '_' || 0x80 ≤ b

/-- Part of a possibly qualified name. -/
def isName (b : UInt8) : Bool := isIdent b || b == backslash

/-- Part of a type. The `&` of an intersection is told by what follows it and is not in this class. -/
def isType (b : UInt8) : Bool := isIdent b || b == backslash || b == ascii '?' || b == ascii '|'

/-- A space or a tab. -/
def isGap (b : UInt8) : Bool := b == space || b == 0x09

/-- The end of a line. -/
def isLineEnd (b : UInt8) : Bool := b == lineFeed || b == carriageReturn

/-- White space between tokens. -/
def isBlank (b : UInt8) : Bool := isGap b || isLineEnd b

/-- A quote that opens and closes a string. -/
def isQuote (b : UInt8) : Bool := b == singleQuote || b == doubleQuote

/-- The bracket that closes an opening one. -/
def closer? (b : UInt8) : Option UInt8 :=
  if b = ascii '(' then some (ascii ')')
  else if b = ascii '[' then some (ascii ']')
  else if b = openBrace then some closeBrace
  else none

/-- An opening bracket. -/
def isOpener (b : UInt8) : Bool := (closer? b).isSome

/-- A closing bracket. -/
def isCloser (b : UInt8) : Bool := b == ascii ')' || b == ascii ']' || b == closeBrace

/-- The character with this code, as text. -/
def char (b : UInt8) : Text :=
  if b < 0x80 then [b] else [(0xC0 : UInt8) ||| (b >>> 6), (0x80 : UInt8) ||| (b &&& 0x3F)]

end Byte

/-- The line break that the program writes and joins comments with. -/
def newline : Text := [Byte.lineFeed]

end PhpClass
