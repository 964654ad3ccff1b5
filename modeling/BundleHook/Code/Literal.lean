import BundleHook.Text.Blank

/-!
# Literals and comments

Braces and parentheses inside string literals, character literals and comments are not delimiters.
`literalLength` measures the literal or comment at the head of a text, so that a scan can pass over
it as a whole. A literal that is never closed reaches to the end of its line or of the text.
-/

namespace BundleHook.Code

/-- The number of characters up to and with the first occurrence of `mark`, or of the whole text
when it has none. -/
def lengthThrough (mark : Text) : Text → Nat
  | [] => 0
  | c :: rest =>
    if mark.isPrefixOf (c :: rest) then mark.length else lengthThrough mark rest + 1

/-- The length of a string literal behind its opening quote: through the closing quote or the end
of the line. A backslash takes the next character with it. -/
def stringTail : Text → Nat
  | [] => 0
  | '\\' :: [] => 1
  | '\\' :: _ :: rest => stringTail rest + 2
  | c :: rest => if c == '"' || c == '\n' then 1 else stringTail rest + 1

/-- The length of a character literal behind its opening quote, when it closes on its line within
`room` characters. -/
def characterTail : Nat → Text → Option Nat
  | 0, _ => none
  | _, [] => none
  | _, '\\' :: [] => none
  | room + 1, '\\' :: _ :: rest => (characterTail (room - 1) rest).map (· + 2)
  | room + 1, c :: rest =>
    if c == '\x27' then some 1
    else if c == '\n' then none
    else (characterTail room rest).map (· + 1)

/-- The longest body of a character literal that is looked at, with its closing quote. -/
def characterRoom : Nat := 7

/-- The length of the literal or comment at the head of a text, zero when there is none. A line
comment leaves its line feed; an apostrophe that opens no character literal stands for itself. -/
def literalLength : Text → Nat
  | '/' :: '/' :: rest => (rest.takeWhile (· != '\n')).length + 2
  | '/' :: '*' :: rest => lengthThrough ['*', '/'] rest + 2
  | '"' :: '"' :: '"' :: rest => lengthThrough ['"', '"', '"'] rest + 3
  | '"' :: rest => stringTail rest + 1
  | '\x27' :: rest => (characterTail characterRoom rest).getD 0 + 1
  | _ => 0

def opensLineComment : Text → Bool
  | '/' :: '/' :: _ => true
  | _ => false

end BundleHook.Code
