/-! # Text on a terminal

A terminal takes some characters as orders instead of showing them. Most control
characters are an order of their own. An escape character begins a longer one: a pair, a
control sequence with numbers and a final letter, or a string that goes on until something
ends it. What is left of a text without the orders is what its reader sees.
-/

namespace WordWalk

/-- What the characters up to now leave a terminal in. -/
inductive TerminalMode where
  /-- Characters are shown. -/
  | text
  /-- After an escape character. -/
  | escape
  /-- After an escape character and marks. -/
  | escapeMarks
  /-- In a control sequence. -/
  | control
  /-- In a command to the system. -/
  | command
  /-- At the head of a device string. -/
  | device
  /-- After numbers at the head of a device string. -/
  | deviceNumbers
  /-- After marks at the head of a device string. -/
  | deviceMarks
  /-- In a string that is not for the reader. -/
  | message
  deriving DecidableEq, Repr

/-- Control characters that only move on, which are kept. -/
def isSpacing (c : Char) : Bool := c = '\t' || c = '\n' || c = '\x0c' || c = '\r'

/-- Whether the character is an order of its own. -/
def isOrder (c : Char) : Bool := c < ' ' || c = '\x7f'

/-- Whether the octets of the character hold the one that ends a string. -/
def endsMessage (c : Char) : Bool := (String.utf8EncodeChar c).contains 0x9C

namespace TerminalMode

def next (mode : TerminalMode) (c : Char) : TerminalMode :=
  match mode with
  | .text => .text
  | .escape =>
      if c < '0' then .escapeMarks
      else if c = '[' then .control
      else if c = ']' then .command
      else if c = 'P' then .device
      else if c = 'X' || c = '^' || c = '_' then .message
      else .text
  | .escapeMarks => if c < '0' then .escapeMarks else .text
  | .control => if c < '@' then .control else .text
  | .command => .command
  | .device => if c < '0' then .deviceMarks else if c < '@' then .deviceNumbers else .message
  | .deviceNumbers =>
      if c < '0' then .deviceMarks else if c < '<' then .deviceNumbers else .message
  | .deviceMarks => if c < '0' then .deviceMarks else .message
  | .message => .message

/-- Reads a character: the mode after it, and whether it is shown. Cancelling ends every
    order, and an escape character begins one at any time. -/
def read (mode : TerminalMode) (c : Char) : TerminalMode × Bool :=
  if c = '\x18' || c = '\x1a' then (.text, false)
  else if c = '\x1b' then (.escape, false)
  else
    match mode with
    | .text => (.text, isSpacing c || !isOrder c)
    | .command => (if c = '\x07' then .text else .command, false)
    | .message => (if endsMessage c then .text else .message, false)
    | .escape | .escapeMarks | .control =>
        if isSpacing c then (.text, true)
        else if isOrder c || '\x7f' < c then (mode, false)
        else (mode.next c, false)
    | .device | .deviceNumbers | .deviceMarks =>
        if isOrder c || '\x7f' < c then (mode, false) else (mode.next c, false)

def visible (mode : TerminalMode) : List Char → List Char
  | [] => []
  | c :: rest =>
      let (after, isShown) := mode.read c
      if isShown then c :: after.visible rest else after.visible rest

end TerminalMode

/-- What a reader sees of a text on a terminal. -/
def visibleText (s : String) : String := String.ofList (TerminalMode.text.visible s.toList)

end WordWalk
