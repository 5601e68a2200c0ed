import Recurrence.Render.Record
import Recurrence.Text.Digits

namespace Recurrence.Render.Json

def hexDigit (n : Nat) : Char := if n < 10 then Char.ofNat (n + 48) else Char.ofNat (n + 87)

-- Quotation marks and backslashes get a backslash; control characters get their short escape where
-- JSON has one and four hexadecimal digits where it has none. All else stands for itself.
def escape (c : Char) : List Char :=
  if c == '\x22' then ['\\','\x22']
  else if c == '\\' then ['\\','\\']
  else if c == '\x08' then ['\\','b']
  else if c == '\t' then ['\\','t']
  else if c == '\n' then ['\\','n']
  else if c == '\x0C' then ['\\','f']
  else if c == '\r' then ['\\','r']
  else if c.toNat < 32 then ['\\','u','0','0',hexDigit (c.toNat / 16),hexDigit (c.toNat % 16)]
  else [c]

def quoted (text : String) : String := String.ofList ('\x22' :: text.toList.flatMap escape ++ ['\x22'])

def scalar : Scalar → String
  | .text text => quoted text
  | .flag flag => flagText flag

-- One line, without spaces between the signs.
def object (record : Record) : String :=
  "\x7b" ++ ",".intercalate (record.map (fun entry => quoted entry.1 ++ ":" ++ scalar entry.2)) ++ "\x7d"

end Recurrence.Render.Json
