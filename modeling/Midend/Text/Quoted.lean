import Midend.Graph.Basic
import Midend.Text.Invisible

/-!
# Quoted names

A string in double quotes, written so that it shows on one line: quotes and backslashes are escaped, and
so are the characters that do not show, by their number if they have no letter.
-/

namespace Midend

namespace Quoted

/-- One character between quotes. -/
def escape (c : Char) : List Char :=
  if c = '"' then ['\\', '"']
  else if c = '\\' then ['\\', '\\']
  else if c = '\n' then ['\\', 'n']
  else if c = '\r' then ['\\', 'r']
  else if c = '\t' then ['\\', 't']
  else if c = '\x00' then ['\\', '0']
  else if isInvisible c then "\\u\x7b".toList ++ Nat.toDigits 16 c.toNat ++ ['\x7d']
  else [c]

/-- A string in quotes. -/
def text (s : String) : String := "\"" ++ String.ofList (s.toList.flatMap escape) ++ "\""

end Quoted

/-- A line that tells graphs apart at a glance: the name, and how much there is of it. -/
def Graph.synopsis (g : Graph) : String :=
  "Graph \x7b name: " ++ Quoted.text g.name ++ ", blocks: " ++ toString g.blocks.size ++ ", insts: "
    ++ toString g.insts.size ++ ", .. \x7d"

end Midend
