/-!
# Names of the things a method is made of

Instructions, blocks, fields and loops live in arenas and are named by their position there.  Each
kind of name is a type of its own, so a block can never be looked up among the instructions.  An
instruction also names the value it defines: in single-assignment form the two are one.
-/

namespace Midend

/-- An instruction, and the value it defines. -/
structure InstId where
  index : Nat
deriving DecidableEq, Repr, Inhabited

/-- A basic block. -/
structure BlockId where
  index : Nat
deriving DecidableEq, Repr, Inhabited

/-- An entry of a method's field table. -/
structure FieldId where
  index : Nat
deriving DecidableEq, Repr, Inhabited

/-- A natural loop of a loop forest. -/
structure LoopId where
  index : Nat
deriving DecidableEq, Repr, Inhabited

/-- How an instruction is written in messages: `%7`. -/
def InstId.text (i : InstId) : String := "%" ++ toString i.index

/-- How a block is written in messages and in printed methods: `^bb2`. -/
def BlockId.text (b : BlockId) : String := "^bb" ++ toString b.index

end Midend
