/-!
Tokens that ask a running fit to stop.
-/

namespace SymbolicFit.Cancellation

/-- Names a flag of a board; copies of a token name the same flag. -/
structure Token where
  flag : Nat
deriving DecidableEq, Repr

/-- The flags behind all tokens issued so far. -/
structure Board where
  raised : Array Bool

namespace Board

def empty : Board := ⟨#[]⟩

def issue (b : Board) : Token × Board := (⟨b.raised.size⟩, ⟨b.raised.push false⟩)

def cancel (b : Board) (t : Token) : Board := ⟨b.raised.setIfInBounds t.flag true⟩

def isCancelled (b : Board) (t : Token) : Bool := b.raised.getD t.flag false

end Board

end SymbolicFit.Cancellation
