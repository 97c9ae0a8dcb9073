import SearchPipeline.Token.Kind

namespace SearchPipeline

-- The text begins at the byte offset `start`.
structure Token where
  kind : Kind
  text : String
  start : Nat
deriving DecidableEq, Repr, Inhabited

namespace Token

-- The byte offset behind the token.
def stop (token : Token) : Nat := token.start + token.text.utf8ByteSize

def isTrivia (token : Token) : Bool := token.kind.isTrivia

end Token

end SearchPipeline
