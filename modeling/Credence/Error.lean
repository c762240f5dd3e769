/-!
# Refusals

Everything that can be wrong with a text, a clause or a query.  A primitive that fails is not among them: it has no
result, and the run goes on.
-/
namespace Credence

inductive Error where
  /-- The text is not in the clause language. -/
  | unreadable
  /-- The text is in the language but not what was asked for. -/
  | misplaced (text note : String)
  /-- A head variable, or an input of a negation or a primitive, that no body literal binds. -/
  | unboundVariable (clause : String)
  | openFact (fact : String)
  /-- A negation with a variable that is not a wildcard. -/
  | openNegation (literal : String)
  | negatedHead (clause : String)
  /-- A weight that is not above zero and at most one. -/
  | improperWeight (weight text : String)
  | weightedBody (literal : String)
  | negatedPrimitive (predicate : String)
  /-- Body literals that wait for each other. -/
  | cyclicBody (clause : String)
  | badSettings
  /-- A broken invariant. -/
  | fault (note : String)
deriving DecidableEq

def Error.message : Error → String
  | .unreadable           => "parse error"
  | .misplaced text note  => "syntax error in `" ++ text ++ "`: " ++ note
  | .unboundVariable c    => "unsafe clause `" ++ c ++ "`: every head variable must occur in the body"
  | .openFact f           => "fact `" ++ f ++ "` is not grounded"
  | .openNegation l       => "negated literal `" ++ l ++ "` must be semi-grounded"
  | .negatedHead c        => "clause `" ++ c ++ "` has a negated head"
  | .improperWeight w t   => "probability " ++ w ++ " of `" ++ t ++ "` is outside (0, 1]"
  | .weightedBody l       => "body literal `" ++ l ++ "` carries a probability"
  | .negatedPrimitive p   => "primitive `" ++ p ++ "` cannot be negated"
  | .cyclicBody c         => "dependency cycle while ordering the body of `" ++ c ++ "`"
  | .badSettings          => "invalid configuration"
  | .fault note           => "internal error: " ++ note

end Credence
