/-!
# Arithmetic of the library

Powers with a natural exponent are those of the core language, and zero
is the numeral, whichever algebraic structures are in scope where a
definition or a theorem stands.
-/

attribute [instance (10000), default_instance (10000)] instPowNat

attribute [instance (10000)] Zero.ofOfNat0
