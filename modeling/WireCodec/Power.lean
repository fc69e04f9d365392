/-!
# Powers of numbers

A natural number or an integer is raised to a power by the core library, in all of this library.
Where algebraic structures are in scope there is a second way to say it, which is worth the same but
is not the same term. Two modules would then state one thing in two ways, depending on what they
import.
-/

-- A literal exponent has no type of its own: its power is found by default instances.
attribute [instance (default + 1), default_instance (high + 1)] instPowNat
