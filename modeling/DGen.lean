import DGen.Increment
import DGen.LlvmTypes
import DGen.EvalContext
import DGen.Steps
import DGen.ModelValues
import DGen.Elimination
import DGen.Emission
import DGen.Dominance
import DGen.Forcing
import DGen.Names
import DGen.WriteOnce
import DGen.Encoders
import DGen.Replay
import DGen.Laziness
import DGen.Room
import DGen.Conditions
import DGen.Derivations
import DGen.Compound
import DGen.Totality
import DGen.Convertibility
import DGen.Literals
import DGen.Strings
import DGen.Document
import DGen.Gathering
import DGen.Equivalence
import DGen.Sessions
import DGen.Branches
