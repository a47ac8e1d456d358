import PrefixFlow.Routing.Index

/-!
# Configurations

The public parameters of a set of flows. A configuration may hold any numbers; `Config.validate`
tells whether flows can be built from it. The bounds on the input are enforced by the stage
programs and are not limited here.
-/

namespace PrefixFlow

/-- The version of the library. -/
def libraryVersion : String := "0.1.0"

/-- The parameters of a set of flows. -/
structure Config where
  /-- The number of signers of the committee. -/
  signers : Int := 1
  /-- The number of programs of a flow. -/
  programs : Int := 2
  /-- The accepted flows are the `2 ^ acceptedBits` lowest indices. -/
  acceptedBits : Int := 4
  /-- The width of the routing prefix. -/
  prefixBits : Int := 16
  /-- How many signatures a step needs. -/
  quorum : Int := 1
  /-- The first stage accepts inputs above this. -/
  lowerBound : Int := 100
  /-- The second stage accepts inputs below this. -/
  upperBound : Int := 200
  /-- The bytes of a witness message. -/
  messageLength : Int := 12
  /-- The bytes of a limb. -/
  limbLength : Int := 4
  /-- The routing hash. -/
  hash : HashFunction := .blake3
  /-- A search gives up after this many times the expected work. -/
  attemptMultiple : Int := 100
  deriving Repr, DecidableEq

namespace Config

/-- Sixteen flows behind a prefix of 16 bits. -/
def toy : Config := { acceptedBits := 4, prefixBits := 16 }

/-- Four flows behind a prefix of 8 bits. -/
def small : Config := { acceptedBits := 2, prefixBits := 8 }

/-- All 32 bits of prefix. -/
def wide : Config := { acceptedBits := 8, prefixBits := 32 }

/-- Refuses a configuration that no flow can be built from. -/
def validate (c : Config) : Result Config := do
  checkWidths c.prefixBits c.acceptedBits
  if c.signers < 1 ∨ c.programs < 1 then
    throw (.parameters (.emptyCommittee c.signers c.programs))
  if ¬(1 ≤ c.quorum ∧ c.quorum ≤ c.signers) then
    throw (.parameters (.quorum c.quorum c.signers))
  if c.messageLength ≠ 12 then throw (.parameters (.messageLength c.messageLength))
  if c.limbLength ≠ 4 then throw (.parameters (.limbLength c.limbLength))
  if c.attemptMultiple < 1 then throw (.parameters .attemptMultiple)
  return c

/-- The number of accepted flows. -/
def flowCount? (c : Config) : Result Nat :=
  if c.acceptedBits < 0 then .error (.value .negativePower)
  else .ok (Nat.pow 2 c.acceptedBits.toNat)

/-- The number of half bytes that a stage program checks. -/
def prefixNibbles (c : Config) : Int := c.prefixBits / 4

/-- The expected number of nonces to be tried. -/
def expectedAttempts (c : Config) : Nat :=
  PrefixFlow.expectedAttempts c.prefixBits c.acceptedBits

end Config

end PrefixFlow
