import Mathlib

/-!
# CHURP shares

`VerifiableSecretShare` and `Shareholder` of `secret-sharing/src/churp/shareholder.rs`, and the
errors of `churp/errors.rs`. Polynomials, verification matrices and verification vectors come
from the crate's `poly` and `vss` modules, which are not among the sources: their types are
parameters (scalars `F`, polynomials `P`, matrices `M`, vectors `V`), the operations the CHURP
code calls on them are the fields of `Vss`, and adding two polynomials or two matrices is `+`.
-/

namespace Orphiq.Churp

/-- `churp::Error`, the variants the modelled code returns. -/
inductive Error where
  | duplicateShareholder
  | invalidKind
  | invalidPolynomial
  | insecureBivariatePolynomial
  | invalidSwitchPoint
  | invalidState
  | notEnoughBivariateShares
  | notEnoughShareholders
  | notEnoughSwitchPoints
  | polynomialDegreeMismatch
  | shareholderProactivizationCompleted
  | shareholderIdentityMismatch
  | shareholderIdentityRequired
  | tooManySwitchPoints
  | unknownShareholder
  | verificationMatrixDimensionMismatch
  | verificationMatrixZeroHoleMismatch
  | verificationMatrixRequired
  deriving DecidableEq, Repr

/-- The operations of `poly` and `vss` that the CHURP code calls. -/
structure Vss (F P M V : Type) where
  /-- `Polynomial::size`, the number of coefficients. -/
  size : P → ℕ
  /-- `poly::lagrange`: the polynomial through the given points. -/
  lagrange : List (F × F) → P
  dimensions : M → ℕ × ℕ
  isZeroHole : M → Bool
  /-- Whether `element(i, j)` of the matrix is the identity. -/
  isIdentityAt : M → ℕ → ℕ → Bool
  verifyX : M → F → P → Bool
  verifyY : M → F → P → Bool
  verificationVectorForX : M → F → V
  verificationVectorForY : M → F → V
  /-- `VerificationVector::verify` of a point `(x, y)`. -/
  verify : V → F → F → Bool

/-- `VerifiableSecretShare`, with the identity `x` and polynomial `p` of its `SecretShare`. -/
structure VerifiableSecretShare (F P M : Type) where
  x : F
  p : P
  vm : M

structure Shareholder (F P M : Type) where
  verifiableShare : VerifiableSecretShare F P M

variable {F P M V : Type}

namespace VerifiableSecretShare

/-- `VerifiableSecretShare += &VerifiableSecretShare`: the identity stays the left one's. -/
def add [Add P] [Add M] (s t : VerifiableSecretShare F P M) : VerifiableSecretShare F P M :=
  ⟨s.x, s.p + t.p, s.vm + t.vm⟩

def calculateDimensions (threshold : UInt8) : ℕ × ℕ :=
  (threshold.toNat + 1, threshold.toNat * 2 + 1)

variable (vss : Vss F P M V)

def verifyVerificationMatrix (s : VerifiableSecretShare F P M) (threshold : UInt8) (zeroHole : Bool) :
    Except Error Unit := do
  let (rows, cols) := calculateDimensions threshold
  if vss.dimensions s.vm ≠ (rows, cols) then throw .verificationMatrixDimensionMismatch
  if vss.isZeroHole s.vm ≠ zeroHole then throw .verificationMatrixZeroHoleMismatch
  -- The leading terms of B(x, y), B(x, 0) and B(0, y) must not vanish.
  if threshold > 0 then
    if vss.isIdentityAt s.vm (rows - 1) (cols - 1) then throw .insecureBivariatePolynomial
    if vss.isIdentityAt s.vm (rows - 1) 0 then throw .insecureBivariatePolynomial
    if vss.isIdentityAt s.vm 0 (cols - 1) then throw .insecureBivariatePolynomial
  pure ()

def verifySecretShare (s : VerifiableSecretShare F P M) (threshold : UInt8) (fullShare : Bool) :
    Except Error Unit := do
  let (rows, cols) := calculateDimensions threshold
  if fullShare then
    if vss.size s.p ≠ cols then throw .polynomialDegreeMismatch
    if !vss.verifyX s.vm s.x s.p then throw .invalidPolynomial
  else
    if vss.size s.p ≠ rows then throw .polynomialDegreeMismatch
    if !vss.verifyY s.vm s.x s.p then throw .invalidPolynomial
  pure ()

def verify (s : VerifiableSecretShare F P M) (threshold : UInt8) (zeroHole fullShare : Bool) :
    Except Error Unit := do
  verifyVerificationMatrix vss s threshold zeroHole
  verifySecretShare vss s threshold fullShare

end VerifiableSecretShare

/-- `Shareholder::proactivize`: the share plus the polynomial `p` and the matrix `vm`. -/
def Shareholder.proactivize [Add P] [Add M] (vss : Vss F P M V) (sh : Shareholder F P M) (p : P) (vm : M) :
    Except Error (Shareholder F P M) := do
  if vss.size p ≠ vss.size sh.verifiableShare.p then throw .polynomialDegreeMismatch
  if !vss.isZeroHole vm then throw .verificationMatrixZeroHoleMismatch
  if vss.dimensions vm ≠ vss.dimensions sh.verifiableShare.vm then throw .verificationMatrixDimensionMismatch
  pure ⟨⟨sh.verifiableShare.x, p + sh.verifiableShare.p, vm + sh.verifiableShare.vm⟩⟩

end Orphiq.Churp
