import CurveKeys.Keys.Envelope
import CurveKeys.Proofs.Words
import CurveKeys.Proofs.CheckedWords
import CurveKeys.Proofs.Secp256k1.Field.Normalize
import CurveKeys.Proofs.Secp256k1.Field.Canonical
import CurveKeys.Proofs.Secp256k1.Field.Reduction
import CurveKeys.Proofs.Secp256k1.Field.Product
import CurveKeys.Proofs.Primality
import CurveKeys.Proofs.Secp256k1.Field.Power
import CurveKeys.Proofs.Bytes
import CurveKeys.Proofs.Secp256k1.Field.Encoding
import CurveKeys.Proofs.Secp256k1.Field.Checked
import CurveKeys.Proofs.Secp256k1.Field.Program
import CurveKeys.Proofs.Secp256k1.Limbs
import CurveKeys.Proofs.Secp256k1.Accumulator
import CurveKeys.Proofs.Secp256k1.Scalar.Sum
import CurveKeys.Proofs.Secp256k1.Scalar.Product
import CurveKeys.Proofs.Secp256k1.Scalar.Reduction
import CurveKeys.Proofs.Secp256k1.Scalar.Inverse
import CurveKeys.Proofs.Secp256k1.Scalar.Quotient
import CurveKeys.Proofs.Secp256k1.Scalar.Positions
import CurveKeys.Proofs.Secp256k1.Field.Positions
import CurveKeys.Proofs.Secp256k1.Split
import CurveKeys.Proofs.Digits
import CurveKeys.Proofs.Secp256k1.Digits
import CurveKeys.Proofs.Secp256k1.Halves
import CurveKeys.Proofs.Secp256k1.Curve
import CurveKeys.Proofs.Secp256k1.Order
import CurveKeys.Proofs.Secp256k1.Jacobian
import CurveKeys.Proofs.Secp256k1.Affine
import CurveKeys.Proofs.Secp256k1.Decompression
import CurveKeys.Proofs.Secp256k1.Multiple
import CurveKeys.Proofs.Secp256k1.GroupLaw
import CurveKeys.Proofs.Secp256k1.Equality
import CurveKeys.Proofs.Secp256k1.PublicKey
import CurveKeys.Proofs.Secp256k1.Verification
import CurveKeys.Proofs.Secp256k1.Recovery
import CurveKeys.Proofs.Secp256k1.Component
import CurveKeys.Proofs.Secp256k1.Compact
import CurveKeys.Proofs.Secp256k1.Derivation
import CurveKeys.Proofs.Secp256k1.Sec1
import CurveKeys.Proofs.Hash.Generator
import CurveKeys.Proofs.Hash.Sha256
import CurveKeys.Proofs.Secp256k1.Nonce
import CurveKeys.Proofs.Secp256k1.Nonce.Stream
import CurveKeys.Proofs.Secp256k1.Nonce.Seeding
import CurveKeys.Proofs.Secp256k1.Signing
import CurveKeys.Proofs.Der
import CurveKeys.Proofs.Secp256k1.Der.Reading
import CurveKeys.Proofs.Secp256k1.Der.Writing
import CurveKeys.Proofs.UInt128
import CurveKeys.Proofs.Edwards25519.Primality
import CurveKeys.Proofs.Edwards25519.Field.Value
import CurveKeys.Proofs.Edwards25519.Field.Product
import CurveKeys.Proofs.Edwards25519.Field.Canonical
import CurveKeys.Proofs.Edwards25519.Field.Encoding
import CurveKeys.Proofs.Edwards25519.Field.Power
import CurveKeys.Proofs.Edwards25519.Field.Checked
import CurveKeys.Proofs.Edwards25519.Field.Expression
import CurveKeys.Proofs.Edwards25519.Field.Root
import CurveKeys.Proofs.Edwards25519.Addition
import CurveKeys.Proofs.Edwards25519.Curve
import CurveKeys.Proofs.Edwards25519.Point
import CurveKeys.Proofs.Edwards25519.Encoding
import CurveKeys.Proofs.Edwards25519.Scalar.Interval
import CurveKeys.Proofs.Edwards25519.Scalar.Limbs
import CurveKeys.Proofs.Edwards25519.Scalar.Reduction
import CurveKeys.Proofs.Edwards25519.Scalar.Residue
import CurveKeys.Proofs.Edwards25519.Scalar.Checked
import CurveKeys.Proofs.Edwards25519.Scalar.Canonical
import CurveKeys.Proofs.Edwards25519.Digits
import CurveKeys.Proofs.Edwards25519.NonAdjacent
import CurveKeys.Proofs.Edwards25519.Table
import CurveKeys.Proofs.Edwards25519.Multiple
import CurveKeys.Proofs.Edwards25519.GroupLaw
import CurveKeys.Proofs.Edwards25519.Codec
import CurveKeys.Proofs.Edwards25519.Key
import CurveKeys.Proofs.Edwards25519.Verification
import CurveKeys.Proofs.Edwards25519.Signing
import CurveKeys.Proofs.Edwards25519.Forms
import CurveKeys.Proofs.Keys.Equality
import CurveKeys.Proofs.Keys.RoundTrip
import CurveKeys.Proofs.Text
import CurveKeys.Proofs.Secp256k1.Malleability
import CurveKeys.Proofs.Keys.Import
import CurveKeys.Proofs.TextForms
import CurveKeys.Proofs.Secp256k1.RunningSum
import CurveKeys.Proofs.Secp256k1.NonAdjacent
import CurveKeys.Proofs.Secp256k1.Interleaved
import CurveKeys.Proofs.Recentring
import CurveKeys.Proofs.Selection
import CurveKeys.Proofs.SignedRadix
