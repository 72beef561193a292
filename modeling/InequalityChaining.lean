import InequalityChaining.Main
import InequalityChaining.Document.Codec
import InequalityChaining.Term.Order
import InequalityChaining.Number.Comparison
import InequalityChaining.Proofs.Term.Parts
import InequalityChaining.Proofs.Reduction.Rewriting
import InequalityChaining.Proofs.Matching.Equations
import InequalityChaining.Proofs.Reduction.StandardStep
import InequalityChaining.Proofs.Reduction.Termination
import InequalityChaining.Proofs.Number.ExactOrder
import InequalityChaining.Proofs.Number.Rounding
import InequalityChaining.Proofs.Number.PatternOrder
import InequalityChaining.Proofs.Number.Conversion
import InequalityChaining.Proofs.Number.FloatOrder
import InequalityChaining.Proofs.Number.Comparison
import InequalityChaining.Proofs.Term.EqualityLaws
import InequalityChaining.Proofs.Term.Flattening
import InequalityChaining.Proofs.Matching.Derivation
import InequalityChaining.Proofs.Matching.Soundness
import InequalityChaining.Proofs.Number.IntegerArithmetic
import InequalityChaining.Proofs.Polynomial.Basic
import InequalityChaining.Proofs.Polynomial.Evaluation
import InequalityChaining.Proofs.Polynomial.Step
import InequalityChaining.Proofs.Polynomial.Simplification
import InequalityChaining.Proofs.Deduction.Knowledge
import InequalityChaining.Proofs.Deduction.Step
import InequalityChaining.Proofs.Polynomial.Deduction
import InequalityChaining.Proofs.Term.Counting
import InequalityChaining.Proofs.Term.Rearrangement
import InequalityChaining.Proofs.Term.OrderLaws
import InequalityChaining.Proofs.Deduction.Provenance
import InequalityChaining.Proofs.Matching.Completeness
import InequalityChaining.Proofs.Number.Finiteness
import InequalityChaining.Proofs.Reduction.Definedness
import InequalityChaining.Proofs.Deduction.Invariant
import InequalityChaining.Proofs.Deduction.Candidates
import InequalityChaining.Proofs.Token.Scanning
import InequalityChaining.Proofs.Reading.Grammar
import InequalityChaining.Proofs.Number.Division
import InequalityChaining.Proofs.Number.Pattern
import InequalityChaining.Proofs.Number.DecimalLiteral
import InequalityChaining.Proofs.Reading.Desugaring
import InequalityChaining.Proofs.Reading.Recovery
import InequalityChaining.Proofs.Reading.Text
import InequalityChaining.Proofs.Number.DecimalReading
import InequalityChaining.Proofs.Reduction.FirstRule
import InequalityChaining.Proofs.Deduction.StepLimit
import InequalityChaining.Proofs.Term.CanonicalForm
import InequalityChaining.Proofs.Reading.Derivation
import InequalityChaining.Proofs.Reading.Acceptance
import InequalityChaining.Proofs.Term.Renaming
import InequalityChaining.Proofs.Reduction.Renaming
import InequalityChaining.Proofs.Deduction.Renaming
import InequalityChaining.Proofs.Deduction.Groundness
import InequalityChaining.Proofs.Term.Congruence
import InequalityChaining.Proofs.Polynomial.Rearrangement
import InequalityChaining.Proofs.Polynomial.Lockstep
import InequalityChaining.Proofs.Polynomial.Balance
import InequalityChaining.Proofs.Polynomial.Entry
import InequalityChaining.Proofs.Polynomial.EntryStep
import InequalityChaining.Proofs.Polynomial.NormalBalance
import InequalityChaining.Proofs.Polynomial.Pass
import InequalityChaining.Proofs.Polynomial.PassBalance
import InequalityChaining.Proofs.Polynomial.Confluence
import InequalityChaining.Proofs.Matching.Linearity
import InequalityChaining.Proofs.Deduction.Goals
import InequalityChaining.Proofs.Reals.Identities
import InequalityChaining.Proofs.Reals.Deduction
import InequalityChaining.Proofs.Term.SubstitutionStacks
import InequalityChaining.Proofs.Matching.Kinds
import InequalityChaining.Proofs.Matching.Calls
import InequalityChaining.Proofs.Deduction.EqualBindings
import InequalityChaining.Proofs.Term.Evaluation
import InequalityChaining.Proofs.Reduction.Contents
import InequalityChaining.Proofs.Deduction.Seeding
import InequalityChaining.Proofs.Deduction.Squares
