import FlowShader.Compile
import FlowShader.CompileError
import FlowShader.Config
import FlowShader.Config.Reader
import FlowShader.Coordinates.Atlas
import FlowShader.Coordinates.Frame
import FlowShader.Coordinates.Preset
import FlowShader.Coordinates.Record
import FlowShader.Coordinates.Transform
import FlowShader.Decimal
import FlowShader.Diagnostic
import FlowShader.EGraph.Basic
import FlowShader.EGraph.Match
import FlowShader.EGraph.Rule
import FlowShader.EGraph.Saturate
import FlowShader.Expr
import FlowShader.Expr.Derivative
import FlowShader.Expr.Layer
import FlowShader.Expr.Parser
import FlowShader.Json
import FlowShader.Json.Fields
import FlowShader.Json.Printer
import FlowShader.Json.Reader
import FlowShader.Lowering
import FlowShader.Matrix
import FlowShader.Names
import FlowShader.Primitive
import FlowShader.Problem
import FlowShader.Proofs.Compile.AffineFlow
import FlowShader.Proofs.Compile.Functions
import FlowShader.Proofs.Compile.Module
import FlowShader.Proofs.Compile.NewtonChoice
import FlowShader.Proofs.Compile.NewtonInverse
import FlowShader.Proofs.Compile.Oscillator
import FlowShader.Proofs.Compile.PresetInverse
import FlowShader.Proofs.Compile.Report
import FlowShader.Proofs.Compile.VelocityField
import FlowShader.Proofs.Coordinates.Agreement
import FlowShader.Proofs.Coordinates.Atlas
import FlowShader.Proofs.Coordinates.ChartCode
import FlowShader.Proofs.Coordinates.Frame
import FlowShader.Proofs.Coordinates.InverseCode
import FlowShader.Proofs.Coordinates.Labels
import FlowShader.Proofs.Coordinates.PolarCap
import FlowShader.Proofs.Coordinates.Preset
import FlowShader.Proofs.Coordinates.Region
import FlowShader.Proofs.Coordinates.RoundTrip
import FlowShader.Proofs.Coordinates.Selection
import FlowShader.Proofs.Coordinates.Typing
import FlowShader.Proofs.Coordinates.Velocity
import FlowShader.Proofs.Decimal.Reading
import FlowShader.Proofs.Decimal.Shortest
import FlowShader.Proofs.Decimal.Text
import FlowShader.Proofs.EGraph.Cheapest
import FlowShader.Proofs.EGraph.Coherent
import FlowShader.Proofs.EGraph.Evaluation
import FlowShader.Proofs.EGraph.Extract
import FlowShader.Proofs.EGraph.Folding
import FlowShader.Proofs.EGraph.Names
import FlowShader.Proofs.EGraph.Rebuild
import FlowShader.Proofs.EGraph.Rule
import FlowShader.Proofs.EGraph.Saturate
import FlowShader.Proofs.EGraph.Sound
import FlowShader.Proofs.Except
import FlowShader.Proofs.Expr.Affine
import FlowShader.Proofs.Expr.Derivative
import FlowShader.Proofs.Expr.ErrorPosition
import FlowShader.Proofs.Expr.Fold
import FlowShader.Proofs.Expr.Grammar
import FlowShader.Proofs.Expr.Names
import FlowShader.Proofs.Expr.Occurrence
import FlowShader.Proofs.Expr.Parser
import FlowShader.Proofs.Expr.Readable
import FlowShader.Proofs.Expr.Replace
import FlowShader.Proofs.Expr.RoundTrip
import FlowShader.Proofs.Expr.Sparsity
import FlowShader.Proofs.Expr.Spelling
import FlowShader.Proofs.Expr.Text
import FlowShader.Proofs.Expr.Value
import FlowShader.Proofs.Expr.Winding
import FlowShader.Proofs.Lowering.Build
import FlowShader.Proofs.Lowering.Exact
import FlowShader.Proofs.Lowering.Keys
import FlowShader.Proofs.Lowering.Ledger
import FlowShader.Proofs.Lowering.Linear
import FlowShader.Proofs.Lowering.Meaning
import FlowShader.Proofs.Lowering.Session
import FlowShader.Proofs.Lowering.Sharing
import FlowShader.Proofs.Lowering.Spelling
import FlowShader.Proofs.Lowering.Trace
import FlowShader.Proofs.Lowering.Typing
import FlowShader.Proofs.Matrix.Application
import FlowShader.Proofs.Matrix.Cofactor
import FlowShader.Proofs.Matrix.Determinant
import FlowShader.Proofs.Matrix.Inverse
import FlowShader.Proofs.Matrix.Sparsity
import FlowShader.Proofs.Problem
import FlowShader.Proofs.Scalar.Double
import FlowShader.Proofs.Scalar.Elementary
import FlowShader.Proofs.Scalar.Real
import FlowShader.Proofs.Scalar.Whole
import FlowShader.Proofs.Scheme.ImplicitEuler
import FlowShader.Proofs.Scheme.Step
import FlowShader.Proofs.Scheme.Tableau
import FlowShader.Proofs.Scheme.Typing
import FlowShader.Proofs.Shader.Checking
import FlowShader.Proofs.Shader.Closed
import FlowShader.Proofs.Shader.Division
import FlowShader.Proofs.Shader.Elimination
import FlowShader.Proofs.Shader.Environment
import FlowShader.Proofs.Shader.Execution
import FlowShader.Proofs.Shader.Globals
import FlowShader.Proofs.Shader.GuardedInversion
import FlowShader.Proofs.Shader.Inverse
import FlowShader.Proofs.Shader.Inversion
import FlowShader.Proofs.Shader.LinearAlgebra
import FlowShader.Proofs.Shader.Scoping
import FlowShader.Proofs.Shader.Typing
import FlowShader.Proofs.Simplify
import FlowShader.Proofs.Simplify.Ground
import FlowShader.Proofs.Simplify.Independence
import FlowShader.Proofs.Simplify.Price
import FlowShader.Proofs.Token.Munch
import FlowShader.Proofs.Token.Scan
import FlowShader.Proofs.Token.Spelled
import FlowShader.Scalar
import FlowShader.Scalar.Double
import FlowShader.Scheme
import FlowShader.Scheme.Step
import FlowShader.Shader.Builtin
import FlowShader.Shader.Interpreter
import FlowShader.Shader.Inverse
import FlowShader.Shader.Module
import FlowShader.Shader.Stmt
import FlowShader.Shader.Term
import FlowShader.Shader.Value
import FlowShader.Simplify
import FlowShader.Token
import FlowShader.Token.Lexer
