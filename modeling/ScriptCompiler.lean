import ScriptCompiler.Program.Printer
import ScriptCompiler.Proofs.LoweringMeaning
import ScriptCompiler.Proofs.Ranges
import ScriptCompiler.Proofs.Wat.IntegralFunctions
import ScriptCompiler.Proofs.SeparateCompilation
import ScriptCompiler.Proofs.BuildHistory
import ScriptCompiler.Proofs.FoldingMeaning
import ScriptCompiler.Proofs.Wat.Validation
import ScriptCompiler.Proofs.X86.ClosedUnits
import ScriptCompiler.Proofs.X86.WideValues
import ScriptCompiler.Proofs.LexicalResolution
import ScriptCompiler.Proofs.Wat.Rendering
import ScriptCompiler.Proofs.Division
import ScriptCompiler.Proofs.CallAgreement
import ScriptCompiler.Proofs.LostStatements
import ScriptCompiler.Proofs.Candidates
import ScriptCompiler.Proofs.MethodLabels
import ScriptCompiler.Proofs.Verdicts
import ScriptCompiler.Proofs.CutCode
import ScriptCompiler.Proofs.IndexArithmetic
import ScriptCompiler.Proofs.X86.ConstantConversions
import ScriptCompiler.Proofs.X86.HeaderData
import ScriptCompiler.Proofs.StringConstants
